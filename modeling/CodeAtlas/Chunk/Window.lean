import CodeAtlas.Chunk.Budget
import CodeAtlas.Text.Lines
import CodeAtlas.Text.Tokens

/-!
# Line windows

A text that is over budget is cut into windows of consecutive lines. A window takes lines as long
as they fit, and the next one starts with the last few lines of the one before, so that no line is
read without what precedes it. A single line is never cut.

## Main definitions

* `CodeAtlas.Window` — consecutive lines and the number of the first.
* `CodeAtlas.Run` — the lines of an open window, with their number and the length that they have
  when joined.
* `CodeAtlas.Run.overlap` — the lines that the next window repeats.
* `CodeAtlas.Window.split` — the windows of a text.

## Main results

* `CodeAtlas.Run.joinedLength_cons` — the joined length with one line more.

## Implementation notes

A run keeps its lines newest first. Its number of lines and its length are tracked, and the type
says that they are right.
-/

set_option autoImplicit false

namespace CodeAtlas

/-- Consecutive lines of a file. -/
structure Window where
  /-- The number of the first line. -/
  startLine : Nat
  /-- The lines. -/
  lines : List String
  deriving DecidableEq, Repr

namespace Window

/-- The number of the last line. -/
def endLine (window : Window) : Nat := window.startLine + window.lines.length - 1

/-- The lines as one text. -/
def content (window : Window) : String := "\n".intercalate window.lines

/-- The most lines of a window. -/
def lineCap (budget : Budget) : Nat := max budget.maxLines 1

end Window

/-! ## Runs -/

/-- The length of lines when joined by newlines. -/
def Run.joinedLength (lines : List String) : Nat :=
  lines.foldr (fun line length => line.length + length) (lines.length - 1)

/-- The lines of an open window. -/
structure Run where
  /-- The lines, newest first. -/
  newest : List String := []
  /-- The number of lines. -/
  size : Nat := 0
  /-- The length of the lines when joined. -/
  length : Nat := 0
  /-- The number of lines is tracked rightly. -/
  size_eq : size = newest.length := by rfl
  /-- The length is tracked rightly. -/
  length_eq : length = Run.joinedLength newest := by rfl

namespace Run

/-- A summand can be taken out of the sum of lengths. -/
private theorem foldr_length_add (lines : List String) (a b : Nat) :
    lines.foldr (fun line length => line.length + length) (a + b) =
      lines.foldr (fun line length => line.length + length) a + b := by
  induction lines with
  | nil => rfl
  | cons line rest ih =>
    rw [List.foldr_cons, List.foldr_cons, ih]
    omega

/-- The joined length with one line more: a newline comes in between, unless the line is the
first. -/
theorem joinedLength_cons (line : String) (lines : List String) :
    joinedLength (line :: lines) =
      if lines.length = 0 then line.length else joinedLength lines + 1 + line.length := by
  cases lines with
  | nil => rfl
  | cons first rest =>
    have h := foldr_length_add (first :: rest) rest.length 1
    simp only [joinedLength, List.length_cons, Nat.add_sub_cancel, List.foldr_cons] at h ⊢
    rw [if_neg (by omega)]
    omega

/-- The run of given lines, newest first. -/
def ofNewest (newest : List String) : Run where
  newest
  size := newest.length
  length := joinedLength newest

/-- The run with one line more. -/
def push (run : Run) (line : String) : Run where
  newest := line :: run.newest
  size := run.size + 1
  length := if run.size = 0 then line.length else run.length + 1 + line.length
  size_eq := by rw [run.size_eq, List.length_cons]
  length_eq := by rw [joinedLength_cons, run.size_eq, run.length_eq]

/-- Whether no further line fits: the run has the most lines, or too many tokens with the next
line. The empty run is never full. -/
def isFull (budget : Budget) (run : Run) (next : String) : Bool :=
  run.size != 0 &&
    (budget.maxTokens < Text.tokensOfLength (run.push next).length ||
      Window.lineCap budget ≤ run.size)

/-! ## Overlap -/

/-- The number of lines that are repeated before `next`, when `taken` lines of joined length
`length` are repeated already and `room` more may be. Going back from the newest line, a line is
repeated if the lines stay within the overlap budget, and within the budget of a window with the
next line behind them. -/
def repeated (budget : Budget) (next : String) :
    (room taken length : Nat) → (older : List String) → Nat
  | 0, taken, _, _ => taken
  | _ + 1, taken, _, [] => taken
  | room + 1, taken, length, line :: older =>
    let longer := if taken = 0 then line.length else length + 1 + line.length
    if Text.tokensOfLength longer ≤ budget.overlapTokens ∧
        Text.tokensOfLength (longer + 1 + next.length) ≤ budget.maxTokens then
      repeated budget next room (taken + 1) longer older
    else taken

/-- The most lines that may be repeated: fewer than the run has, and at most half of the lines of
a window, so that every window has room for new lines. -/
def overlapRoom (budget : Budget) (run : Run) : Nat :=
  min (run.size - 1) (Window.lineCap budget / 2)

/-- The lines of a full run that the next one repeats before `next`. Without an overlap budget
there is none, not even an empty one. -/
def overlap (budget : Budget) (run : Run) (next : String) : Run :=
  if budget.overlapTokens = 0 then {}
  else ofNewest (run.newest.take (repeated budget next (run.overlapRoom budget) 0 0 run.newest))

end Run

/-! ## Splitting -/

namespace Window

/-- The window of a run that starts at a line. -/
def ofRun (startLine : Nat) (run : Run) : Window := ⟨startLine, run.newest.reverse⟩

/-- The windows of the lines ahead, when the open one starts at line `start` with the lines of
`run`. -/
def windows (budget : Budget) : (start : Nat) → (run : Run) → List String → List Window
  | start, run, [] => if run.size = 0 then [] else [ofRun start run]
  | start, run, line :: rest =>
    if run.isFull budget line then
      let shared := run.overlap budget line
      ofRun start run :: windows budget (start + run.size - shared.size) (shared.push line) rest
    else windows budget start (run.push line) rest

/-- The windows of a text whose first line has the given number. -/
def split (budget : Budget) (text : String) (firstLine : Nat) : List Window :=
  windows budget firstLine {} (Text.splitLines text)

end Window

end CodeAtlas
