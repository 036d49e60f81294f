import CodeAtlas.Text.Blank

/-!
# Lines

Lines end at a newline, and a newline at the very end opens no further line. Offsets count UTF-8
bytes from zero, line numbers start at one.

## Main definitions

* `CodeAtlas.Text.splitLines`, `lineCount` — the lines of a text and their number.
* `CodeAtlas.Text.lineStarts` — the offsets at which lines start.
* `CodeAtlas.Source` — a text together with its line starts; `Source.lineAt` and
  `Source.lineSpan` number the lines of an offset and of a byte range.
* `CodeAtlas.Text.headline` — the first line that says what a declaration is.
-/

set_option autoImplicit false

namespace CodeAtlas

namespace Text

/-- The pieces of a text between its newlines; there is one more piece than newlines. -/
def pieces (text : String) : List String := (text.toList.splitOn '\n').map String.ofList

/-- The lines of a text: its pieces, but for an empty last one. The empty text has no line. -/
def splitLines (text : String) : List String :=
  if (pieces text).getLast? = some "" then (pieces text).dropLast else pieces text

/-- The number of lines of a text. -/
def lineCount (text : String) : Nat := (splitLines text).length

/-- The offsets just behind the newlines of a text that itself starts at `offset`. -/
def startsAfterNewlines (offset : Nat) : List Char → List Nat
  | [] => []
  | c :: rest =>
    let next := offset + c.utf8Size
    if c = '\n' then next :: startsAfterNewlines next rest else startsAfterNewlines next rest

/-- The offsets at which a line starts: zero, and behind each newline. -/
def lineStarts (text : String) : List Nat := 0 :: startsAfterNewlines 0 text.toList

/-- The first line of a declaration that is neither blank nor a decorator, without its outer
blanks. -/
def headline (text : String) : Option String :=
  (((text.toList.splitOn '\n').map trim).find? fun line =>
    !line.isEmpty && line.head? != some '@').map String.ofList

end Text

/-- A text with the offsets at which its lines start. -/
structure Source where
  /-- The whole text. -/
  text : String
  /-- The offsets at which a line starts, in increasing order. -/
  lineStarts : List Nat := Text.lineStarts text
  /-- The line starts are those of the text. -/
  lineStarts_eq : lineStarts = Text.lineStarts text := by rfl

namespace Source

/-- The number of the line that holds a byte: how many lines start at or before it. -/
def lineAt (source : Source) (offset : Nat) : Nat := source.lineStarts.countP (· ≤ offset)

/-- The numbers of the first and the last line of the bytes from `start` up to `stop`. -/
def lineSpan (source : Source) (start stop : Nat) : Nat × Nat :=
  (source.lineAt start, source.lineAt (max (stop - 1) start))

/-- Later bytes are on later lines. -/
theorem lineAt_mono (source : Source) {a b : Nat} (h : a ≤ b) :
    source.lineAt a ≤ source.lineAt b := by
  unfold lineAt
  apply List.countP_mono_left
  intro x _ hx
  simp only [decide_eq_true_eq] at hx ⊢
  omega

/-- The span of a byte range does not run backwards. -/
theorem lineSpan_le (source : Source) (start stop : Nat) :
    (source.lineSpan start stop).1 ≤ (source.lineSpan start stop).2 :=
  source.lineAt_mono (by omega)

end Source

end CodeAtlas
