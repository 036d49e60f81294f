import Mathlib.Data.List.Chain
import CodeAtlas.Proofs.Separation

/-!
# Windows lie over the lines like shingles

The windows of a text cover its lines one after the other: each starts and ends later than the one
before it, and starts at the latest right behind it. What two neighbours share is told twice, and
nothing else is: the lines that each window adds to those before are, in order, the lines of the
text. Every window but the last takes as many lines as it can.

Nothing is asked of the budget, which may even leave no room at all.

## Main definitions

* `CodeAtlas.Text.chomp` — a text without one newline at its end.
* `CodeAtlas.Window.Overlays` — a window and its successor over given lines.
* `CodeAtlas.Window.fresh` — the lines of windows that no earlier window holds.
* `CodeAtlas.Window.Shingled` — windows cover given lines one after the other.

## Main results

* `CodeAtlas.Text.intercalate_splitLines` — the lines of a text, joined, are the chomped text.
* `CodeAtlas.Window.fresh_windows` — what the windows add is what the open run adds and the lines
  ahead.
* `CodeAtlas.Window.isChain_overlays_windows` — each window overlays the one before it.
* `CodeAtlas.Window.shingled_split` — the windows of a text cover its lines one after the other.
-/

set_option autoImplicit false

namespace CodeAtlas

/-! ## Lines of a text -/

namespace Text

/-- A text without one newline at its end. -/
def chomp (text : String) : String :=
  String.ofList (if text.toList.getLast? = some '\n' then text.toList.dropLast else text.toList)

/-- A text with a newline behind it has the pieces of the text, and an empty one. -/
private lemma pieces_concat_newline (text : List Char) :
    pieces (String.ofList (text ++ ['\n'])) = pieces (String.ofList text) ++ [""] := by
  rw [pieces, pieces, String.toList_ofList, String.toList_ofList, List.splitOn_append_cons_self,
    List.splitOn_nil, List.map_append]
  rfl

/-- **Lines and text.** The lines of a text, joined, are the text without one newline at its
end.

**Proof sketch.** The pieces between newlines, joined, are the text. If it ends in a newline, the
last piece is empty and dropped, which takes this newline away; otherwise the last piece is not
empty. -/
theorem intercalate_splitLines (text : String) :
    "\n".intercalate (splitLines text) = chomp text := by
  obtain ⟨chars, rfl⟩ : ∃ chars, text = String.ofList chars := ⟨_, String.ofList_toList.symm⟩
  rcases List.eq_nil_or_concat' chars with rfl | ⟨front, last, rfl⟩
  · decide
  · rw [chomp, String.toList_ofList, List.getLast?_concat, List.dropLast_concat, splitLines]
    by_cases hLast : last = '\n'
    · rw [hLast, pieces_concat_newline, if_pos (List.getLast?_concat ..), List.dropLast_concat,
        if_pos rfl, intercalate_pieces]
    · have hNonempty : (pieces (String.ofList (front ++ [last]))).getLast? ≠ some "" := by
        rw [pieces, String.toList_ofList, List.getLast?_map]
        intro h
        obtain ⟨piece, hPiece, hNil⟩ := Option.map_eq_some_iff.1 h
        rw [String.ofList_eq_empty_iff] at hNil
        exact getLast?_splitOn_concat hLast front (hNil ▸ hPiece)
      rw [if_neg hNonempty, if_neg (by simpa using hLast), intercalate_pieces]

/-- Only the empty text has no line. -/
lemma splitLines_eq_nil_iff (text : String) : splitLines text = [] ↔ text = "" := by
  constructor
  · intro h
    rcases List.eq_nil_or_concat' text.toList with hNil | ⟨front, last, hConcat⟩
    · rw [← String.ofList_toList (s := text), hNil]
    · have hCount := lineCount_of_concat front last
      rw [← hConcat, String.ofList_toList, lineCount, h] at hCount
      exact absurd hCount.symm (Nat.succ_ne_zero _)
  · rintro rfl
    decide

end Text

namespace Window

/-! ## Neighbouring windows -/

/-- A window and its successor over given lines: the successor starts later, but at the latest right
behind the window, and ends later. The window cannot take the line behind it, which would make it
exceed the token limit or the line cap. -/
structure Overlays (budget : Budget) (lines : List String) (firstLine : Nat)
    (window next : Window) : Prop where
  startLine_lt : window.startLine < next.startLine
  startLine_le : next.startLine ≤ window.endLine + 1
  endLine_lt : window.endLine < next.endLine
  maximal : ∃ line, lines[window.endLine + 1 - firstLine]? = some line ∧
    (budget.maxTokens < Text.tokens (window.content ++ "\n" ++ line) ∨
      max 1 budget.maxLines < window.endLine - window.startLine + 1 + 1)

/-- The window of a run ends right before the line that many lines behind its start. -/
lemma endLine_ofRun_add_one (start : Nat) {run : Run} (hSize : run.size ≠ 0) :
    (ofRun start run).endLine + 1 = start + run.size := by
  rw [endLine, length_lines_ofRun]
  show start + run.size - 1 + 1 = start + run.size
  omega

/-- A full run cannot take the next line. -/
private lemma exceeds_of_isFull {budget : Budget} {run : Run} {line : String}
    (hFull : run.isFull budget line = true) (start : Nat) :
    budget.maxTokens < Text.tokens ((ofRun start run).content ++ "\n" ++ line) ∨
      max 1 budget.maxLines < run.size + 1 := by
  have hSize := size_ne_zero_of_isFull hFull
  simp only [Run.isFull, Bool.and_eq_true, Bool.or_eq_true, decide_eq_true_eq] at hFull
  refine hFull.2.imp (fun hTokens => ?_) fun hLines => ?_
  · have hLength : ((ofRun start run).content ++ "\n" ++ line).length =
        (run.push line).length := by
      have hContent : (ofRun start run).content.length = run.length := by
        rw [content, Run.length_intercalate, ofRun, Run.joinedLength_reverse, run.length_eq]
      simp only [Run.push, if_neg hSize]
      rw [String.length_append, String.length_append, hContent]
      rfl
    rwa [Text.tokens, hLength]
  · rw [lineCap, Nat.max_comm] at hLines
    omega

/-- A full run is overlaid by the window that starts with the lines they share and the line that
did not fit.

**Proof sketch.** The two share fewer lines than the run has, and the window has one line more than
they share, so it starts and ends later. That one is the line behind the run, which did not fit
(`exceeds_of_isFull`). -/
private lemma overlays_of_isFull {budget : Budget} {run : Run} {line : String}
    (hFull : run.isFull budget line = true) {lines passed rest : List String} {firstLine : Nat}
    (hAll : lines = passed ++ run.newest.reverse ++ line :: rest) {window : Window}
    (hStart : window.startLine =
      firstLine + passed.length + run.size - (run.overlap budget line).size)
    {more : List String}
    (hLines : window.lines = ((run.overlap budget line).push line).newest.reverse ++ more) :
    Overlays budget lines firstLine (ofRun (firstLine + passed.length) run) window := by
  have hSize := size_ne_zero_of_isFull hFull
  have hShared := Run.size_overlap_le budget run line
  have hEnd := endLine_ofRun_add_one (firstLine + passed.length) hSize
  have hCount : (run.overlap budget line).size + 1 ≤ window.lines.length := by
    have hPushed := ((run.overlap budget line).push line).size_eq
    rw [hLines, List.length_append, List.length_reverse, ← hPushed]
    exact Nat.le_add_right _ _
  refine ⟨?_, ?_, ?_, line, ?_, ?_⟩
  · show firstLine + passed.length < window.startLine
    omega
  · omega
  · have hWindow : window.endLine = window.startLine + window.lines.length - 1 := rfl
    omega
  · rw [hEnd, Nat.add_assoc, Nat.add_sub_cancel_left, hAll, run.size_eq]
    simp
  · have hNumber : (ofRun (firstLine + passed.length) run).endLine -
        (ofRun (firstLine + passed.length) run).startLine + 1 = run.size := by
      show _ - (firstLine + passed.length) + 1 = run.size
      omega
    rw [hNumber]
    exact exceeds_of_isFull hFull _

/-- Each window overlays the one before it.

**Proof sketch.** Induction on the lines ahead, with the lines passed before the open run. When a
run is closed, the first window behind it starts with what the two share and with the line that did
not fit. -/
theorem isChain_overlays_windows (budget : Budget) (all : List String) (firstLine : Nat)
    (lines : List String) : ∀ (passed : List String) (run : Run),
      all = passed ++ run.newest.reverse ++ lines →
      (windows budget (firstLine + passed.length) run lines).IsChain
        (Overlays budget all firstLine) := by
  induction lines with
  | nil =>
    intro passed run _
    rw [windows]
    split
    · exact List.IsChain.nil
    · exact List.isChain_singleton _
  | cons line rest ih =>
    intro passed run hAll
    rw [windows]
    split
    · next hFull =>
      obtain ⟨count, hNewest⟩ := run.exists_newest_overlap budget line
      have hSplit : run.newest.reverse =
          (run.newest.drop count).reverse ++ (run.overlap budget line).newest.reverse := by
        rw [hNewest, ← List.reverse_append, List.take_append_drop]
      -- the lines of the run that are not repeated are passed
      have hPassed : firstLine + passed.length + run.size - (run.overlap budget line).size =
          firstLine + (passed ++ (run.newest.drop count).reverse).length := by
        have hLength := congrArg List.length hSplit
        have hSize := run.size_eq
        have hShared := (run.overlap budget line).size_eq
        simp only [List.length_append, List.length_reverse] at hLength ⊢
        omega
      have hRest := ih (passed ++ (run.newest.drop count).reverse)
        ((run.overlap budget line).push line) (by rw [hAll, hSplit]; simp [Run.push])
      rw [← hPassed] at hRest
      obtain ⟨window, others, more, hEq, hStart, hLines⟩ := exists_windows_eq_cons budget rest
        (firstLine + passed.length + run.size - (run.overlap budget line).size)
        ((run.overlap budget line).push line) (Nat.succ_ne_zero _)
      dsimp only
      rw [hEq] at hRest ⊢
      exact List.isChain_cons_cons.2 ⟨overlays_of_isFull hFull hAll hStart hLines, hRest⟩
    · exact ih passed (run.push line) (by rw [hAll]; simp [Run.push])

/-! ## First, last and fresh lines -/

/-- The last window ends with the last line ahead.

**Proof sketch.** Induction on the lines ahead. There is a window behind every run that is closed,
so that the last one is the last of those. -/
lemma endLine_of_getLast?_windows (budget : Budget) (lines : List String) :
    ∀ (start : Nat) (run : Run), ∀ window ∈ (windows budget start run lines).getLast?,
      window.endLine + 1 = start + run.size + lines.length := by
  induction lines with
  | nil =>
    intro start run window hLast
    rw [windows] at hLast
    split at hLast
    · cases hLast
    · next hSize =>
      obtain rfl : ofRun start run = window := Option.some.inj hLast
      exact endLine_ofRun_add_one start hSize
  | cons line rest ih =>
    intro start run window hLast
    rw [windows] at hLast
    split at hLast
    · next hFull =>
      have hShared := Run.size_overlap_le budget run line
      have hSize := size_ne_zero_of_isFull hFull
      obtain ⟨first, others, -, hEq, -, -⟩ := exists_windows_eq_cons budget rest
        (start + run.size - (run.overlap budget line).size) ((run.overlap budget line).push line)
        (Nat.succ_ne_zero _)
      dsimp only at hLast
      rw [hEq, List.getLast?_cons_cons, ← hEq] at hLast
      have hEnd := ih _ _ window hLast
      change _ = _ + ((run.overlap budget line).size + 1) + _ at hEnd
      rw [hEnd, List.length_cons]
      omega
    · have hEnd := ih start (run.push line) window hLast
      change _ = _ + (run.size + 1) + _ at hEnd
      rw [hEnd, List.length_cons]
      omega

/-- The lines of windows that no earlier window holds: of each window those from line `next` on,
where `next` is the line behind the window before. -/
def fresh : (next : Nat) → List Window → List String
  | _, [] => []
  | next, window :: rest =>
    window.lines.drop (next - window.startLine) ++ fresh (window.endLine + 1) rest

/-- What the windows add from line `next` on is what the open run has from there on, and the lines
ahead.

**Proof sketch.** Induction on the lines ahead. A window that is closed adds what its run has, and
of the next run only the line that did not fit is new. -/
theorem fresh_windows (budget : Budget) (lines : List String) :
    ∀ (start : Nat) (run : Run) (next : Nat), next ≤ start + run.size →
      fresh next (windows budget start run lines) =
        run.newest.reverse.drop (next - start) ++ lines := by
  induction lines with
  | nil =>
    intro start run next hNext
    rw [windows]
    split
    · next hSize =>
      have hNil : run.newest = [] := List.eq_nil_of_length_eq_zero (by rw [← run.size_eq, hSize])
      simp [fresh, hNil]
    · simp [fresh, ofRun]
  | cons line rest ih =>
    intro start run next hNext
    rw [windows]
    split
    · next hFull =>
      have hShared := Run.size_overlap_le budget run line
      have hSize := size_ne_zero_of_isFull hFull
      have hBehind : start + run.size - (start + run.size - (run.overlap budget line).size) =
          (run.overlap budget line).newest.reverse.length := by
        rw [List.length_reverse, ← (run.overlap budget line).size_eq]
        omega
      dsimp only
      rw [fresh, endLine_ofRun_add_one start hSize, ih _ _ _ (by
        show start + run.size ≤ _ + ((run.overlap budget line).size + 1)
        omega), hBehind]
      simp [ofRun, Run.push]
    · have hDrop : next - start ≤ run.newest.reverse.length := by
        rw [List.length_reverse, ← run.size_eq]
        omega
      rw [ih start (run.push line) next (by
        show next ≤ start + (run.size + 1)
        omega)]
      simp [Run.push, List.drop_append_of_le_length hDrop]

/-! ## Windows of a text -/

/-- Windows cover given lines, the first of which has the given number, one after the other: the
first window starts with the first line, the last ends with the last line, the content of each is
the consecutive lines from its first to its last one, joined, each overlays the one before it, and
what they add one after the other is all lines. -/
structure Shingled (budget : Budget) (lines : List String) (firstLine : Nat)
    (windows : List Window) : Prop where
  first : ∀ window ∈ windows.head?, window.startLine = firstLine
  last : ∀ window ∈ windows.getLast?, window.endLine + 1 = firstLine + lines.length
  consecutive : ∀ window ∈ windows, firstLine ≤ window.startLine ∧
    window.startLine ≤ window.endLine ∧ window.endLine < firstLine + lines.length ∧
    window.content = "\n".intercalate ((lines.drop (window.startLine - firstLine)).take
      (window.endLine + 1 - window.startLine))
  chain : windows.IsChain (Overlays budget lines firstLine)
  fresh_eq : fresh firstLine windows = lines

/-- The windows of some lines start with the first of them. -/
lemma exists_split_eq_cons (budget : Budget) {text line : String} {rest : List String}
    (h : Text.splitLines text = line :: rest) (firstLine : Nat) :
    ∃ window others, split budget text firstLine = window :: others ∧
      window.startLine = firstLine := by
  have hRoom : Run.isFull budget {} line = false := rfl
  obtain ⟨window, others, -, hEq, hStart, -⟩ := exists_windows_eq_cons budget rest firstLine
    (Run.push {} line) (Nat.succ_ne_zero _)
  refine ⟨window, others, ?_, hStart⟩
  rw [split, h, windows, hRoom]
  exact hEq

/-- **Windows are shingles.** A text has no window exactly if it is empty. The windows of a text
cover its lines one after the other, each overlays the one before it and takes as many lines as it
can, and what they add one after the other, joined, is the text without one newline at its end.

**Proof sketch.** Split starts with an empty run, so the facts about `windows` apply with nothing
passed. The first window starts with the first line (`exists_split_eq_cons`), the last one ends with
the last line (`endLine_of_getLast?_windows`), and the lines of each are a stretch of all lines that
starts where its number says (`exists_append_of_mem_split`). Neighbours overlay each other
(`isChain_overlays_windows`), and the fresh lines are all lines (`fresh_windows`), which joined are
the text without one newline at its end (`Text.intercalate_splitLines`). -/
theorem shingled_split (budget : Budget) (text : String) (firstLine : Nat) :
    (split budget text firstLine = [] ↔ text = "") ∧
    Shingled budget (Text.splitLines text) firstLine (split budget text firstLine) ∧
    "\n".intercalate (fresh firstLine (split budget text firstLine)) = Text.chomp text := by
  have hFresh : fresh firstLine (split budget text firstLine) = Text.splitLines text := by
    rw [split, fresh_windows budget _ firstLine {} firstLine (Nat.le_refl _)]
    simp
  refine ⟨?_, ?_, by rw [hFresh, Text.intercalate_splitLines]⟩
  · rw [← Text.splitLines_eq_nil_iff]
    cases hLines : Text.splitLines text with
    | nil => simp [split, hLines, windows]
    | cons line rest =>
      obtain ⟨window, others, hEq, -⟩ := exists_split_eq_cons budget hLines firstLine
      simp [hEq]
  · refine ⟨?_, ?_, ?_, ?_, hFresh⟩
    · intro window hHead
      cases hLines : Text.splitLines text with
      | nil => simp [split, hLines, windows] at hHead
      | cons line rest =>
        obtain ⟨first, others, hEq, hStart⟩ := exists_split_eq_cons budget hLines firstLine
        rw [hEq] at hHead
        obtain rfl : first = window := Option.some.inj hHead
        exact hStart
    · intro window hLast
      have hEnd := endLine_of_getLast?_windows budget _ firstLine {} window hLast
      simpa using hEnd
    · intro window hMem
      obtain ⟨hLow, hOrder, hHigh⟩ := endLine_lt_of_mem_split hMem
      obtain ⟨hNonempty, front, back, hAll, hStart⟩ := exists_append_of_mem_split hMem
      refine ⟨hLow, hOrder, hHigh, ?_⟩
      have hPos := List.length_pos_iff.2 hNonempty
      have hCount : window.endLine + 1 - window.startLine = window.lines.length := by
        unfold endLine
        omega
      rw [hCount, hStart, Nat.add_sub_cancel_left, hAll, List.append_assoc, List.drop_left,
        List.take_left, content]
    · exact isChain_overlays_windows budget _ firstLine _ [] {} (by simp)

/-- Windows of up to four lines that share up to two: the last one closes with the text. -/
example : (split { maxTokens := 40, overlapTokens := 1, maxLines := 4 } "a\nb\nc\nd\ne\n" 7).map
    (fun window => (window.startLine, window.endLine, window.content)) =
      [(7, 10, "a\nb\nc\nd"), (9, 11, "c\nd\ne")] := by
  decide +kernel

end Window

end CodeAtlas
