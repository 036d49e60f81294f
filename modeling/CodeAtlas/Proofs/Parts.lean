import Mathlib.Data.List.Basic
import CodeAtlas.Proofs.Coverage

/-!
# Chunks are parts of the text

Before they are merged, chunks are made of regions of a text and of windows of such regions. Both
are parts of the text: a region that gives chunks is one without its outer blanks, and the lines of
a window stand one below the other in the text that was split.

## Main definitions

* `CodeAtlas.Text.linesAbove` — lines, each with the newline that ends it.
* `CodeAtlas.Region.start`, `CodeAtlas.Region.stop` — the ends of a region.

## Main results

* `CodeAtlas.Text.exists_eq_linesAbove_append` — consecutive lines of a text, joined, are a part of
  it, with the lines above before them.
* `CodeAtlas.Window.exists_append_of_mem_split` — the lines of a window are consecutive lines of
  the text, and their first has the number of the window.
* `CodeAtlas.Cutting.exists_stretch_eq_of_region` — the chunks of a region are those of a stretch
  that is a part of the text within the region.
-/

set_option autoImplicit false

namespace CodeAtlas

open String (utf8Len utf8Len_append utf8Len_toList utf8ByteSize_ofList)

/-! ## Lines -/

namespace Text

/-- Lines as they stand above further text: each with the newline that ends it. -/
def linesAbove (lines : List String) : List Char :=
  lines.flatMap fun line => line.toList ++ ['\n']

/-- Joined lines are the lines above, followed by the rest joined. -/
lemma intercalate_append_toList (front : List String) {rest : List String} (hRest : rest ≠ []) :
    ("\n".intercalate (front ++ rest)).toList =
      linesAbove front ++ ("\n".intercalate rest).toList := by
  induction front with
  | nil => rfl
  | cons line front ih =>
    obtain ⟨next, others, hNext⟩ : ∃ next others, front ++ rest = next :: others :=
      List.exists_cons_of_ne_nil (by simp [hRest])
    have hNewline : "\n".toList = ['\n'] := rfl
    rw [List.cons_append, hNext, String.intercalate_cons_cons, ← hNext, String.toList_append,
      String.toList_append, ih, hNewline]
    simp [linesAbove]

/-- Joined lines start with the first of them, joined. -/
private lemma exists_intercalate_append (lines back : List String) (hLines : lines ≠ []) :
    ∃ after, ("\n".intercalate (lines ++ back)).toList =
      ("\n".intercalate lines).toList ++ after := by
  cases back with
  | nil => exact ⟨[], by simp⟩
  | cons next back =>
    obtain ⟨front, last, rfl⟩ := (List.eq_nil_or_concat' lines).resolve_left hLines
    refine ⟨'\n' :: ("\n".intercalate (next :: back)).toList, ?_⟩
    rw [intercalate_append_toList _ (List.cons_ne_nil _ _),
      intercalate_append_toList front (List.cons_ne_nil _ _), String.intercalate_singleton]
    simp [linesAbove]

/-- A text is its pieces, joined. -/
lemma intercalate_pieces (text : String) : "\n".intercalate (pieces text) = text := by
  rw [← String.toList_inj, String.toList_intercalate, pieces, List.map_map,
    show String.toList ∘ String.ofList = id from funext fun _ => String.toList_ofList, List.map_id]
  exact List.intercalate_splitOn '\n'

/-- A text is its lines, joined, but for a newline at its end. -/
private lemma exists_eq_intercalate_splitLines (text : String) :
    ∃ trailing, text.toList = ("\n".intercalate (splitLines text)).toList ++ trailing := by
  have hPieces := congrArg String.toList (intercalate_pieces text)
  unfold splitLines
  split
  · next hLast =>
    have hConcat : (pieces text).dropLast ++ [""] = pieces text :=
      List.dropLast_append_getLast? "" hLast
    rcases List.eq_nil_or_concat' (pieces text).dropLast with hNil | ⟨front, last, hFront⟩
    · rw [hNil] at hConcat ⊢
      exact ⟨[], by rw [← hPieces, ← hConcat]; simp⟩
    · rw [hFront] at hConcat ⊢
      refine ⟨['\n'], ?_⟩
      rw [← hPieces, ← hConcat, intercalate_append_toList (front ++ [last]) (List.cons_ne_nil _ _),
        intercalate_append_toList front (List.cons_ne_nil _ _)]
      simp [linesAbove]
  · exact ⟨[], by rw [hPieces, List.append_nil]⟩

/-- **Lines are parts.** Consecutive lines of a text, joined, are a part of it, and the lines above
them stand before them. -/
theorem exists_eq_linesAbove_append {text : String} {front lines back : List String}
    (h : splitLines text = front ++ lines ++ back) (hLines : lines ≠ []) :
    ∃ after, text.toList = linesAbove front ++ ("\n".intercalate lines).toList ++ after := by
  obtain ⟨trailing, hText⟩ := exists_eq_intercalate_splitLines text
  obtain ⟨after, hAfter⟩ := exists_intercalate_append lines back hLines
  refine ⟨after ++ trailing, ?_⟩
  rw [hText, h, List.append_assoc, intercalate_append_toList front (by simp [hLines]), hAfter]
  simp

/-- There are as many newlines above as lines. -/
lemma count_linesAbove {lines : List String} (h : ∀ line ∈ lines, '\n' ∉ line.toList) :
    (linesAbove lines).count '\n' = lines.length := by
  induction lines with
  | nil => rfl
  | cons line rest ih =>
    have hLine : line.toList.count '\n' = 0 :=
      List.count_eq_zero.2 (h line List.mem_cons_self)
    have hRest := ih fun next hNext => h next (List.mem_cons_of_mem _ hNext)
    simp only [linesAbove, List.flatMap_cons, List.count_append, hLine, List.length_cons] at hRest ⊢
    rw [hRest]
    simp [Nat.add_comm]

/-- Joined lines have no more lines than were joined. -/
lemma lineCount_intercalate_le {lines : List String} (h : ∀ line ∈ lines, '\n' ∉ line.toList) :
    lineCount ("\n".intercalate lines) ≤ lines.length := by
  rcases List.eq_nil_or_concat' lines with rfl | ⟨front, last, rfl⟩
  · decide
  · have hCount : ("\n".intercalate (front ++ [last])).toList.count '\n' = front.length := by
      rw [intercalate_append_toList front (List.cons_ne_nil _ _), String.intercalate_singleton,
        List.count_append, count_linesAbove fun line hLine => h line (List.mem_append_left _ hLine),
        List.count_eq_zero.2 (h last (by simp)), Nat.add_zero]
    rcases List.eq_nil_or_concat' ("\n".intercalate (front ++ [last])).toList with hNil | hMore
    · rw [← String.ofList_toList (s := "\n".intercalate (front ++ [last])), hNil]
      exact Nat.zero_le _
    · obtain ⟨start, c, hLast⟩ := hMore
      have hLe : start.count '\n' ≤ front.length := by
        rw [← hCount, hLast, List.count_append]
        exact Nat.le_add_right _ _
      rw [← String.ofList_toList (s := "\n".intercalate (front ++ [last])), hLast,
        lineCount_of_concat, List.length_append]
      exact Nat.add_le_add_right hLe 1

/-- A part of a text ends on one of its lines. -/
lemma count_add_lineCount_le (before part after : List Char) (hPart : part ≠ []) :
    before.count '\n' + lineCount (String.ofList part) ≤
      lineCount (String.ofList (before ++ part ++ after)) := by
  obtain ⟨front, last, rfl⟩ := (List.eq_nil_or_concat' part).resolve_left hPart
  have hLines := count_lt_lineCount (before ++ front) after last
  rw [lineCount_of_concat]
  rw [List.count_append] at hLines
  have hAll : before ++ (front ++ [last]) ++ after = before ++ front ++ last :: after := by simp
  rw [hAll]
  omega

end Text

/-! ## Windows -/

namespace Run

/-- What is repeated of a run is its newest lines. -/
lemma exists_newest_overlap (budget : Budget) (run : Run) (next : String) :
    ∃ count, (run.overlap budget next).newest = run.newest.take count := by
  unfold overlap
  split
  · exact ⟨0, rfl⟩
  · exact ⟨_, rfl⟩

end Run

namespace Window

/-- The lines of a window are consecutive: they stand behind the lines passed and the lines of the
open run that come before them.

**Proof sketch.** Induction on the lines ahead. When a run is closed, the lines of it that are not
repeated are passed, and the next run starts behind them. -/
private lemma exists_append_of_mem_windows (budget : Budget) (firstLine : Nat)
    (lines : List String) :
    ∀ (passed : List String) (run : Run),
      ∀ window ∈ windows budget (firstLine + passed.length) run lines,
        window.lines ≠ [] ∧ ∃ front back,
          passed ++ run.newest.reverse ++ lines = front ++ window.lines ++ back ∧
          window.startLine = firstLine + front.length := by
  have hNonempty : ∀ run : Run, run.size ≠ 0 → run.newest.reverse ≠ [] := by
    intro run hSize hNil
    rw [List.reverse_eq_nil_iff] at hNil
    exact hSize (by rw [run.size_eq, hNil, List.length_nil])
  induction lines with
  | nil =>
    intro passed run window hMem
    unfold windows at hMem
    split at hMem
    · simp at hMem
    · next hSize =>
      rw [List.mem_singleton] at hMem
      subst hMem
      exact ⟨hNonempty run hSize, passed, [], rfl, rfl⟩
  | cons line rest ih =>
    intro passed run window hMem
    unfold windows at hMem
    split at hMem
    · next hFull =>
      rcases List.mem_cons.1 hMem with rfl | hMem
      · exact ⟨hNonempty run (size_ne_zero_of_isFull hFull), passed, line :: rest, rfl, rfl⟩
      · obtain ⟨count, hNewest⟩ := run.exists_newest_overlap budget line
        have hStart : firstLine + passed.length + run.size - (run.overlap budget line).size =
            firstLine + (passed ++ (run.newest.drop count).reverse).length := by
          rw [run.size_eq, (run.overlap budget line).size_eq, hNewest, List.length_append,
            List.length_reverse, List.length_drop, List.length_take]
          omega
        rw [hStart] at hMem
        obtain ⟨hLines, front, back, hAll, hNumber⟩ := ih _ _ window hMem
        refine ⟨hLines, front, back, ?_, hNumber⟩
        rw [← hAll]
        have hSplit : run.newest.reverse =
            (run.newest.drop count).reverse ++ (run.newest.take count).reverse := by
          rw [← List.reverse_append, List.take_append_drop]
        simp [Run.push, hNewest, hSplit]
    · obtain ⟨hLines, front, back, hAll, hNumber⟩ := ih passed (run.push line) window hMem
      refine ⟨hLines, front, back, ?_, hNumber⟩
      rw [← hAll]
      simp [Run.push]

/-- **Windows are consecutive lines.** The lines of a window are lines of the text that follow one
another, and the number of the window is that of the first. -/
theorem exists_append_of_mem_split {budget : Budget} {text : String} {firstLine : Nat}
    {window : Window} (h : window ∈ split budget text firstLine) :
    window.lines ≠ [] ∧ ∃ front back, Text.splitLines text = front ++ window.lines ++ back ∧
      window.startLine = firstLine + front.length := by
  obtain ⟨hLines, front, back, hAll, hStart⟩ :=
    exists_append_of_mem_windows budget firstLine (Text.splitLines text) [] {} window h
  exact ⟨hLines, front, back, by simpa using hAll, hStart⟩

/-- The lines of a window are among those of its text. -/
lemma endLine_lt_of_mem_split {budget : Budget} {text : String} {firstLine : Nat}
    {window : Window} (h : window ∈ split budget text firstLine) :
    firstLine ≤ window.startLine ∧ window.startLine ≤ window.endLine ∧
      window.endLine < firstLine + Text.lineCount text := by
  obtain ⟨hLines, front, back, hAll, hStart⟩ := exists_append_of_mem_split h
  have hPos := List.length_pos_iff.2 hLines
  have hCount : Text.lineCount text = front.length + window.lines.length + back.length := by
    rw [Text.lineCount, hAll, List.length_append, List.length_append]
  unfold endLine
  omega

end Window

/-! ## Regions -/

namespace Region

/-- The first byte of a region. -/
def start : Region → Nat
  | gap start _ => start
  | target t => t.node.startByte

/-- The byte behind the last of a region. -/
def stop : Region → Nat
  | gap _ stop => stop
  | target t => t.node.endByte

end Region

namespace Cutting

/-- **Regions are parts.** A region that is cut gives no chunk, or the chunks of a stretch that is
a part of the text, not empty and within the region.

**Proof sketch.** A target is cut out as it stands. A gap loses its leading blanks, so that the
stretch starts behind them, and its trailing blanks. -/
theorem exists_stretch_eq_of_region {cutting : Cutting} {region : Region} {chunks : List Chunk}
    (h : cutting.region region = .ok chunks) :
    chunks = [] ∨ ∃ before part after kind metadata,
      cutting.source.text.toList = before ++ part ++ after ∧ part ≠ [] ∧
      region.start ≤ utf8Len before ∧ utf8Len (before ++ part) ≤ region.stop ∧
      chunks = cutting.stretch (utf8Len before) (utf8Len (before ++ part)) (String.ofList part)
        kind metadata := by
  cases region with
  | gap start stop =>
    obtain ⟨text, hSlice, rfl⟩ := gap_eq_ok_iff.1 h
    dsimp only
    split
    · exact Or.inl rfl
    · next hKept =>
      obtain ⟨before, after, hAll, hStart, hStop⟩ := Text.toList_of_slice? hSlice
      obtain ⟨trailing, hTrailing, -⟩ := Text.exists_trim_append text.toList
      rw [not_or] at hKept
      refine Or.inr ⟨before ++ text.toList.takeWhile Text.isBlank, Text.trim text.toList,
        trailing ++ after, .block, cutting.plainMetadata, ?_, ?_, ?_, ?_, ?_⟩
      · rw [hAll]
        conv_lhs => rw [hTrailing]
        simp
      · intro hNil
        apply hKept.1
        rw [hNil]
        rfl
      · rw [utf8Len_append, hStart]
        exact Nat.le_add_right _ _
      · show _ ≤ stop
        rw [← hStop]
        conv_rhs => rw [hTrailing]
        simp only [utf8Len_append]
        omega
      · rw [utf8ByteSize_ofList, utf8ByteSize_ofList, ← hStart, ← utf8Len_append, ← utf8Len_append]
  | target t =>
    obtain ⟨text, hSlice, rfl⟩ := target_eq_ok_iff.1 h
    split
    · exact Or.inl rfl
    · next hBlank =>
      obtain ⟨before, after, hAll, hStart, hStop⟩ := Text.toList_of_slice? hSlice
      refine Or.inr ⟨before, text.toList, after, t.kind, cutting.metadata t text, hAll, ?_,
        Nat.le_of_eq hStart.symm, Nat.le_of_eq hStop, ?_⟩
      · intro hNil
        apply hBlank
        rw [Text.allBlank, hNil]
        rfl
      · rw [hStart, hStop, String.ofList_toList]

end Cutting

end CodeAtlas
