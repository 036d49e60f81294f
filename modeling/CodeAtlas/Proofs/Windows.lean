import Mathlib.Data.List.Basic
import CodeAtlas.Chunk.Window
import CodeAtlas.Proofs.Lines

/-!
# Windows keep to the budget and leave no line out

A window is closed before a line that would take it over the budget, and the next one is opened
with a tail that leaves room for that line. Hence only a window of a single line can exceed the
token limit, and none exceeds the line cap. Each window starts at the latest behind the one before
it, so every line is in some window.

## Main definitions

* `CodeAtlas.Run.Fits`, `CodeAtlas.Window.Fits` — an open run and a window keep to the budget.

## Main results

* `CodeAtlas.Window.fits_of_mem_split` — every window of a text keeps to the budget.
* `CodeAtlas.Window.exists_mem_split` — every line of a text is in one of its windows.
* `CodeAtlas.Window.newline_notMem_of_mem_split` — the lines of a window have no newline in them.
-/

set_option autoImplicit false

namespace CodeAtlas

/-! ## Joined lengths -/

namespace Run

/-- The sum of lengths does not depend on the direction. -/
private lemma foldr_length_reverse (lines : List String) (n : Nat) :
    lines.reverse.foldr (fun line length => line.length + length) n =
      lines.foldr (fun line length => line.length + length) n := by
  refine (List.reverse_perm lines).foldr_eq' ?_ n
  intro line _ other _ length
  exact Nat.add_left_comm other.length line.length length

/-- The joined length does not depend on the direction. -/
lemma joinedLength_reverse (lines : List String) :
    joinedLength lines.reverse = joinedLength lines := by
  unfold joinedLength
  rw [foldr_length_reverse, List.length_reverse]

/-- The joined length with one line more at the far end. -/
lemma joinedLength_concat (lines : List String) (line : String) :
    joinedLength (lines ++ [line]) =
      if lines.length = 0 then line.length else joinedLength lines + 1 + line.length := by
  have h := joinedLength_cons line lines.reverse
  rw [joinedLength_reverse, List.length_reverse] at h
  rw [← h, ← joinedLength_reverse]
  simp

/-- The joined length is the length of the joined lines. -/
lemma length_intercalate (lines : List String) :
    ("\n".intercalate lines).length = joinedLength lines := by
  induction lines with
  | nil => rfl
  | cons line rest ih =>
    rw [joinedLength_cons]
    cases rest with
    | nil => simp
    | cons next rest =>
      rw [String.intercalate_cons_cons, String.length_append, String.length_append, ih]
      have h : "\n".length = 1 := rfl
      rw [h, if_neg (by simp)]
      omega

/-! ## Runs -/

/-- A run that may be closed as a window: it has no more lines than a window may have, and no more
tokens unless it is a single line. -/
structure Fits (budget : Budget) (run : Run) : Prop where
  size_le : run.size ≤ Window.lineCap budget
  tokens_le : 1 < run.size → Text.tokensOfLength run.length ≤ budget.maxTokens

/-- A window may have at least one line. -/
lemma one_le_lineCap (budget : Budget) : 1 ≤ Window.lineCap budget := by
  unfold Window.lineCap
  omega

/-- The empty run fits. -/
private lemma fits_empty (budget : Budget) : Fits budget {} :=
  ⟨Nat.zero_le _, fun h => absurd h (by simp)⟩

/-- A run that is not full fits with the next line, too. -/
private lemma fits_push {budget : Budget} {run : Run} {next : String}
    (h : run.isFull budget next = false) : Fits budget (run.push next) := by
  have hCap := one_le_lineCap budget
  simp only [isFull, Bool.and_eq_false_iff, bne_eq_false_iff_eq, Bool.or_eq_false_iff,
    decide_eq_false_iff_not] at h
  refine ⟨?_, fun hSize => ?_⟩
  · show run.size + 1 ≤ _
    rcases h with h | ⟨-, h⟩ <;> omega
  · have hPos : 1 < run.size + 1 := hSize
    rcases h with h | ⟨h, -⟩
    · omega
    · exact Nat.le_of_not_lt h

/-- How many lines are repeated: no more than there is room for and than there are, and if there
are any beyond those in front, the next line fits behind all of them.

**Proof sketch.** Induction on the room. Each line that is repeated moves from the older lines to
the front, and the test it has passed is the claim for the case that it is the last one. -/
lemma repeated_spec (budget : Budget) (next : String) (room : Nat) :
    ∀ front older : List String,
      let count := repeated budget next room front.length (joinedLength front) older
      front.length ≤ count ∧ count ≤ front.length + room ∧ count ≤ (front ++ older).length ∧
        (front.length < count →
          Text.tokensOfLength (joinedLength ((front ++ older).take count) + 1 + next.length) ≤
            budget.maxTokens) := by
  induction room with
  | zero =>
    intro front older
    refine ⟨Nat.le_refl _, Nat.le_refl _, ?_, fun h => absurd h (Nat.lt_irrefl _)⟩
    simp [repeated]
  | succ room ih =>
    intro front older
    cases older with
    | nil =>
      refine ⟨Nat.le_refl _, Nat.le_add_right _ _, ?_, fun h => absurd h (Nat.lt_irrefl _)⟩
      simp [repeated]
    | cons line older =>
      simp only [repeated]
      rw [← joinedLength_concat]
      split
      · next hFits =>
        have hLength : (front ++ [line]).length = front.length + 1 := by simp
        have hAll : front ++ [line] ++ older = front ++ line :: older := by simp
        have hRest := ih (front ++ [line]) older
        rw [hLength, hAll] at hRest
        obtain ⟨hLow, hRoom, hAvailable, hTokens⟩ := hRest
        refine ⟨by omega, by omega, hAvailable, fun _ => ?_⟩
        rcases Nat.eq_or_lt_of_le hLow with hEq | hLt
        · -- the line is the last one to be repeated, and has passed the test itself
          rw [← hEq, ← hAll, ← hLength, List.take_left]
          exact hFits.2
        · exact hTokens hLt
      · exact ⟨Nat.le_refl _, Nat.le_add_right _ _, by simp, fun h => absurd h (Nat.lt_irrefl _)⟩

/-- A run repeats fewer lines than it has, and at most half of what a window may have. -/
lemma size_overlap_le (budget : Budget) (run : Run) (next : String) :
    (run.overlap budget next).size ≤ min (run.size - 1) (Window.lineCap budget / 2) := by
  unfold overlap
  split
  · exact Nat.zero_le _
  · have h := (repeated_spec budget next (run.overlapRoom budget) [] run.newest).2.1
    simp only [List.length_nil, Nat.zero_add] at h
    refine Nat.le_trans ?_ h
    exact List.length_take_le _ _

/-- The next line fits behind the lines that are repeated before it. -/
private lemma tokens_overlap_push_le (budget : Budget) (run : Run) (next : String)
    (h : 0 < (run.overlap budget next).size) :
    Text.tokensOfLength ((run.overlap budget next).length + 1 + next.length) ≤
      budget.maxTokens := by
  unfold overlap at h ⊢
  split at h
  · exact absurd h (Nat.lt_irrefl _)
  · next hOverlap =>
    rw [if_neg hOverlap]
    obtain ⟨-, -, -, hTokens⟩ := repeated_spec budget next (run.overlapRoom budget) [] run.newest
    refine hTokens (Nat.lt_of_lt_of_le h ?_)
    exact List.length_take_le _ _

/-- The run that follows a full one fits with the line that did not. -/
private lemma fits_overlap_push (budget : Budget) (run : Run) (next : String) :
    Fits budget ((run.overlap budget next).push next) := by
  have hCap := one_le_lineCap budget
  have hSize := size_overlap_le budget run next
  refine ⟨?_, fun hMany => ?_⟩
  · show (run.overlap budget next).size + 1 ≤ _
    omega
  · have hPos : 1 < (run.overlap budget next).size + 1 := hMany
    have hTokens := tokens_overlap_push_le budget run next (by omega)
    simp only [push]
    rw [if_neg (by omega)]
    exact hTokens

end Run

/-! ## Windows -/

namespace Window

/-- A window keeps to the budget: it has some lines, no more than the cap, and no more tokens than
allowed unless it is a single line. -/
structure Fits (budget : Budget) (window : Window) : Prop where
  lines_pos : 0 < window.lines.length
  lines_le : window.lines.length ≤ lineCap budget
  tokens_le : 1 < window.lines.length → Text.tokens window.content ≤ budget.maxTokens

/-- The tokens of a window are those of its run. -/
private lemma tokens_content_ofRun (start : Nat) (run : Run) :
    Text.tokens (ofRun start run).content = Text.tokensOfLength run.length := by
  rw [Text.tokens, content, Run.length_intercalate, ofRun, Run.joinedLength_reverse, run.length_eq]

/-- The window of a run has as many lines as the run. -/
lemma length_lines_ofRun (start : Nat) (run : Run) :
    (ofRun start run).lines.length = run.size := by
  rw [ofRun, List.length_reverse, run.size_eq]

/-- The window of a run that fits keeps to the budget. -/
private lemma fits_ofRun {budget : Budget} {run : Run} (start : Nat) (hRun : run.Fits budget)
    (hPos : run.size ≠ 0) : Fits budget (ofRun start run) := by
  refine ⟨?_, ?_, fun h => ?_⟩
  · rw [length_lines_ofRun]
    omega
  · rw [length_lines_ofRun]
    exact hRun.size_le
  · rw [length_lines_ofRun] at h
    rw [tokens_content_ofRun]
    exact hRun.tokens_le h

/-- A full run is not empty. -/
lemma size_ne_zero_of_isFull {budget : Budget} {run : Run} {next : String}
    (h : run.isFull budget next = true) : run.size ≠ 0 := by
  simp only [Run.isFull, Bool.and_eq_true, bne_iff_ne] at h
  exact h.1

/-- All windows keep to the budget if the open run does. -/
private lemma fits_of_mem_windows (budget : Budget) (lines : List String) :
    ∀ (start : Nat) (run : Run), run.Fits budget →
      ∀ window ∈ windows budget start run lines, Fits budget window := by
  induction lines with
  | nil =>
    intro start run hRun window hMem
    unfold windows at hMem
    split at hMem
    · simp at hMem
    · next hSize =>
      rw [List.mem_singleton] at hMem
      subst hMem
      exact fits_ofRun start hRun hSize
  | cons line rest ih =>
    intro start run hRun window hMem
    unfold windows at hMem
    split at hMem
    · next hFull =>
      rcases List.mem_cons.1 hMem with rfl | hMem
      · exact fits_ofRun start hRun (size_ne_zero_of_isFull hFull)
      · exact ih _ _ (Run.fits_overlap_push budget run line) window hMem
    · next hFull => exact ih _ _ (Run.fits_push (by simpa using hFull)) window hMem

/-- The lines of windows are lines of the open run or lines ahead.

**Proof sketch.** Induction on the lines ahead. When a run is closed, the next one starts with lines
of the run that was closed and the line that did not fit. -/
private lemma mem_of_mem_windows (budget : Budget) (lines : List String) :
    ∀ (start : Nat) (run : Run), ∀ window ∈ windows budget start run lines,
      ∀ line ∈ window.lines, line ∈ run.newest ∨ line ∈ lines := by
  induction lines with
  | nil =>
    intro start run window hMem line hLine
    unfold windows at hMem
    split at hMem
    · simp at hMem
    · rw [List.mem_singleton] at hMem
      subst hMem
      exact Or.inl (List.mem_reverse.1 hLine)
  | cons next rest ih =>
    intro start run window hMem line hLine
    unfold windows at hMem
    split at hMem
    · rcases List.mem_cons.1 hMem with rfl | hMem
      · exact Or.inl (List.mem_reverse.1 hLine)
      · rcases ih _ _ window hMem line hLine with h | h
        · rcases List.mem_cons.1 h with rfl | h
          · exact Or.inr List.mem_cons_self
          · -- what is repeated stems from the run before
            unfold Run.overlap at h
            split at h
            · simp at h
            · exact Or.inl (List.mem_of_mem_take h)
        · exact Or.inr (List.mem_cons_of_mem _ h)
    · rcases ih _ _ window hMem line hLine with h | h
      · rcases List.mem_cons.1 h with rfl | h
        · exact Or.inr List.mem_cons_self
        · exact Or.inl h
      · exact Or.inr (List.mem_cons_of_mem _ h)

/-- Every line from the start of the open run on is in some window.

**Proof sketch.** Induction on the lines ahead. If the run is full, its own lines are in the window
that is closed, and the next run starts at the latest right behind it, since it repeats fewer lines
than the run has. -/
private lemma exists_mem_windows (budget : Budget) (lines : List String) :
    ∀ (start : Nat) (run : Run) (n : Nat), start ≤ n → n < start + run.size + lines.length →
      ∃ window ∈ windows budget start run lines, window.startLine ≤ n ∧ n ≤ window.endLine := by
  have hClosed : ∀ (start : Nat) (run : Run) (n : Nat), start ≤ n → n < start + run.size →
      (ofRun start run).startLine ≤ n ∧ n ≤ (ofRun start run).endLine := by
    intro start run n hLow hHigh
    refine ⟨hLow, ?_⟩
    rw [endLine, length_lines_ofRun]
    show n ≤ start + run.size - 1
    omega
  induction lines with
  | nil =>
    intro start run n hLow hHigh
    rw [List.length_nil] at hHigh
    unfold windows
    rw [if_neg (by omega)]
    exact ⟨_, List.mem_singleton_self _, hClosed start run n hLow (by omega)⟩
  | cons line rest ih =>
    intro start run n hLow hHigh
    rw [List.length_cons] at hHigh
    unfold windows
    split
    · next hFull =>
      have hShared := Run.size_overlap_le budget run line
      have hSize := size_ne_zero_of_isFull hFull
      by_cases hHere : n < start + run.size
      · exact ⟨_, List.mem_cons_self, hClosed start run n hLow hHere⟩
      · obtain ⟨window, hMem, hIn⟩ := ih (start + run.size - (run.overlap budget line).size)
          ((run.overlap budget line).push line) n (by omega) (by
            show n < _ + ((run.overlap budget line).size + 1) + rest.length
            omega)
        exact ⟨window, List.mem_cons_of_mem _ hMem, hIn⟩
    · exact ih start (run.push line) n hLow (by
        show n < start + (run.size + 1) + rest.length
        omega)

/-! ## Windows of a text -/

/-- **Budget of windows.** Every window of a text keeps to the budget. -/
theorem fits_of_mem_split {budget : Budget} {text : String} {firstLine : Nat} {window : Window}
    (h : window ∈ split budget text firstLine) : Fits budget window :=
  fits_of_mem_windows budget _ _ _ (Run.fits_empty budget) window h

/-- **No line is left out.** Every line of a text is in one of its windows. -/
theorem exists_mem_split (budget : Budget) (text : String) (firstLine n : Nat)
    (hLow : firstLine ≤ n) (hHigh : n < firstLine + Text.lineCount text) :
    ∃ window ∈ split budget text firstLine, window.startLine ≤ n ∧ n ≤ window.endLine := by
  refine exists_mem_windows budget _ firstLine {} n hLow ?_
  show n < firstLine + 0 + _
  rw [Nat.add_zero]
  exact hHigh

/-- The lines of a window have no newline in them. -/
theorem newline_notMem_of_mem_split {budget : Budget} {text : String} {firstLine : Nat}
    {window : Window} (h : window ∈ split budget text firstLine) :
    ∀ line ∈ window.lines, '\n' ∉ line.toList := by
  intro line hLine
  rcases mem_of_mem_windows budget _ _ _ window h line hLine with hEmpty | hLines
  · simp at hEmpty
  · exact Text.newline_notMem_of_mem_splitLines hLines

end Window

end CodeAtlas
