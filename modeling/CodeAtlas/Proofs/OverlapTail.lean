import CodeAtlas.Proofs.Windows

/-!
# The lines that neighbouring windows share

Of a window that is closed, the next one repeats as many lines as it may. The lines of a tail may be
repeated if they are fewer than those of the window and at most half of what a window may have, if
they keep to the overlap budget, and if the next line still fits behind them. With a tail that may
be repeated every shorter one may be, since lines that are left out do not make the rest longer. So
there is a longest one, and going back line by line finds it.

## Main definitions

* `CodeAtlas.Run.lines` — the lines of a run, oldest first.
* `CodeAtlas.Run.MayRepeat` — the tails of a window that the next one may start with.
* `CodeAtlas.Run.grow`, `trim` — a tail that takes in older lines or loses them, as a test has it.

## Main results

* `CodeAtlas.Run.isSuffix_grow` — growing as long as a test is passed gives the longest tail that
  passes it.
* `CodeAtlas.Run.lines_overlap_eq_trim` — the overlap in two passes: back along the overlap budget,
  then forward until there is room for the next line.
* `CodeAtlas.Run.isLongest_overlap` — the overlap is the longest tail that may be repeated.
-/

set_option autoImplicit false

namespace CodeAtlas

namespace Run

/-- The lines of a run, oldest first. -/
def lines (run : Run) : List String := run.newest.reverse

/-- Lines keep to the overlap budget. -/
def WithinOverlap (budget : Budget) (tail : List String) : Prop :=
  Text.tokens ("\n".intercalate tail) ≤ budget.overlapTokens

/-- The next line fits behind lines, if there are any. -/
def LeavesRoom (budget : Budget) (next : String) (tail : List String) : Prop :=
  tail ≠ [] → Text.tokens ("\n".intercalate (tail ++ [next])) ≤ budget.maxTokens

/-- The tails of a window that the next one may start with: fewer lines than the window has and at
most half of the line limit, within the overlap budget, and with room for the next line. -/
structure MayRepeat (budget : Budget) (window : List String) (next : String)
    (tail : List String) : Prop where
  isSuffix : tail <:+ window
  length_le : tail.length ≤ min (window.length - 1) (budget.maxLines / 2)
  withinOverlap : WithinOverlap budget tail
  leavesRoom : LeavesRoom budget next tail

/-- Lines keep to the overlap budget and leave room for the next line. -/
def WithinBoth (budget : Budget) (next : String) (tail : List String) : Prop :=
  WithinOverlap budget tail ∧ LeavesRoom budget next tail

instance (budget : Budget) : DecidablePred (WithinOverlap budget) :=
  fun _ => inferInstanceAs (Decidable (_ ≤ _))

instance (budget : Budget) (next : String) : DecidablePred (LeavesRoom budget next) :=
  fun _ => inferInstanceAs (Decidable (_ → _))

instance (budget : Budget) (next : String) : DecidablePred (WithinBoth budget next) :=
  fun _ => inferInstanceAs (Decidable (_ ∧ _))

/-! ## Shorter tails -/

/-- Lines at the end are joined to no more than all lines. -/
lemma joinedLength_le_of_isSuffix {tail lines : List String} (h : tail <:+ lines) :
    joinedLength tail ≤ joinedLength lines := by
  obtain ⟨front, rfl⟩ := h
  induction front with
  | nil => exact Nat.le_refl _
  | cons line front ih =>
    rw [List.cons_append, joinedLength_cons]
    split
    · next hNone =>
      have hAll : front ++ tail = [] := List.length_eq_zero_iff.1 hNone
      rw [(List.append_eq_nil_iff.1 hAll).2]
      exact Nat.zero_le _
    · omega

/-- The overlap budget in terms of joined lengths. -/
lemma withinOverlap_iff {budget : Budget} {tail : List String} :
    WithinOverlap budget tail ↔
      Text.tokensOfLength (joinedLength tail) ≤ budget.overlapTokens := by
  rw [WithinOverlap, Text.tokens, length_intercalate]

/-- The room for the next line in terms of joined lengths. -/
lemma leavesRoom_iff {budget : Budget} {next : String} {tail : List String} (h : tail ≠ []) :
    LeavesRoom budget next tail ↔
      Text.tokensOfLength (joinedLength tail + 1 + next.length) ≤ budget.maxTokens := by
  have hLength : tail.length ≠ 0 := fun hZero => h (List.length_eq_zero_iff.1 hZero)
  rw [LeavesRoom, Text.tokens, length_intercalate, joinedLength_concat, if_neg hLength]
  exact ⟨fun hRoom => hRoom h, fun hRoom _ => hRoom⟩

/-- What is shorter keeps to the overlap budget, too. -/
lemma WithinOverlap.of_isSuffix {budget : Budget} {tail longer : List String}
    (h : WithinOverlap budget longer) (hSuffix : tail <:+ longer) : WithinOverlap budget tail := by
  rw [withinOverlap_iff] at h ⊢
  exact Nat.le_trans (Text.tokensOfLength_mono (joinedLength_le_of_isSuffix hSuffix)) h

/-- What is shorter leaves room for the next line, too. -/
private lemma LeavesRoom.of_isSuffix {budget : Budget} {next : String} {tail longer : List String}
    (h : LeavesRoom budget next longer) (hSuffix : tail <:+ longer) :
    LeavesRoom budget next tail := by
  intro hTail
  have hLonger : longer ≠ [] := by
    rintro rfl
    exact hTail (List.suffix_nil.1 hSuffix)
  have hLength := joinedLength_le_of_isSuffix hSuffix
  rw [leavesRoom_iff hLonger] at h
  refine (leavesRoom_iff hTail).2 (Nat.le_trans (Text.tokensOfLength_mono ?_) h) hTail
  omega

/-- What is shorter keeps to both, too. -/
private lemma WithinBoth.of_isSuffix {budget : Budget} {next : String} {tail longer : List String}
    (h : WithinBoth budget next longer) (hSuffix : tail <:+ longer) :
    WithinBoth budget next tail :=
  ⟨h.1.of_isSuffix hSuffix, h.2.of_isSuffix hSuffix⟩

/-! ## Growing and trimming -/

section Tests

variable (test : List String → Prop) [DecidablePred test]

/-- A tail that takes in the lines before it, given newest first, as long as there is room and it
passes a test. -/
def grow : (room : Nat) → (tail older : List String) → List String
  | 0, tail, _ => tail
  | _ + 1, tail, [] => tail
  | room + 1, tail, line :: older =>
    if test (line :: tail) then grow room (line :: tail) older else tail

/-- A tail that loses its oldest lines until it passes a test. -/
def trim : List String → List String
  | [] => []
  | line :: tail => if test (line :: tail) then line :: tail else trim tail

variable {test}

/-- A tail grows along the lines before it, by no more than there is room for, and goes on passing
the test. -/
lemma grow_spec (room : Nat) : ∀ tail older : List String, test tail →
    grow test room tail older <:+ older.reverse ++ tail ∧
    (grow test room tail older).length ≤ tail.length + room ∧ test (grow test room tail older) := by
  induction room with
  | zero =>
    intro tail older hTail
    exact ⟨List.suffix_append _ _, Nat.le_refl _, hTail⟩
  | succ room ih =>
    intro tail older hTail
    cases older with
    | nil => exact ⟨List.suffix_append _ _, Nat.le_add_right _ _, hTail⟩
    | cons line older =>
      rw [grow]
      split
      · next hLine =>
        obtain ⟨hSuffix, hLength, hTest⟩ := ih (line :: tail) older hLine
        refine ⟨by simpa using hSuffix, ?_, hTest⟩
        rw [List.length_cons] at hLength
        omega
      · exact ⟨List.suffix_append _ _, Nat.le_add_right _ _, hTail⟩

/-- **Growing as long as a test is passed gives the longest tail that passes it**, if with a tail
every shorter one passes the test.

**Proof sketch.** Induction on the room. Where a line fails the test, no tail with that line in it
passes, since it would be passed by the tail that starts at the line. -/
theorem isSuffix_grow (hTest : ∀ {tail longer}, test longer → tail <:+ longer → test tail)
    (room : Nat) : ∀ tail older other : List String, other <:+ older.reverse ++ tail →
      other.length ≤ tail.length + room → test other → other <:+ grow test room tail older := by
  induction room with
  | zero =>
    intro tail older other hOther hLength _
    exact List.suffix_of_suffix_length_le hOther (List.suffix_append _ _) hLength
  | succ room ih =>
    intro tail older other hOther hLength hPasses
    cases older with
    | nil => exact hOther
    | cons line older =>
      have hAll : (line :: older).reverse ++ tail = older.reverse ++ line :: tail := by simp
      rw [hAll] at hOther
      rw [grow]
      split
      · refine ih (line :: tail) older other hOther ?_ hPasses
        rw [List.length_cons]
        omega
      · next hFails =>
        have hShort : other.length ≤ tail.length := by
          by_contra hLong
          refine hFails (hTest hPasses (List.suffix_of_suffix_length_le
            (List.suffix_append _ _) hOther ?_))
          rw [List.length_cons]
          omega
        exact List.suffix_of_suffix_length_le hOther
          ((List.suffix_cons line tail).trans (List.suffix_append _ _)) hShort

/-- What is left after trimming passes the test, if nothing at all does. -/
private lemma trim_spec (hNil : test []) (tail : List String) :
    trim test tail <:+ tail ∧ test (trim test tail) := by
  induction tail with
  | nil => exact ⟨List.suffix_refl _, hNil⟩
  | cons line tail ih =>
    rw [trim]
    split
    · next hPasses => exact ⟨List.suffix_refl _, hPasses⟩
    · exact ⟨ih.1.trans (List.suffix_cons line tail), ih.2⟩

/-- Trimming stops at the longest tail that passes the test. -/
private lemma isSuffix_trim {tail other : List String} (hOther : other <:+ tail)
    (hPasses : test other) :
    other <:+ trim test tail := by
  induction tail with
  | nil => exact hOther
  | cons line tail ih =>
    rw [trim]
    split
    · exact hOther
    · next hFails =>
      rcases List.suffix_cons_iff.1 hOther with rfl | hShorter
      · exact absurd hPasses hFails
      · exact ih hShorter

end Tests

/-! ## The overlap -/

/-- The lines that are repeated grow as long as they keep to the overlap budget and leave room for
the next line.

**Proof sketch.** Induction on the room that is left. A line that passes both tests is taken, and
goes in front of the lines that are repeated; the first one that fails ends both. -/
private lemma reverse_take_repeated (budget : Budget) (next : String) (room : Nat) :
    ∀ front older : List String,
      ((front ++ older).take
        (repeated budget next room front.length (joinedLength front) older)).reverse =
      grow (WithinBoth budget next) room front.reverse older := by
  induction room with
  | zero =>
    intro front older
    simp [repeated, grow]
  | succ room ih =>
    intro front older
    cases older with
    | nil => simp [repeated, grow]
    | cons line older =>
      have hTail : line :: front.reverse = (front ++ [line]).reverse := by simp
      have hTest : WithinBoth budget next (line :: front.reverse) ↔
          Text.tokensOfLength (joinedLength (front ++ [line])) ≤ budget.overlapTokens ∧
            Text.tokensOfLength (joinedLength (front ++ [line]) + 1 + next.length) ≤
              budget.maxTokens := by
        rw [WithinBoth, withinOverlap_iff, leavesRoom_iff (List.cons_ne_nil _ _), hTail,
          joinedLength_reverse]
      simp only [repeated, grow]
      rw [← joinedLength_concat]
      split
      · next hPasses =>
        have hRest := ih (front ++ [line]) older
        rw [← hTail] at hRest
        rw [if_pos (hTest.2 hPasses), ← hRest]
        simp
      · next hFails =>
        rw [if_neg fun hPasses => hFails (hTest.1 hPasses)]
        simp

/-- The lines of the overlap, if there is an overlap budget. -/
private lemma lines_overlap {budget : Budget} (h : budget.overlapTokens ≠ 0) (run : Run)
    (next : String) : (run.overlap budget next).lines =
      grow (WithinBoth budget next) (run.overlapRoom budget) [] run.newest := by
  rw [overlap, if_neg h]
  exact reverse_take_repeated budget next (run.overlapRoom budget) [] run.newest

/-- The room for an overlap in terms of lines. -/
lemma overlapRoom_eq (budget : Budget) (run : Run) :
    run.overlapRoom budget = min (run.lines.length - 1) (budget.maxLines / 2) := by
  rw [overlapRoom, lines, List.length_reverse, ← run.size_eq, Window.lineCap]
  omega

/-- No lines at all may always be repeated. -/
lemma mayRepeat_nil (budget : Budget) (window : List String) (next : String) :
    MayRepeat budget window next [] where
  isSuffix := List.nil_suffix
  length_le := Nat.zero_le _
  withinOverlap := withinOverlap_iff.2 (Nat.zero_le _)
  leavesRoom h := absurd rfl h

/-- With an overlap budget, the overlap is the longest tail that may be repeated. -/
lemma mayRepeat_overlap {budget : Budget} (h : budget.overlapTokens ≠ 0) (run : Run)
    (next : String) : MayRepeat budget run.lines next (run.overlap budget next).lines ∧
      ∀ tail, MayRepeat budget run.lines next tail → tail <:+ (run.overlap budget next).lines := by
  have hNone := mayRepeat_nil budget run.lines next
  rw [lines_overlap h]
  have hTest : WithinBoth budget next [] := ⟨hNone.withinOverlap, hNone.leavesRoom⟩
  obtain ⟨hSuffix, hLength, hPasses⟩ := grow_spec (run.overlapRoom budget) [] run.newest hTest
  rw [List.append_nil] at hSuffix
  rw [List.length_nil, Nat.zero_add] at hLength
  refine ⟨⟨hSuffix, hLength.trans_eq (overlapRoom_eq budget run), hPasses.1, hPasses.2⟩,
    fun tail hTail => ?_⟩
  refine isSuffix_grow WithinBoth.of_isSuffix _ _ _ _ ?_ ?_
    ⟨hTail.withinOverlap, hTail.leavesRoom⟩
  · rw [List.append_nil]
    exact hTail.isSuffix
  · rw [List.length_nil, Nat.zero_add, overlapRoom_eq]
    exact hTail.length_le

/-- **The overlap in two passes.** Going back from the newest line as long as the overlap budget and
the room allow, and then leaving out the oldest lines until the next line fits, gives the same lines
as the one pass that looks at both.

**Proof sketch.** What two passes give may be repeated, so it is no longer than the overlap. The
overlap is among the tails that both passes choose the longest of. -/
theorem lines_overlap_eq_trim {budget : Budget} (h : budget.overlapTokens ≠ 0) (run : Run)
    (next : String) : (run.overlap budget next).lines =
      trim (LeavesRoom budget next)
        (grow (WithinOverlap budget) (run.overlapRoom budget) [] run.newest) := by
  obtain ⟨hOverlap, hLongest⟩ := mayRepeat_overlap h run next
  have hNone := mayRepeat_nil budget run.lines next
  obtain ⟨hGrown, hLength, hWithin⟩ :=
    grow_spec (run.overlapRoom budget) [] run.newest hNone.withinOverlap
  obtain ⟨hTrimmed, hLeaves⟩ := trim_spec hNone.leavesRoom
    (grow (WithinOverlap budget) (run.overlapRoom budget) [] run.newest)
  rw [List.append_nil] at hGrown
  rw [List.length_nil, Nat.zero_add] at hLength
  have hBack : (run.overlap budget next).lines <:+
      grow (WithinOverlap budget) (run.overlapRoom budget) [] run.newest := by
    refine isSuffix_grow WithinOverlap.of_isSuffix _ _ _ _ ?_ ?_ hOverlap.withinOverlap
    · rw [List.append_nil]
      exact hOverlap.isSuffix
    · rw [List.length_nil, Nat.zero_add, overlapRoom_eq]
      exact hOverlap.length_le
  have hForth : MayRepeat budget run.lines next (trim (LeavesRoom budget next)
      (grow (WithinOverlap budget) (run.overlapRoom budget) [] run.newest)) := by
    refine ⟨hTrimmed.trans hGrown, ?_, hWithin.of_isSuffix hTrimmed, hLeaves⟩
    rw [← overlapRoom_eq]
    exact Nat.le_trans hTrimmed.length_le hLength
  have hShorter := (isSuffix_trim hBack hOverlap.leavesRoom).length_le
  exact ((hLongest _ hForth).eq_of_length_le hShorter).symm

/-- **The overlap is the longest tail that may be repeated.** With an overlap budget, the lines of a
window that the next one repeats before a line may be repeated, and every tail that may be repeated
is a tail of them, no lines at all among these. Without an overlap budget no line is repeated.

**Proof sketch.** The overlap is what grows line by line from the end of the window as long as the
lines may be repeated (`mayRepeat_overlap`); a longer tail may not be repeated if a shorter one may
not. -/
theorem isLongest_overlap (budget : Budget) (run : Run) (next : String) :
    (0 < budget.overlapTokens →
      MayRepeat budget run.lines next (run.overlap budget next).lines ∧
      (∀ tail, MayRepeat budget run.lines next tail →
        tail <:+ (run.overlap budget next).lines) ∧
      MayRepeat budget run.lines next []) ∧
    (budget.overlapTokens = 0 → (run.overlap budget next).lines = []) := by
  refine ⟨fun hSome => ?_, fun hNone => ?_⟩
  · obtain ⟨hOverlap, hLongest⟩ := mayRepeat_overlap (Nat.ne_of_gt hSome) run next
    exact ⟨hOverlap, hLongest, mayRepeat_nil budget run.lines next⟩
  · rw [overlap, if_pos hNone]
    rfl

/-- Of four lines the last two are repeated, one of them blank, since a third one would take them
over an overlap budget of one token. -/
theorem isLongest_overlap_blank :
    (0 < (1 : Nat)) ∧ ∀ tail,
      MayRepeat { overlapTokens := 1 } ["aaaa", "bbbb", "cc", ""] "dd" tail → tail <:+ ["cc", ""] :=
  ⟨by decide, ((isLongest_overlap { overlapTokens := 1 }
    (ofNewest ["", "cc", "bbbb", "aaaa"]) "dd").1 (by decide)).2.1⟩

end Run

end CodeAtlas
