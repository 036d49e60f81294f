import Mathlib.Data.List.Basic
import Mathlib.Data.String.Basic
import CodeAtlas.Text.Lines
import CodeAtlas.Text.Slice

/-!
# Line numbers and slices

The number of a line can be had in two ways: by looking up a byte offset among the line starts,
and by counting the lines of a part of the text. Both come down to counting newlines, so they
agree on every part of a text.

## Main results

* `CodeAtlas.Text.lineCount_of_concat` — a text that does not end in its last newline has one
  line more than newlines before its last character.
* `CodeAtlas.Source.lineAt_eq_count` — the line of a byte is one more than the newlines before its
  character.
* `CodeAtlas.Source.lineSpan_eq` — the span of a part starts behind the newlines before it, and is
  as long as the part has lines.
* `CodeAtlas.Text.exists_of_slice?` — a character between two offsets is a character of their
  slice.

## Implementation notes

A part of a text is given by the characters before it, in it and behind it, and the size of a list
of characters in bytes is `String.utf8Len`.
-/

set_option autoImplicit false

namespace CodeAtlas

open String (utf8Len utf8Len_append utf8Len_cons utf8Len_nil utf8Len_toList utf8ByteSize_ofList)

namespace Text

/-! ## Pieces between newlines -/

/-- No piece between separators holds a separator. -/
lemma notMem_of_mem_splitOn (separator : Char) (text : List Char) :
    ∀ piece ∈ text.splitOn separator, separator ∉ piece := by
  induction text with
  | nil => simp
  | cons c rest ih =>
    intro piece hPiece
    rw [List.splitOn_cons_eq_if_modifyHead] at hPiece
    split at hPiece
    · rcases List.mem_cons.1 hPiece with rfl | hPiece
      · exact List.not_mem_nil
      · exact ih piece hPiece
    · next hc =>
      obtain ⟨first, others, hSplit⟩ :=
        List.exists_cons_of_ne_nil (List.splitOn_ne_nil separator rest)
      rw [hSplit, List.modifyHead_cons] at hPiece
      rw [hSplit] at ih
      rcases List.mem_cons.1 hPiece with rfl | hPiece
      · have hFirst := ih first List.mem_cons_self
        have hOther : separator ≠ c := fun h => hc (by simp [← h])
        simpa [hOther] using hFirst
      · exact ih piece (List.mem_cons_of_mem _ hPiece)

/-- There is one more piece than newlines. -/
private lemma length_splitOn_newline (text : List Char) :
    (text.splitOn '\n').length = text.count '\n' + 1 := by
  induction text with
  | nil => simp
  | cons c rest ih =>
    rw [List.splitOn_cons_eq_if_modifyHead, List.count_cons]
    split
    · rw [List.length_cons, ih]
    · rw [List.length_modifyHead, ih, Nat.add_zero]

/-- The last piece of a text that ends in another character than a newline is not empty. -/
lemma getLast?_splitOn_concat {c : Char} (hc : c ≠ '\n') (text : List Char) :
    ((text ++ [c]).splitOn '\n').getLast? ≠ some [] := by
  induction text with
  | nil =>
    rw [List.nil_append, List.splitOn_eq_singleton (by simpa using hc.symm)]
    simp
  | cons d rest ih =>
    obtain ⟨first, others, hSplit⟩ :=
      List.exists_cons_of_ne_nil (List.splitOn_ne_nil '\n' (rest ++ [c]))
    rw [List.cons_append, List.splitOn_cons_eq_if_modifyHead, hSplit]
    rw [hSplit] at ih
    split
    · rwa [List.getLast?_cons_cons]
    · rw [List.modifyHead_cons]
      cases others with
      | nil => simp
      | cons second others =>
        rw [List.getLast?_cons_cons] at ih ⊢
        exact ih

/-- The lines of a text are its pieces, but for one that may be missing at the end. -/
lemma splitLines_isPrefix (text : String) : splitLines text <+: pieces text := by
  unfold splitLines
  split
  · exact List.dropLast_prefix _
  · exact List.prefix_refl _

/-- Lines have no newline in them. -/
lemma newline_notMem_of_mem_splitLines {text line : String} (h : line ∈ splitLines text) :
    '\n' ∉ line.toList := by
  obtain ⟨piece, hMem, rfl⟩ := List.mem_map.1 ((splitLines_isPrefix text).subset h)
  rw [String.toList_ofList]
  exact notMem_of_mem_splitOn _ _ piece hMem

/-- A text has as many lines as it has newlines before its last character, and one more.

**Proof sketch.** There is one piece more than newlines. If the last character is a newline, it is
counted and the last piece is empty and dropped; otherwise the last piece is not empty and stays. -/
theorem lineCount_of_concat (text : List Char) (c : Char) :
    lineCount (String.ofList (text ++ [c])) = text.count '\n' + 1 := by
  have hLast : (pieces (String.ofList (text ++ [c]))).getLast? =
      ((text ++ [c]).splitOn '\n').getLast?.map String.ofList := by
    rw [pieces, String.toList_ofList, List.getLast?_map]
  have hLength : (pieces (String.ofList (text ++ [c]))).length =
      (text ++ [c]).count '\n' + 1 := by
    rw [pieces, String.toList_ofList, List.length_map, length_splitOn_newline]
  unfold lineCount splitLines
  by_cases hc : c = '\n'
  · subst hc
    have hEmpty : (pieces (String.ofList (text ++ ['\n']))).getLast? = some "" := by
      rw [hLast, List.splitOn_append_cons_self, List.splitOn_nil, List.getLast?_concat]
      rfl
    rw [if_pos hEmpty, List.length_dropLast, hLength]
    simp
  · have hNonempty : (pieces (String.ofList (text ++ [c]))).getLast? ≠ some "" := by
      rw [hLast]
      intro h
      obtain ⟨piece, hPiece, hNil⟩ := Option.map_eq_some_iff.1 h
      rw [String.ofList_eq_empty_iff] at hNil
      exact getLast?_splitOn_concat hc text (hNil ▸ hPiece)
    rw [if_neg hNonempty, hLength]
    simp [hc]

/-! ## Line starts -/

/-- Behind newlines, lines start behind the first byte of the text. -/
lemma lt_of_mem_startsAfterNewlines (text : List Char) :
    ∀ (offset start : Nat), start ∈ startsAfterNewlines offset text → offset < start := by
  induction text with
  | nil =>
    intro offset start h
    simp [startsAfterNewlines] at h
  | cons c rest ih =>
    intro offset start h
    have hSize := c.utf8Size_pos
    simp only [startsAfterNewlines] at h
    split at h
    · rcases List.mem_cons.1 h with rfl | h
      · omega
      · have := ih _ _ h
        omega
    · have := ih _ _ h
      omega

/-- Up to a byte of the character behind `front`, as many lines start anew as there are newlines
in `front`.

**Proof sketch.** Induction on `front`. A newline in front counts, as its line starts at or before
the byte. No line that starts behind the character of the byte counts. -/
private lemma countP_startsAfterNewlines (front rest : List Char) :
    ∀ offset byte : Nat, offset + utf8Len front ≤ byte →
      (∀ c ∈ rest.head?, byte < offset + utf8Len front + c.utf8Size) →
      (startsAfterNewlines offset (front ++ rest)).countP (· ≤ byte) = front.count '\n' := by
  induction front with
  | nil =>
    intro offset byte hLow hHigh
    rw [List.nil_append, List.count_nil, List.countP_eq_zero]
    intro start hStart
    cases rest with
    | nil => simp [startsAfterNewlines] at hStart
    | cons c rest =>
      have hByte := hHigh c rfl
      rw [utf8Len_nil] at hByte
      have hBehind : offset + c.utf8Size ≤ start := by
        simp only [startsAfterNewlines] at hStart
        split at hStart
        · rcases List.mem_cons.1 hStart with rfl | hStart
          · omega
          · exact Nat.le_of_lt (lt_of_mem_startsAfterNewlines _ _ _ hStart)
        · exact Nat.le_of_lt (lt_of_mem_startsAfterNewlines _ _ _ hStart)
      simp only [decide_eq_true_eq]
      omega
  | cons d front ih =>
    intro offset byte hLow hHigh
    rw [utf8Len_cons] at hLow hHigh
    have hRest := ih (offset + d.utf8Size) byte (by omega)
      (fun c hc => by have := hHigh c hc; omega)
    rw [List.cons_append, List.count_cons]
    simp only [startsAfterNewlines]
    by_cases hd : d = '\n'
    · rw [if_pos hd, List.countP_cons, hRest]
      simp only [decide_eq_true_eq, hd, beq_self_eq_true, if_true]
      rw [if_pos]
      rw [hd] at hLow
      omega
    · rw [if_neg hd, hRest]
      simp [hd]

end Text

/-! ## Line numbers -/

namespace Source

/-- **The line of a byte.** A byte of the character behind `front` is on the line with as many
newlines before it as `front` has. -/
theorem lineAt_eq_count (source : Source) (front rest : List Char) {byte : Nat}
    (hText : source.text.toList = front ++ rest) (hLow : utf8Len front ≤ byte)
    (hHigh : ∀ c ∈ rest.head?, byte < utf8Len front + c.utf8Size) :
    source.lineAt byte = front.count '\n' + 1 := by
  have hCount := Text.countP_startsAfterNewlines front rest 0 byte (by omega)
    (fun c hc => by have := hHigh c hc; omega)
  rw [lineAt, source.lineStarts_eq, Text.lineStarts, hText, List.countP_cons, hCount]
  simp

/-- The first byte behind some characters is on the line with as many newlines before it as they
have. -/
lemma lineAt_utf8Len (source : Source) {front rest : List Char}
    (hText : source.text.toList = front ++ rest) :
    source.lineAt (utf8Len front) = front.count '\n' + 1 := by
  refine source.lineAt_eq_count front rest hText (Nat.le_refl _) fun c _ => ?_
  have := c.utf8Size_pos
  omega

/-- **The lines of a part.** The span of a part starts on the line behind the newlines before it,
and has as many lines as the part.

**Proof sketch.** The line at the first byte of the part is told by the newlines before it. The last
byte is one of the last character, and the line there is told by the newlines before that character
(`lineAt_eq_count`), which are those that its lines are counted by. -/
theorem lineSpan_eq (source : Source) {before part after : List Char}
    (hText : source.text.toList = before ++ part ++ after) (hPart : part ≠ []) :
    source.lineSpan (utf8Len before) (utf8Len (before ++ part)) =
      (before.count '\n' + 1, before.count '\n' + Text.lineCount (String.ofList part)) := by
  obtain ⟨front, last, rfl⟩ := (List.eq_nil_or_concat' part).resolve_left hPart
  have hSize := last.utf8Size_pos
  have hFirst : source.lineAt (utf8Len before) = before.count '\n' + 1 :=
    source.lineAt_utf8Len (hText.trans (List.append_assoc ..))
  have hLast : source.lineAt (max (utf8Len (before ++ (front ++ [last])) - 1) (utf8Len before)) =
      (before ++ front).count '\n' + 1 := by
    refine source.lineAt_eq_count (before ++ front) (last :: after) ?_ ?_ ?_
    · rw [hText]
      simp
    · simp only [utf8Len_append, utf8Len_cons, utf8Len_nil]
      omega
    · intro c hc
      rw [List.head?_cons, Option.mem_some_iff] at hc
      subst hc
      simp only [utf8Len_append, utf8Len_cons, utf8Len_nil]
      omega
  rw [lineSpan, hFirst, hLast, Text.lineCount_of_concat, List.count_append]
  rfl

end Source

/-! ## Slices -/

namespace Text

/-- A slice is a part of the characters of the text. -/
lemma toList_of_slice? {text part : String} {start stop : Nat}
    (h : slice? text start stop = some part) :
    ∃ before after, text.toList = before ++ part.toList ++ after ∧ utf8Len before = start ∧
      utf8Len (before ++ part.toList) = stop := by
  obtain ⟨before, after, rfl, rfl, rfl⟩ := (slice?_eq_some_iff text start stop part).1 h
  refine ⟨before.toList, after.toList, ?_, ?_, ?_⟩
  · rw [String.toList_append, String.toList_append]
  · exact utf8Len_toList before
  · rw [← String.toList_append]
    exact utf8Len_toList _

/-- Of two ways to take a list of characters apart, the one with fewer bytes in front has the
shorter front. -/
private lemma exists_append_of_utf8Len_le {before after front rest : List Char}
    (h : before ++ after = front ++ rest) (hLe : utf8Len before ≤ utf8Len front) :
    ∃ middle, front = before ++ middle ∧ after = middle ++ rest := by
  rcases List.append_eq_append_iff.1 h with ⟨middle, hFront, hAfter⟩ | ⟨middle, hBefore, hRest⟩
  · exact ⟨middle, hFront, hAfter⟩
  · -- the part in between has no bytes, so it is empty
    rw [hBefore, utf8Len_append] at hLe
    have hNil : middle = [] := String.utf8Len_eq_zero.1 (by omega)
    subst hNil
    exact ⟨[], by simpa using hBefore.symm, by simpa using hRest.symm⟩

/-- A character that starts between two offsets stands in their slice.

**Proof sketch.** The text is divided around the slice and around the character. As the character
starts no earlier than the slice and before its end, the second division lies within the slice. -/
theorem exists_of_slice? {text part : String} {start stop : Nat}
    (hSlice : slice? text start stop = some part) {front rest : List Char} {c : Char}
    (hText : text.toList = front ++ c :: rest) (hLow : start ≤ utf8Len front)
    (hHigh : utf8Len front < stop) :
    ∃ before middle tail after, text.toList = before ++ part.toList ++ after ∧
      utf8Len before = start ∧ utf8Len (before ++ part.toList) = stop ∧
      front = before ++ middle ∧ part.toList = middle ++ c :: tail := by
  obtain ⟨before, after, hAll, rfl, rfl⟩ := toList_of_slice? hSlice
  have hEq : before ++ (part.toList ++ after) = front ++ c :: rest := by
    rw [← hText, hAll, List.append_assoc]
  obtain ⟨middle, hFront, hPart⟩ := exists_append_of_utf8Len_le hEq hLow
  rcases List.append_eq_append_iff.1 hPart with ⟨tail, hMiddle, -⟩ | ⟨tail, hPartEq, hTail⟩
  · rw [hFront, hMiddle] at hHigh
    simp only [utf8Len_append] at hHigh
    omega
  · cases tail with
    | nil =>
      rw [List.append_nil] at hPartEq
      rw [hFront, hPartEq] at hHigh
      exact absurd hHigh (Nat.lt_irrefl _)
    | cons d tail =>
      rw [List.cons_append, List.cons.injEq] at hTail
      refine ⟨before, middle, tail, after, hAll, rfl, rfl, hFront, ?_⟩
      rw [hPartEq, hTail.1]

end Text

end CodeAtlas
