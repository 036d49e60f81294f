/-!
# Slices by byte offset

Parse trees point into a text by UTF-8 byte offsets, and a tree may belong to another text, so a
slice exists only where both ends are in bounds, in order and on character boundaries.

## Main definitions

* `CodeAtlas.Text.slice?` — the text between two byte offsets.

## Main results

* `CodeAtlas.Text.slice?_isSome_iff` — a slice exists exactly on ordered boundaries.
* `CodeAtlas.Text.slice?_eq_some_iff` — a slice is a part of the text that starts and ends at its
  offsets.
-/

set_option autoImplicit false

namespace CodeAtlas

namespace Text

/-- Whether a byte offset lies on a character boundary of the text, its end included. -/
def isBoundary (text : String) (offset : Nat) : Bool :=
  String.Pos.Raw.isValid text ⟨offset⟩

/-- The text from byte `start` up to byte `stop`, if these are boundaries in this order. -/
def slice? (text : String) (start stop : Nat) : Option String :=
  if h : start ≤ stop ∧ isBoundary text start ∧ isBoundary text stop then
    some (text.extract ⟨⟨start⟩, String.Pos.Raw.isValid_eq_true_iff.1 h.2.1⟩
      ⟨⟨stop⟩, String.Pos.Raw.isValid_eq_true_iff.1 h.2.2⟩)
  else none

/-- A slice exists exactly between ordered character boundaries. -/
theorem slice?_isSome_iff (text : String) (start stop : Nat) :
    (slice? text start stop).isSome ↔
      start ≤ stop ∧ isBoundary text start ∧ isBoundary text stop := by
  unfold slice?
  split <;> simp_all

/-- A boundary is where a text can be taken apart. -/
theorem isBoundary_iff (text : String) (offset : Nat) :
    isBoundary text offset ↔ ∃ before after, text = before ++ after ∧
      before.utf8ByteSize = offset := by
  rw [isBoundary, String.Pos.Raw.isValid_eq_true_iff, String.Pos.Raw.isValid_iff_exists_append]
  constructor
  · rintro ⟨before, after, rfl, h⟩
    exact ⟨before, after, rfl, (congrArg String.Pos.Raw.byteIdx h).symm⟩
  · rintro ⟨before, after, rfl, rfl⟩
    exact ⟨before, after, rfl, rfl⟩

/-- The bytes up to an inner offset, followed by the bytes from there on, are all bytes. -/
private theorem extract_append_extract_of_le (bytes : ByteArray) {start stop : Nat}
    (h : start ≤ stop) :
    bytes.extract 0 start ++ bytes.extract start stop = bytes.extract 0 stop := by
  rw [ByteArray.extract_append_extract, Nat.min_eq_left (Nat.zero_le _), Nat.max_eq_right h]

/-- **Slices are parts.** A slice is a part of the text, with the bytes up to its start before it
and the bytes from its end on behind it. -/
theorem slice?_eq_some_iff (text : String) (start stop : Nat) (part : String) :
    slice? text start stop = some part ↔
      ∃ before after, text = before ++ part ++ after ∧ before.utf8ByteSize = start ∧
        (before ++ part).utf8ByteSize = stop := by
  constructor
  · intro h
    have hSome := (slice?_isSome_iff text start stop).1 (by rw [h]; rfl)
    obtain ⟨before, _, hStart, hBefore⟩ := (isBoundary_iff text start).1 hSome.2.1
    obtain ⟨upTo, after, hStop, hUpTo⟩ := (isBoundary_iff text stop).1 hSome.2.2
    have hPart : part.toByteArray = text.toByteArray.extract start stop := by
      rw [slice?, dif_pos hSome] at h
      rw [← Option.some.inj h]
      rfl
    have hUpToEq : upTo = before ++ part := by
      apply String.toByteArray_inj.1
      have hLeft : text.toByteArray.extract 0 start = before.toByteArray := by
        rw [hStart, String.toByteArray_append]
        exact ByteArray.extract_append_eq_left (by rw [String.size_toByteArray, hBefore])
      have hRight : text.toByteArray.extract 0 stop = upTo.toByteArray := by
        rw [hStop, String.toByteArray_append]
        exact ByteArray.extract_append_eq_left (by rw [String.size_toByteArray, hUpTo])
      rw [String.toByteArray_append, ← hRight, ← hLeft, hPart,
        extract_append_extract_of_le _ hSome.1]
    exact ⟨before, after, by rw [hStop, hUpToEq], hBefore, by rw [← hUpToEq, hUpTo]⟩
  · rintro ⟨before, after, rfl, rfl, rfl⟩
    have hSome : before.utf8ByteSize ≤ (before ++ part).utf8ByteSize ∧
        isBoundary (before ++ part ++ after) before.utf8ByteSize ∧
        isBoundary (before ++ part ++ after) (before ++ part).utf8ByteSize := by
      refine ⟨by rw [String.utf8ByteSize_append]; omega, ?_, ?_⟩
      · exact (isBoundary_iff _ _).2 ⟨before, part ++ after, String.append_assoc .., rfl⟩
      · exact (isBoundary_iff _ _).2 ⟨before ++ part, after, rfl, rfl⟩
    rw [slice?, dif_pos hSome]
    congr 1
    apply String.toByteArray_inj.1
    show (before ++ part ++ after).toByteArray.extract before.utf8ByteSize
      (before ++ part).utf8ByteSize = part.toByteArray
    rw [String.append_assoc, String.toByteArray_append, String.toByteArray_append,
      String.utf8ByteSize_append, ← String.size_toByteArray, ← String.size_toByteArray]
    have h := @ByteArray.extract_append_size_add before.toByteArray
      (part.toByteArray ++ after.toByteArray) 0 part.toByteArray.size
    rw [Nat.add_zero] at h
    rw [h]
    exact ByteArray.extract_append_eq_left rfl

end Text

end CodeAtlas
