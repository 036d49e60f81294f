import Mathlib.Data.List.Basic
import Mathlib.Data.String.Basic
import CodeAtlas.Proofs.Shingles

/-!
# The numbers of lines in a file and in its parts

A line can be numbered in three ways: by a search for a byte offset among the line starts, by
counting newline bytes, and by counting the lines of a part of the text. The first two agree at
every offset, also in the middle of a character, since no other character has the byte of a newline
in it. The third agrees with them on every part, so that windows that are cut out of a part are on
the lines of the file on which their text stands.

## Main definitions

* `CodeAtlas.Text.newlinesBefore` — the newline bytes of a text before an offset.
* `CodeAtlas.Source.search`, `CodeAtlas.Source.lineFound` — a binary search among increasing
  numbers, and the line that it tells.
* `CodeAtlas.Source.lineWithin` — what stands on a line between two offsets.
* `CodeAtlas.Window.Numbered` — windows are numbered like the file.

## Main results

* `CodeAtlas.Source.lineAt_eq_newlinesBefore` — the line of an offset is one more than the newline
  bytes before it.
* `CodeAtlas.Source.lineFound_eq_lineAt` — a binary search tells the line of an offset.
* `CodeAtlas.Source.lineWithin_add` — the lines of a part are what stands on the lines of the file
  within it.
* `CodeAtlas.Window.numbered_split` — the windows of a part are numbered like the file.
* `CodeAtlas.Cutting.numbered_stretch` — all of this for the slices that a file is cut into.
-/

set_option autoImplicit false

namespace CodeAtlas

open String (utf8EncodeChar utf8Len utf8Len_append utf8Len_cons utf8Len_nil)

/-! ## Newline bytes -/

namespace Text

/-- The number of newlines among the bytes of a text before an offset. -/
def newlinesBefore (text : String) (offset : Nat) : Nat :=
  (text.toUTF8.data.toList.take offset).count 0x0a

/-- Only the newline has the byte of a newline in it. -/
lemma newline_notMem_utf8EncodeChar {c : Char} (hc : c ≠ '\n') : 0x0a ∉ utf8EncodeChar c := by
  have hCode : c.val.toNat ≠ 10 := fun h => hc (Char.ext (UInt32.toNat_inj.1 h))
  have hOther : ∀ n : Nat, n % 256 ≠ 10 → (0x0a : UInt8) ≠ UInt8.ofNat n := by
    intro n hn hEq
    apply hn
    have hNat := congrArg UInt8.toNat hEq
    simpa using hNat.symm
  -- a byte is the code of the character, or it has its highest bit set
  unfold utf8EncodeChar
  dsimp only
  split_ifs <;> simp only [List.mem_cons, List.not_mem_nil, or_false, not_or]
  · exact hOther _ (by omega)
  · exact ⟨hOther _ (by omega), hOther _ (by omega)⟩
  · exact ⟨hOther _ (by omega), hOther _ (by omega), hOther _ (by omega)⟩
  · exact ⟨hOther _ (by omega), hOther _ (by omega), hOther _ (by omega), hOther _ (by omega)⟩

/-- The bytes of a text are those of its characters. -/
private lemma data_toUTF8 (text : String) :
    text.toUTF8.data.toList = text.toList.flatMap utf8EncodeChar := by
  rw [String.toUTF8_eq_toByteArray, ← String.utf8Encode_toList, List.utf8Encode,
    List.data_toByteArray]

/-- Characters have as many newline bytes as newlines. -/
private lemma count_flatMap_utf8EncodeChar (text : List Char) :
    (text.flatMap utf8EncodeChar).count 0x0a = text.count '\n' := by
  induction text with
  | nil => rfl
  | cons c rest ih =>
    rw [List.flatMap_cons, List.count_append, ih, List.count_cons]
    by_cases hc : c = '\n'
    · subst hc
      simp [utf8EncodeChar, Nat.add_comm]
    · rw [List.count_eq_zero.2 (newline_notMem_utf8EncodeChar hc)]
      simp [hc]

/-- Characters have as many bytes as their sizes add up to. -/
private lemma length_flatMap_utf8EncodeChar (text : List Char) :
    (text.flatMap utf8EncodeChar).length = utf8Len text := by
  induction text with
  | nil => rfl
  | cons c rest ih =>
    rw [List.flatMap_cons, List.length_append, ih, String.length_utf8EncodeChar, utf8Len_cons,
      Nat.add_comm]

/-- A byte is a byte of the character behind some front part, or it is behind the text. -/
private lemma exists_append_of_byte (text : List Char) : ∀ byte : Nat, ∃ front rest,
    text = front ++ rest ∧ utf8Len front ≤ byte ∧
      ∀ c ∈ rest.head?, byte < utf8Len front + c.utf8Size := by
  induction text with
  | nil =>
    intro byte
    exact ⟨[], [], rfl, Nat.zero_le _, by simp⟩
  | cons c rest ih =>
    intro byte
    by_cases hByte : byte < c.utf8Size
    · refine ⟨[], c :: rest, rfl, Nat.zero_le _, ?_⟩
      simpa using hByte
    · obtain ⟨front, behind, rfl, hLow, hHigh⟩ := ih (byte - c.utf8Size)
      refine ⟨c :: front, behind, rfl, ?_, fun d hd => ?_⟩
      · rw [utf8Len_cons]
        omega
      · have := hHigh d hd
        rw [utf8Len_cons]
        omega

/-- A character that is cut off before its end gives no newline byte. -/
private lemma count_take_utf8EncodeChar (c : Char) {size : Nat} (h : size < c.utf8Size) :
    ((utf8EncodeChar c).take size).count 0x0a = 0 := by
  apply List.count_eq_zero.2
  by_cases hc : c = '\n'
  · subst hc
    obtain rfl : size = 0 := Nat.lt_one_iff.1 h
    exact List.not_mem_nil
  · exact fun hMem => newline_notMem_utf8EncodeChar hc (List.mem_of_mem_take hMem)

/-! ## Increasing line starts -/

/-- Behind newlines, lines start at increasing offsets. -/
private lemma pairwise_startsAfterNewlines (text : List Char) :
    ∀ offset : Nat, (startsAfterNewlines offset text).Pairwise (· < ·) := by
  induction text with
  | nil =>
    intro offset
    exact List.Pairwise.nil
  | cons c rest ih =>
    intro offset
    simp only [startsAfterNewlines]
    split
    · exact List.pairwise_cons.2 ⟨lt_of_mem_startsAfterNewlines rest _, ih _⟩
    · exact ih _

end Text

namespace Source

/-- **Lines count newline bytes.** The line of an offset is one more than the newlines among the
bytes before it, even if the offset is within a character or behind the text.

**Proof sketch.** The offset belongs to the character behind some front part of the text. The front
part has a newline byte for each newline, and the bytes of the character up to the offset hold
none. -/
theorem lineAt_eq_newlinesBefore (source : Source) (offset : Nat) :
    source.lineAt offset = Text.newlinesBefore source.text offset + 1 := by
  obtain ⟨front, rest, hText, hLow, hHigh⟩ :=
    Text.exists_append_of_byte source.text.toList offset
  have hFront := Text.length_flatMap_utf8EncodeChar front
  have hBehind :
      ((rest.flatMap utf8EncodeChar).take (offset - utf8Len front)).count 0x0a = 0 := by
    cases rest with
    | nil => simp
    | cons c rest =>
      have hSize : offset - utf8Len front < c.utf8Size := by
        have := hHigh c rfl
        omega
      rw [List.flatMap_cons, List.take_append_of_le_length (by
        rw [String.length_utf8EncodeChar]
        omega)]
      exact Text.count_take_utf8EncodeChar c hSize
  rw [source.lineAt_eq_count front rest hText hLow hHigh, Text.newlinesBefore, Text.data_toUTF8,
    hText, List.flatMap_append, List.take_append, hFront, List.count_append, hBehind,
    List.take_of_length_le (by rw [hFront]; exact hLow), Text.count_flatMap_utf8EncodeChar]

/-! ## Searching for a line -/

/-- Where a search among increasing numbers ends. -/
inductive Found where
  /-- The number stands at this place. -/
  | hit (place : Nat)
  /-- The number is not there. It belongs at this place, behind the smaller numbers. -/
  | miss (place : Nat)
  deriving DecidableEq, Repr

/-- A binary search for a number at the places from `low` on and before `high`. -/
def search (numbers : List Nat) (sought low high : Nat) : Found :=
  if low < high then
    let middle := (low + high) / 2
    let number := numbers.getD middle 0
    if number = sought then .hit middle
    else if number < sought then search numbers sought (middle + 1) high
    else search numbers sought low middle
  else .miss low
termination_by high - low

/-- The number of the line that a search among line starts tells: the line starts that the search
has passed, and the one that it has hit. -/
def Found.line : Found → Nat
  | hit place => place + 1
  | miss place => place

/-- The line that a binary search among the line starts tells. -/
def lineFound (source : Source) (offset : Nat) : Nat :=
  (search source.lineStarts offset 0 source.lineStarts.length).line

/-- If the numbers before a place are those that do not exceed a bound, there are that many. -/
private lemma countP_le_eq {numbers : List Nat} {bound place : Nat}
    (hPlace : place ≤ numbers.length)
    (hBelow : ∀ i (hi : i < numbers.length), i < place → numbers[i] ≤ bound)
    (hAbove : ∀ i (hi : i < numbers.length), place ≤ i → bound < numbers[i]) :
    numbers.countP (· ≤ bound) = place := by
  have hTake : (numbers.take place).countP (· ≤ bound) = place := by
    rw [List.countP_eq_length.2, List.length_take_of_le hPlace]
    intro n hn
    obtain ⟨i, hi, rfl⟩ := List.mem_take_iff_getElem.1 hn
    have := hBelow i (by omega) (by omega)
    simpa using this
  have hDrop : (numbers.drop place).countP (· ≤ bound) = 0 := by
    rw [List.countP_eq_zero]
    intro n hn
    obtain ⟨i, hi, rfl⟩ := List.mem_drop_iff_getElem.1 hn
    have := hAbove (place + i) (by omega) (by omega)
    simpa using this
  rw [← List.take_append_drop place numbers, List.countP_append, hTake, hDrop, Nat.add_zero]

/-- **A binary search counts.** If all numbers before `low` are smaller than the one that is sought,
and all from `high` on are larger, the search tells how many do not exceed it.

**Proof sketch.** Induction on the search. As the numbers increase, those before the middle are
smaller than the number there, and those behind it are larger, which carries the invariant to the
half that is searched on. -/
theorem line_search {numbers : List Nat} (hIncreasing : numbers.Pairwise (· < ·))
    (sought low high : Nat) (hOrder : low ≤ high) (hHigh : high ≤ numbers.length)
    (hBelow : ∀ i (hi : i < numbers.length), i < low → numbers[i] < sought)
    (hAbove : ∀ i (hi : i < numbers.length), high ≤ i → sought < numbers[i]) :
    (search numbers sought low high).line = numbers.countP (· ≤ sought) := by
  rw [List.pairwise_iff_getElem] at hIncreasing
  fun_induction search numbers sought low high with
  | case1 low high hLow middle number hHit =>
    have hMiddle : middle < numbers.length := by omega
    have hNumber : numbers[middle] = sought := by simpa [number, hMiddle] using hHit
    refine (countP_le_eq hMiddle (fun i hi hle => ?_) fun i hi hlt => ?_).symm
    · rcases Nat.lt_or_eq_of_le (Nat.le_of_lt_succ hle) with hlt | rfl
      · have := hIncreasing i middle hi hMiddle hlt
        omega
      · exact Nat.le_of_eq hNumber
    · have := hIncreasing middle i hMiddle hi hlt
      omega
  | case2 low high hLow middle number hNe hLt ih =>
    have hMiddle : middle < numbers.length := by omega
    have hNumber : numbers[middle] < sought := by simpa [number, hMiddle] using hLt
    refine ih (by omega) hHigh (fun i hi hle => ?_) hAbove
    rcases Nat.lt_or_eq_of_le (Nat.le_of_lt_succ hle) with hlt | rfl
    · exact Nat.lt_trans (hIncreasing i middle hi hMiddle hlt) hNumber
    · exact hNumber
  | case3 low high hLow middle number hNe hLt ih =>
    have hMiddle : middle < numbers.length := by omega
    have hNumber : sought < numbers[middle] := by
      have hEq : number = numbers[middle] := by simp [number, hMiddle]
      omega
    refine ih (by omega) (by omega) hBelow fun i hi hle => ?_
    rcases Nat.lt_or_eq_of_le hle with hlt | rfl
    · exact Nat.lt_trans hNumber (hIncreasing middle i hMiddle hi hlt)
    · exact hNumber
  | case4 low high hEmpty =>
    obtain rfl : low = high := by omega
    exact (countP_le_eq hHigh (fun i hi hlt => Nat.le_of_lt (hBelow i hi hlt)) hAbove).symm

/-- Lines start at increasing offsets. -/
private lemma pairwise_lineStarts (source : Source) : source.lineStarts.Pairwise (· < ·) := by
  rw [source.lineStarts_eq]
  exact List.pairwise_cons.2 ⟨Text.lt_of_mem_startsAfterNewlines source.text.toList 0,
    Text.pairwise_startsAfterNewlines source.text.toList 0⟩

/-- **A search tells the line.** The line that a binary search among the line starts tells is the
line of the offset.

**Proof sketch.** The search starts with all line starts, so that none stands outside of its
interval (`line_search`). -/
theorem lineFound_eq_lineAt (source : Source) (offset : Nat) :
    source.lineFound offset = source.lineAt offset :=
  line_search source.pairwise_lineStarts offset 0 _ (Nat.zero_le _) (Nat.le_refl _)
    (fun _ _ h => absurd h (Nat.not_lt_zero _)) (fun _ hi h => absurd hi (Nat.not_lt.2 h))

end Source

/-! ## What stands on a line -/

namespace Text

/-- The characters of a text that itself starts at `offset`, each with the offset of its first
byte. -/
def located (offset : Nat) : List Char → List (Nat × Char)
  | [] => []
  | c :: rest => (offset, c) :: located (offset + c.utf8Size) rest

/-- The characters of two texts, one behind the other. -/
private lemma located_append (first second : List Char) : ∀ offset : Nat,
    located offset (first ++ second) =
      located offset first ++ located (offset + utf8Len first) second := by
  induction first with
  | nil =>
    intro offset
    rfl
  | cons c rest ih =>
    intro offset
    rw [List.cons_append, located, ih, located, List.cons_append, utf8Len_cons, Nat.add_assoc,
      Nat.add_comm c.utf8Size]

/-- A character starts within its text. -/
lemma bounds_of_mem_located (text : List Char) : ∀ (offset : Nat), ∀ p ∈ located offset text,
    offset ≤ p.1 ∧ p.1 < offset + utf8Len text := by
  induction text with
  | nil =>
    intro offset p hp
    cases hp
  | cons c rest ih =>
    intro offset p hp
    have hSize := c.utf8Size_pos
    rw [utf8Len_cons]
    rcases List.mem_cons.1 hp with rfl | hp
    · constructor <;> dsimp only <;> omega
    · have := ih (offset + c.utf8Size) p hp
      omega

/-- The lines of a text are pieces of it with the same numbers. -/
private lemma getD_splitOn_of_splitLines {text : List Char} {i : Nat} {line : String}
    (h : (splitLines (String.ofList text))[i]? = some line) :
    (text.splitOn '\n').getD i [] = line.toList := by
  obtain ⟨rest, hPieces⟩ := splitLines_isPrefix (String.ofList text)
  have hPiece : (pieces (String.ofList text))[i]? = some line := by
    rw [← hPieces, List.getElem?_append_left (List.getElem?_eq_some_iff.1 h).1]
    exact h
  rw [pieces, String.toList_ofList, List.getElem?_map] at hPiece
  obtain ⟨piece, hMem, rfl⟩ := Option.map_eq_some_iff.1 hPiece
  rw [List.getD_eq_getElem?_getD, hMem, String.toList_ofList]
  rfl

end Text

namespace Source

/-- Whether a character, given behind its offset, starts between two offsets and on a line, and is
not the newline that ends the line. -/
def isWithin (source : Source) (start stop line : Nat) (p : Nat × Char) : Bool :=
  start ≤ p.1 ∧ p.1 < stop ∧ source.lineAt p.1 = line ∧ p.2 ≠ '\n'

/-- What stands on a line between two offsets. -/
def lineWithin (source : Source) (start stop line : Nat) : String :=
  String.ofList
    (((Text.located 0 source.text.toList).filter (source.isWithin start stop line)).map Prod.snd)

/-- The characters of a part on one of its lines make up the piece of the part with that number.

**Proof sketch.** Induction on the part. Its first character is on its first line. Behind a newline,
all is on later lines. -/
private lemma filter_located (source : Source) (part : List Char) : ∀ before after : List Char,
    source.text.toList = before ++ part ++ after → ∀ i : Nat,
      ((Text.located (utf8Len before) part).filter fun p =>
        source.lineAt p.1 = before.count '\n' + 1 + i ∧ p.2 ≠ '\n').map Prod.snd =
          (part.splitOn '\n').getD i [] := by
  induction part with
  | nil =>
    intro before after _ i
    cases i <;> simp [Text.located]
  | cons c rest ih =>
    intro before after hText i
    have hHere : source.lineAt (utf8Len before) = before.count '\n' + 1 :=
      source.lineAt_utf8Len (hText.trans (List.append_assoc ..))
    have hBehind : source.text.toList = (before ++ [c]) ++ rest ++ after := by
      rw [hText]
      simp
    have hNext := source.lineAt_utf8Len (hBehind.trans (List.append_assoc ..))
    have hRest := ih (before ++ [c]) after hBehind
    rw [utf8Len_append, utf8Len_cons, utf8Len_nil, Nat.zero_add, List.count_append,
      List.count_singleton] at hNext hRest
    rw [Text.located, List.splitOn_cons_eq_if_modifyHead]
    by_cases hc : c = '\n'
    · subst hc
      rw [if_pos (beq_self_eq_true _)] at hNext hRest
      rw [List.filter_cons_of_neg (by simp), if_pos (beq_self_eq_true _)]
      cases i with
      | zero =>
        -- all that stands behind the newline is on later lines
        rw [List.filter_eq_nil_iff.2]
        · rfl
        · intro p hp
          have hLater := source.lineAt_mono (Text.bounds_of_mem_located rest _ p hp).1
          simp only [decide_eq_true_eq, not_and]
          omega
      | succ i =>
        have hLine : before.count '\n' + 1 + (i + 1) = before.count '\n' + 1 + 1 + i := by omega
        rw [hLine, List.getD_cons_succ]
        exact hRest i
    · have hOther : (c == '\n') = false := by simpa using hc
      obtain ⟨first, others, hSplit⟩ :=
        List.exists_cons_of_ne_nil (List.splitOn_ne_nil '\n' rest)
      rw [hOther, if_neg Bool.false_ne_true, Nat.add_zero, hSplit] at hRest
      rw [hOther, if_neg Bool.false_ne_true, hSplit, List.modifyHead_cons]
      cases i with
      | zero =>
        rw [List.filter_cons_of_pos (by simp [hHere, hc]), List.map_cons, hRest 0]
        rfl
      | succ i =>
        rw [List.filter_cons_of_neg (by simp [hHere]), hRest (i + 1)]
        rfl

/-- What is within a part and on a line are the characters of the part that are on the line. -/
private lemma filter_isWithin (source : Source) {before part after : List Char}
    (hText : source.text.toList = before ++ part ++ after) (line : Nat) :
    (Text.located 0 source.text.toList).filter
        (source.isWithin (utf8Len before) (utf8Len (before ++ part)) line) =
      (Text.located (utf8Len before) part).filter fun p =>
        source.lineAt p.1 = line ∧ p.2 ≠ '\n' := by
  have hBefore : (Text.located 0 before).filter
      (source.isWithin (utf8Len before) (utf8Len (before ++ part)) line) = [] := by
    refine List.filter_eq_nil_iff.2 fun p hp => ?_
    have := Text.bounds_of_mem_located before 0 p hp
    simp only [isWithin, decide_eq_true_eq]
    omega
  have hAfter : (Text.located (utf8Len (before ++ part)) after).filter
      (source.isWithin (utf8Len before) (utf8Len (before ++ part)) line) = [] := by
    refine List.filter_eq_nil_iff.2 fun p hp => ?_
    have := Text.bounds_of_mem_located after _ p hp
    simp only [isWithin, decide_eq_true_eq]
    omega
  rw [hText, Text.located_append, Text.located_append, Nat.zero_add, Nat.zero_add,
    List.filter_append, List.filter_append, hBefore, hAfter, List.nil_append, List.append_nil]
  refine List.filter_congr fun p hp => ?_
  have := Text.bounds_of_mem_located part _ p hp
  simp [isWithin, utf8Len_append, this]

/-- **Lines of a part.** Each line of a part of the text is what stands within the part on the line
of the file that is as far behind the part's first one. -/
theorem lineWithin_add (source : Source) {before part after : List Char}
    (hText : source.text.toList = before ++ part ++ after) {i : Nat} {line : String}
    (hLine : (Text.splitLines (String.ofList part))[i]? = some line) :
    source.lineWithin (utf8Len before) (utf8Len (before ++ part)) (before.count '\n' + 1 + i) =
      line := by
  rw [lineWithin, source.filter_isWithin hText, source.filter_located part before after hText,
    Text.getD_splitOn_of_splitLines hLine, String.ofList_toList]

end Source

/-! ## Windows of a part -/

namespace Window

/-- Windows over the bytes from `start` up to `stop`, which are on the lines from `first` to `last`,
are numbered like the file: they start and end with these lines, and the content of each is what
stands within these bytes on the lines that it is said to have, one below the other. -/
structure Numbered (source : Source) (start stop first last : Nat) (windows : List Window) :
    Prop where
  first_eq : ∃ window ∈ windows.head?, window.startLine = first
  last_eq : ∃ window ∈ windows.getLast?, window.endLine = last
  lines : ∀ window ∈ windows, first ≤ window.startLine ∧ window.startLine ≤ window.endLine ∧
    window.endLine ≤ last
  content_eq : ∀ window ∈ windows, window.content =
    "\n".intercalate ((List.range' window.startLine (window.endLine + 1 - window.startLine)).map
      (source.lineWithin start stop))

/-- The lines of a window of a part are what stands within the part on as many lines of the file,
from the first line of the window on. -/
private lemma lines_eq_of_mem_split {source : Source} {budget : Budget}
    {before part after : List Char} (hText : source.text.toList = before ++ part ++ after)
    {window : Window} (hMem : window ∈ split budget (String.ofList part) (before.count '\n' + 1)) :
    window.lines = (List.range' window.startLine window.lines.length).map
      (source.lineWithin (utf8Len before) (utf8Len (before ++ part))) := by
  obtain ⟨-, front, back, hAll, hStart⟩ := exists_append_of_mem_split hMem
  apply List.ext_getElem
  · rw [List.length_map, List.length_range']
  · intro i hi _
    have hLine : (Text.splitLines (String.ofList part))[front.length + i]? =
        some window.lines[i] := by
      rw [hAll, List.append_assoc, List.getElem?_append_right (Nat.le_add_right _ _),
        Nat.add_sub_cancel_left, List.getElem?_append_left hi, List.getElem?_eq_getElem hi]
    rw [List.getElem_map, List.getElem_range', Nat.one_mul, hStart, Nat.add_assoc,
      source.lineWithin_add hText hLine]

/-- **Windows are numbered like the file.** The windows of a part, counted from the line of its
first byte, are on the lines of the file on which their text stands.

**Proof sketch.** A part that is not empty has lines, so there is a first window, which starts with
the first line, and a last one, which ends with the last line (`endLine_of_getLast?_windows`). The
lines of a window are those lines of the file (`lines_eq_of_mem_split`). -/
theorem numbered_split {source : Source} (budget : Budget) {before part after : List Char}
    (hText : source.text.toList = before ++ part ++ after) (hPart : part ≠ []) :
    Numbered source (utf8Len before) (utf8Len (before ++ part)) (before.count '\n' + 1)
      (before.count '\n' + Text.lineCount (String.ofList part))
      (split budget (String.ofList part) (before.count '\n' + 1)) := by
  cases hLines : Text.splitLines (String.ofList part) with
  | nil =>
    rw [Text.splitLines_eq_nil_iff, String.ofList_eq_empty_iff] at hLines
    exact absurd hLines hPart
  | cons line rest =>
    obtain ⟨window, others, hSplit, hStart⟩ :=
      exists_split_eq_cons budget hLines (before.count '\n' + 1)
    refine ⟨⟨window, by rw [hSplit]; rfl, hStart⟩, ?_, fun w hMem => ?_, fun w hMem => ?_⟩
    · obtain ⟨last, hLast⟩ : ∃ last, (window :: others).getLast? = some last :=
        ⟨_, List.getLast?_eq_some_getLast (List.cons_ne_nil _ _)⟩
      rw [← hSplit] at hLast
      refine ⟨last, hLast, ?_⟩
      have hEnd := endLine_of_getLast?_windows budget _ (before.count '\n' + 1) {} last hLast
      have hEmpty : ({} : Run).size = 0 := rfl
      rw [hEmpty] at hEnd
      unfold Text.lineCount
      omega
    · obtain ⟨hLow, hOrder, hHigh⟩ := endLine_lt_of_mem_split hMem
      exact ⟨hLow, hOrder, by omega⟩
    · have hPos := (fits_of_mem_split hMem).lines_pos
      have hCount : w.endLine + 1 - w.startLine = w.lines.length := by
        unfold endLine
        omega
      rw [hCount, ← lines_eq_of_mem_split hText hMem, content]

end Window

/-- **The numbers of lines agree.** The first line of a slice that is not empty is one more than the
newlines among the bytes before it, as a binary search among the line starts tells. From there to
its last line it has as many lines as there are in its text, so that the windows that it is cut into
when it is over budget start with its first line, end with its last, and show what stands within the
slice on the lines of the file that they are said to have.

**Proof sketch.** The slice is a part of the text, divided at its offsets. The line of its first
byte is told by the newlines before it (`Source.lineAt_utf8Len`); a binary search finds the same
line (`Source.lineFound_eq_lineAt`), and counting the newlines among the bytes before it tells the
same (`Source.lineAt_eq_newlinesBefore`), since no other character has a byte that is a newline. The
span has the lines of the part (`Source.lineSpan_eq`), and for its windows see
`Window.numbered_split`. -/
theorem Cutting.numbered_stretch (cutting : Cutting) {start stop : Nat} {part : String}
    (hSlice : Text.slice? cutting.source.text start stop = some part) (hBytes : start < stop)
    (kind : ChunkKind) (metadata : ChunkMetadata) :
    ∃ first last, cutting.source.lineSpan start stop = (first, last) ∧
      cutting.source.lineAt start = first ∧ cutting.source.lineFound start = first ∧
      first = Text.newlinesBefore cutting.source.text start + 1 ∧
      first ≤ last ∧ last - first + 1 = Text.lineCount part ∧
      Window.Numbered cutting.source start stop first last
        (Window.split cutting.budget part first) ∧
      cutting.stretch start stop part kind metadata =
        if Text.tokens part ≤ cutting.budget.maxTokens ∧
            last - first + 1 ≤ cutting.budget.maxLines then
          [Chunk.create cutting.path first last part kind metadata]
        else
          (Window.split cutting.budget part first).map
            (Window.toChunk cutting.path kind metadata) := by
  obtain ⟨before, after, hText, rfl, rfl⟩ := Text.toList_of_slice? hSlice
  have hPart : part.toList ≠ [] := by
    intro hNil
    rw [hNil, List.append_nil] at hBytes
    exact Nat.lt_irrefl _ hBytes
  have hFirst := cutting.source.lineAt_utf8Len (hText.trans (List.append_assoc ..))
  have hSpan := cutting.source.lineSpan_eq hText hPart
  have hNumbered := Window.numbered_split cutting.budget hText hPart
  have hOrder := cutting.source.lineSpan_le (utf8Len before) (utf8Len (before ++ part.toList))
  rw [hSpan] at hOrder
  rw [String.ofList_toList] at hSpan hNumbered hOrder
  refine ⟨_, _, hSpan, hFirst, ?_, ?_, hOrder, ?_, hNumbered, ?_⟩
  · rw [Source.lineFound_eq_lineAt, hFirst]
  · rw [← Source.lineAt_eq_newlinesBefore, hFirst]
  · dsimp only at hOrder
    omega
  · rw [stretch, hSpan]
    rfl

/-! ### A stretch that starts in the midst of a line -/

namespace Arguments

/-- A call whose name takes two bytes. -/
def content : String := "é(aaa,\nbb,\n\nc\n)\n"

/-- What stands between its brackets, with the bracket in front. -/
def part : String := "(aaa,\nbb,\n\nc\n"

/-- A cutting whose chunks have up to two tokens and two lines. -/
def cutting : Cutting where
  budget := { maxTokens := 2, minTokens := 0, overlapTokens := 1, maxLines := 2 }
  language := .rust
  path := "a.rs"
  source := .ofText content

/-- The windows of the part. The last two share the empty line. -/
def windows : List Window := [⟨1, ["(aaa,"]⟩, ⟨2, ["bb,", ""]⟩, ⟨3, ["", "c"]⟩]

/-- The part is on the lines from one to four, and so are its windows. -/
theorem numbered_windows : Text.slice? cutting.source.text 2 15 = some part ∧ 2 < 15 ∧
    cutting.stretch 2 15 part .block cutting.plainMetadata =
      windows.map (Window.toChunk cutting.path .block cutting.plainMetadata) ∧
    Window.Numbered cutting.source 2 15 1 4 windows := by
  have hSlice : Text.slice? cutting.source.text 2 15 = some part := by decide +kernel
  have hLines : cutting.source.lineSpan 2 15 = (1, 4) := by decide +kernel
  have hSplit : Window.split cutting.budget part 1 = windows := by decide +kernel
  obtain ⟨first, last, hSpan, -, -, -, -, -, hNumbered, hStretch⟩ :=
    cutting.numbered_stretch hSlice (by decide) .block cutting.plainMetadata
  obtain ⟨rfl, rfl⟩ := Prod.mk.inj (hLines.symm.trans hSpan)
  rw [hSplit] at hNumbered hStretch
  rw [if_neg (by decide +kernel)] at hStretch
  exact ⟨hSlice, by decide, hStretch, hNumbered⟩

end Arguments

end CodeAtlas
