import Mathlib.Data.List.TakeWhile
import CodeAtlas.Proofs.Arrangement
import CodeAtlas.Proofs.Chunking
import CodeAtlas.Proofs.Windows

/-!
# Chunks cover the file

Every character of a file that is not blank is on a line of some chunk, unless it stands in a gap
between the targets of a tree that is too small to be kept.

The regions of a tree leave no byte out, whatever the tree looks like: where its bytes are no
slices of the text, the file is not cut along it. A region becomes a stretch without its outer
blanks, the chunks of a stretch take up all of its lines, and arranging only widens chunks.

## Main definitions

* `CodeAtlas.IsGap` — two offsets are the ends of a gap between targets.
* `CodeAtlas.Region.IsBehind` — how far the regions have come when targets have been passed.
* `CodeAtlas.Chunker.InSmallGap` — a byte lies in a gap that is dropped.

## Main results

* `CodeAtlas.Region.exists_mem_list` — every byte is in a region.
* `CodeAtlas.Region.isGap_of_mem_list` — the gaps among the regions are those between the targets.
* `CodeAtlas.Cutting.exists_mem_stretch_containsLine` — a stretch takes up all of its lines.
* `CodeAtlas.Chunker.exists_chunk_or_inSmallGap` — coverage.
-/

set_option autoImplicit false

namespace CodeAtlas

open String (utf8Len utf8Len_append utf8Len_toList utf8ByteSize_ofList)

/-! ## Regions -/

/-- The bytes from `start` up to `stop` are a gap: they lie in the text and apart from all targets,
they start where the text does or a target ends, and stop where the text does or a target
starts. -/
structure IsGap (targets : List ChunkTarget) (length start stop : Nat) : Prop where
  start_lt : start < stop
  stop_le : stop ≤ length
  apart : ∀ t ∈ targets, t.node.endByte ≤ start ∨ stop ≤ t.node.startByte
  starts : start = 0 ∨ ∃ t ∈ targets, t.node.endByte = start
  stops : stop = length ∨ ∃ t ∈ targets, t.node.startByte = stop

/-- Whether offsets are the ends of a gap does not depend on the order of the targets. -/
private lemma IsGap.congr {targets others : List ChunkTarget} {length start stop : Nat}
    (h : IsGap targets length start stop) (hMem : ∀ t, t ∈ targets ↔ t ∈ others) :
    IsGap others length start stop where
  start_lt := h.start_lt
  stop_le := h.stop_le
  apart t ht := h.apart t ((hMem t).2 ht)
  starts := h.starts.imp_right fun ⟨t, ht, hEnd⟩ => ⟨t, (hMem t).1 ht, hEnd⟩
  stops := h.stops.imp_right fun ⟨t, ht, hStart⟩ => ⟨t, (hMem t).1 ht, hStart⟩

namespace Region

/-- Whether a byte is in a region. -/
def Holds (byte : Nat) : Region → Prop
  | gap start stop => start ≤ byte ∧ byte < stop
  | target t => t.node.startByte ≤ byte ∧ byte < t.node.endByte

/-- Behind the last target there is a gap, unless the text is at its end. -/
lemma mem_list_nil_iff {length position : Nat} {region : Region} :
    region ∈ list length position [] ↔ position < length ∧ region = .gap position length := by
  rw [list]
  split <;> simp_all

/-- The regions behind a position are the gap before the next target, if there is one, the target,
and the regions behind it. -/
lemma mem_list_cons_iff {length position : Nat} {region : Region} {t : ChunkTarget}
    {rest : List ChunkTarget} :
    region ∈ list length position (t :: rest) ↔
      (position < t.node.startByte ∧ region = .gap position t.node.startByte) ∨
        region = .target t ∨ region ∈ list length (max position t.node.endByte) rest := by
  rw [list]
  split <;> simp_all

/-- **Regions leave no byte out.** Every byte from the position on is in a region.

**Proof sketch.** Induction on the targets ahead. A byte before the next target is in the gap
before it, a byte before its end is in the target, and a byte behind it is in a later region. -/
theorem exists_mem_list {length byte : Nat} (hByte : byte < length) (targets : List ChunkTarget) :
    ∀ position ≤ byte, ∃ region ∈ list length position targets, region.Holds byte := by
  induction targets with
  | nil =>
    intro position hPosition
    exact ⟨_, mem_list_nil_iff.2 ⟨by omega, rfl⟩, hPosition, hByte⟩
  | cons t rest ih =>
    intro position hPosition
    by_cases hStart : t.node.startByte ≤ byte
    · by_cases hEnd : byte < t.node.endByte
      · exact ⟨_, mem_list_cons_iff.2 (Or.inr (Or.inl rfl)), hStart, hEnd⟩
      · obtain ⟨region, hMem, hHolds⟩ := ih (max position t.node.endByte) (by omega)
        exact ⟨region, mem_list_cons_iff.2 (Or.inr (Or.inr hMem)), hHolds⟩
    · exact ⟨_, mem_list_cons_iff.2 (Or.inl ⟨by omega, rfl⟩), hPosition, by omega⟩

/-- A position is behind targets: none of them ends later, and it is where the text starts or one
of them ends. -/
structure IsBehind (passed : List ChunkTarget) (position : Nat) : Prop where
  endByte_le : ∀ t ∈ passed, t.node.endByte ≤ position
  starts : position = 0 ∨ ∃ t ∈ passed, t.node.endByte = position

/-- When a target is passed, the position moves to the larger of itself and the target's end. -/
private lemma IsBehind.concat {passed : List ChunkTarget} {position : Nat}
    (h : IsBehind passed position) (t : ChunkTarget) :
    IsBehind (passed ++ [t]) (max position t.node.endByte) := by
  refine ⟨fun u hu => ?_, ?_⟩
  · rcases List.mem_append.1 hu with hu | hu
    · exact Nat.le_trans (h.endByte_le u hu) (Nat.le_max_left _ _)
    · rw [List.mem_singleton.1 hu]
      exact Nat.le_max_right _ _
  · rcases Nat.le_total t.node.endByte position with hLe | hLe
    · rw [Nat.max_eq_left hLe]
      exact h.starts.imp_right fun ⟨u, hu, hEnd⟩ => ⟨u, List.mem_append_left _ hu, hEnd⟩
    · rw [Nat.max_eq_right hLe]
      exact Or.inr ⟨t, List.mem_append_right _ (List.mem_singleton_self t), rfl⟩

/-- What lies between the position and the next target is a gap, if no later target starts
before. -/
private lemma IsBehind.isGap_next {passed rest : List ChunkTarget} {position length : Nat}
    (h : IsBehind passed position) {t : ChunkTarget} (hLt : position < t.node.startByte)
    (hStop : t.node.startByte ≤ length)
    (hRest : ∀ u ∈ rest, t.node.startByte ≤ u.node.startByte) :
    IsGap (passed ++ t :: rest) length position t.node.startByte where
  start_lt := hLt
  stop_le := hStop
  apart u hu := by
    rcases List.mem_append.1 hu with hu | hu
    · exact Or.inl (h.endByte_le u hu)
    · rcases List.mem_cons.1 hu with rfl | hu
      · exact Or.inr (Nat.le_refl _)
      · exact Or.inr (hRest u hu)
  starts := h.starts.imp_right fun ⟨u, hu, hEnd⟩ => ⟨u, List.mem_append_left _ hu, hEnd⟩
  stops := Or.inr ⟨t, List.mem_append_right _ List.mem_cons_self, rfl⟩

/-- **Gaps are gaps.** A gap among the regions lies apart from the targets passed and from those
ahead, if these are in the order of their first bytes and the position is behind those passed.

**Proof sketch.** Induction on the targets ahead. The gap is the one before the next target, or the
rest of the text, or it is found when the target has been passed, and the position is then behind
this target, too (`IsBehind.concat`). -/
theorem isGap_of_mem_list {length start stop : Nat} (hStop : stop ≤ length)
    (ahead : List ChunkTarget) :
    ∀ (passed : List ChunkTarget) (position : Nat),
      ahead.Pairwise (fun a b => a.node.startByte ≤ b.node.startByte) →
      IsBehind passed position → Region.gap start stop ∈ list length position ahead →
      IsGap (passed ++ ahead) length start stop := by
  induction ahead with
  | nil =>
    intro passed position _ hBehind hMem
    obtain ⟨hLt, hEq⟩ := mem_list_nil_iff.1 hMem
    obtain ⟨rfl, rfl⟩ := gap.inj hEq
    rw [List.append_nil]
    exact ⟨hLt, hStop, fun t ht => Or.inl (hBehind.endByte_le t ht), hBehind.starts, Or.inl rfl⟩
  | cons t rest ih =>
    intro passed position hOrder hBehind hMem
    obtain ⟨hNext, hRest⟩ := List.pairwise_cons.1 hOrder
    rcases mem_list_cons_iff.1 hMem with ⟨hLt, hEq⟩ | hEq | hMem
    · obtain ⟨rfl, rfl⟩ := gap.inj hEq
      exact hBehind.isGap_next hLt hStop hNext
    · cases hEq
    · have hGap := ih (passed ++ [t]) _ hRest (hBehind.concat t) hMem
      rwa [List.append_assoc, List.singleton_append] at hGap

end Region

/-! ## Characters and their lines -/

namespace Text

/-- A character that is not in the first part is in the second. -/
private lemma exists_of_notMem_left {first second front rest : List Char} {c : Char}
    (h : first ++ second = front ++ c :: rest) (hc : c ∉ first) :
    ∃ middle, front = first ++ middle ∧ second = middle ++ c :: rest := by
  rcases List.append_eq_append_iff.1 h with ⟨middle, hFront, hSecond⟩ | ⟨middle, hFirst, hRest⟩
  · exact ⟨middle, hFront, hSecond⟩
  · cases middle with
    | nil => exact ⟨[], by simpa using hFirst.symm, by simpa using hRest.symm⟩
    | cons d middle =>
      rw [List.cons_append, List.cons.injEq] at hRest
      exact absurd (by rw [hFirst, hRest.1]; simp) hc

/-- A character that is not in the second part is in the first. -/
private lemma exists_of_notMem_right {first second front rest : List Char} {c : Char}
    (h : first ++ second = front ++ c :: rest) (hc : c ∉ second) :
    ∃ tail, first = front ++ c :: tail := by
  rcases List.append_eq_append_iff.1 h with ⟨middle, -, hSecond⟩ | ⟨middle, hFirst, hRest⟩
  · exact absurd (by rw [hSecond]; simp) hc
  · cases middle with
    | nil => exact absurd (by rw [← List.nil_append second, ← hRest]; simp) hc
    | cons d middle =>
      rw [List.cons_append, List.cons.injEq] at hRest
      exact ⟨middle, by rw [hFirst, hRest.1]⟩

/-- A text is its leading blanks, what trimming leaves of it, and trailing blanks. -/
lemma exists_trim_append (text : List Char) :
    ∃ trailing, text = text.takeWhile isBlank ++ trim text ++ trailing ∧
      ∀ c ∈ trailing, isBlank c = true := by
  refine ⟨((trimStart text).reverse.takeWhile isBlank).reverse, ?_, ?_⟩
  · have hEnd : trim text ++ ((trimStart text).reverse.takeWhile isBlank).reverse =
        trimStart text := by
      rw [trim, trimEnd, ← List.reverse_append, List.takeWhile_append_dropWhile,
        List.reverse_reverse]
    rw [List.append_assoc, hEnd, trimStart, List.takeWhile_append_dropWhile]
  · intro c hc
    exact List.mem_takeWhile_imp (List.mem_reverse.1 hc)

/-- Trimming keeps every character that is not blank, at the same distance from the leading
blanks. -/
private lemma exists_of_trim {text middle tail : List Char} {c : Char} (hc : isBlank c = false)
    (h : text = middle ++ c :: tail) :
    ∃ inner rest, middle = text.takeWhile isBlank ++ inner ∧ trim text = inner ++ c :: rest := by
  obtain ⟨trailing, hText, hTrailing⟩ := exists_trim_append text
  have hLeading : c ∉ text.takeWhile isBlank := by
    intro hMem
    rw [List.mem_takeWhile_imp hMem] at hc
    cases hc
  have hNotTrailing : c ∉ trailing := by
    intro hMem
    rw [hTrailing c hMem] at hc
    cases hc
  have hEq : text.takeWhile isBlank ++ (trim text ++ trailing) = middle ++ c :: tail := by
    rw [← List.append_assoc, ← hText, h]
  obtain ⟨inner, hMiddle, hInner⟩ := exists_of_notMem_left hEq hLeading
  obtain ⟨rest, hRest⟩ := exists_of_notMem_right hInner hNotTrailing
  exact ⟨inner, rest, hMiddle, hRest⟩

/-- A text has more lines than newlines before any of its characters. -/
lemma count_lt_lineCount (middle tail : List Char) (c : Char) :
    middle.count '\n' < lineCount (String.ofList (middle ++ c :: tail)) := by
  obtain ⟨front, last, hLast⟩ :=
    (List.eq_nil_or_concat' (c :: tail)).resolve_left (List.cons_ne_nil _ _)
  rw [hLast, ← List.append_assoc, lineCount_of_concat, List.count_append]
  omega

end Text

/-! ## Stretches -/

namespace Cutting

/-- **Lines of a stretch.** A stretch takes up all lines of its part of the text.

**Proof sketch.** As one chunk it has the span of the part, which is as long as the part has lines.
As windows it starts at the first line of the span, and no line of the part is left out. -/
theorem exists_mem_stretch_containsLine (cutting : Cutting) {before part after : List Char}
    (hText : cutting.source.text.toList = before ++ part ++ after) (hPart : part ≠ [])
    (kind : ChunkKind) (metadata : ChunkMetadata) {line : Nat} (hLow : before.count '\n' < line)
    (hHigh : line ≤ before.count '\n' + Text.lineCount (String.ofList part)) :
    ∃ chunk ∈ cutting.stretch (utf8Len before) (utf8Len (before ++ part)) (String.ofList part)
      kind metadata, chunk.containsLine line = true := by
  unfold stretch
  rw [cutting.source.lineSpan_eq hText hPart]
  dsimp only
  split
  · exact ⟨_, List.mem_singleton_self _, (Chunk.containsLine_iff _ _).2 ⟨hLow, hHigh⟩⟩
  · obtain ⟨window, hMem, hIn⟩ := Window.exists_mem_split cutting.budget (String.ofList part)
      (before.count '\n' + 1) line hLow (by omega)
    exact ⟨_, List.mem_map_of_mem hMem, (Chunk.containsLine_iff _ _).2 hIn⟩

/-- The line of a character in a stretch is in one of its chunks. -/
lemma exists_mem_stretch_of_char (cutting : Cutting) {before middle tail after : List Char}
    {c : Char} (hText : cutting.source.text.toList = before ++ (middle ++ c :: tail) ++ after)
    (kind : ChunkKind) (metadata : ChunkMetadata) :
    ∃ chunk ∈ cutting.stretch (utf8Len before) (utf8Len (before ++ (middle ++ c :: tail)))
      (String.ofList (middle ++ c :: tail)) kind metadata,
      chunk.containsLine ((before ++ middle).count '\n' + 1) = true := by
  have hLines := Text.count_lt_lineCount middle tail c
  refine cutting.exists_mem_stretch_containsLine hText (by simp) kind metadata ?_ ?_ <;>
    rw [List.count_append] <;> omega

/-- A character of a target that is not blank is on a line of one of the target's chunks. -/
private lemma exists_mem_target (cutting : Cutting) {t : ChunkTarget} {part : List Chunk}
    (hCut : cutting.target t = .ok part) {front rest : List Char} {c : Char}
    (hText : cutting.source.text.toList = front ++ c :: rest) (hc : Text.isBlank c = false)
    (hHolds : (Region.target t).Holds (utf8Len front)) :
    ∃ chunk ∈ part, chunk.containsLine (front.count '\n' + 1) = true := by
  obtain ⟨text, hSlice, rfl⟩ := target_eq_ok_iff.1 hCut
  obtain ⟨before, middle, tail, after, hAll, hStart, hStop, rfl, hPart⟩ :=
    Text.exists_of_slice? hSlice hText hHolds.1 hHolds.2
  have hNotBlank : Text.allBlank text = false := by
    rw [Text.allBlank, hPart, List.all_append, List.all_cons, hc, Bool.false_and, Bool.and_false]
  rw [hPart] at hAll hStop
  obtain rfl : String.ofList (middle ++ c :: tail) = text := by rw [← hPart, String.ofList_toList]
  rw [hNotBlank, ← hStart, ← hStop]
  exact cutting.exists_mem_stretch_of_char hAll t.kind _

/-- A character of a gap that is not blank is on a line of one of the gap's chunks, unless the gap
is too small to be kept.

**Proof sketch.** The character stands in the text of the gap, and as it is not blank, in what is
left of that without the blanks around it. A gap that is kept is the stretch of this part, and a
character of a stretch is on a line of one of its chunks (`exists_mem_stretch_of_char`). -/
private lemma exists_mem_gap (cutting : Cutting) {start stop : Nat} {part : List Chunk}
    (hCut : cutting.gap start stop = .ok part) {front rest : List Char} {c : Char}
    (hText : cutting.source.text.toList = front ++ c :: rest) (hc : Text.isBlank c = false)
    (hHolds : (Region.gap start stop).Holds (utf8Len front)) :
    ∃ text, Text.slice? cutting.source.text start stop = some text ∧
      ((∃ chunk ∈ part, chunk.containsLine (front.count '\n' + 1) = true) ∨
        Text.tokens (String.ofList (Text.trim text.toList)) < cutting.budget.minTokens) := by
  obtain ⟨text, hSlice, rfl⟩ := gap_eq_ok_iff.1 hCut
  refine ⟨text, hSlice, ?_⟩
  obtain ⟨before, middle, tail, after, hAll, hStart, -, rfl, hPart⟩ :=
    Text.exists_of_slice? hSlice hText hHolds.1 hHolds.2
  obtain ⟨inner, last, rfl, hTrim⟩ := Text.exists_of_trim hc hPart
  obtain ⟨trailing, hTrailing, -⟩ := Text.exists_trim_append text.toList
  rcases Nat.lt_or_ge (Text.tokens (String.ofList (Text.trim text.toList)))
      cutting.budget.minTokens with hSmall | hKept
  · exact Or.inr hSmall
  · refine Or.inl ?_
    -- without its leading blanks the gap starts behind them
    have hBlanks : (before ++ text.toList.takeWhile Text.isBlank) ++ (inner ++ c :: last) ++
        (trailing ++ after) = cutting.source.text.toList := by
      rw [hAll, ← hTrim]
      conv_rhs => rw [hTrailing]
      simp only [List.append_assoc]
    have hFirst : start + (String.ofList (text.toList.takeWhile Text.isBlank)).utf8ByteSize =
        utf8Len (before ++ text.toList.takeWhile Text.isBlank) := by
      rw [utf8ByteSize_ofList, utf8Len_append, hStart]
    have hLast : utf8Len (before ++ text.toList.takeWhile Text.isBlank) +
        (String.ofList (Text.trim text.toList)).utf8ByteSize =
          utf8Len (before ++ text.toList.takeWhile Text.isBlank ++ (inner ++ c :: last)) := by
      rw [utf8ByteSize_ofList, hTrim, ← utf8Len_append]
    have hNonempty : (String.ofList (Text.trim text.toList)).isEmpty = false := by
      rw [hTrim, String.isEmpty_eq_false_iff, Ne, String.ofList_eq_empty_iff]
      simp
    dsimp only
    rw [if_neg (by rw [hNonempty]; simpa using hKept), hFirst, hLast, hTrim,
      ← List.append_assoc before _ inner]
    exact cutting.exists_mem_stretch_of_char hBlanks.symm _ _

end Cutting

/-! ## Files -/

/-- The line of every character is in one of the chunks by line windows. -/
lemma Chunk.exists_mem_ofLines (budget : Budget) (path : String) {content : String}
    {front rest : List Char} {c : Char} (hText : content.toList = front ++ c :: rest) :
    ∃ chunk ∈ Chunk.ofLines budget path content,
      chunk.containsLine (front.count '\n' + 1) = true := by
  have hLines := Text.count_lt_lineCount front rest c
  rw [← hText, String.ofList_toList] at hLines
  obtain ⟨window, hMem, hIn⟩ := Window.exists_mem_split budget content 1 (front.count '\n' + 1)
    (by omega) (by omega)
  exact ⟨_, List.mem_map_of_mem hMem, (Chunk.containsLine_iff _ _).2 hIn⟩

namespace Chunker

/-- A byte lies in a gap that is dropped: the file is cut along a tree, the byte is in a gap
between the targets of that tree, and without its outer blanks the gap has fewer tokens than a
gap must have. -/
def InSmallGap (chunker : Chunker) (grammars : Grammars) (file : SourceFile) (byte : Nat) : Prop :=
  ∃ language root chunks start stop text,
    chunker.CutsAlong grammars file language root chunks ∧
    IsGap (ChunkTarget.collect language root) file.content.utf8ByteSize start stop ∧
    start ≤ byte ∧ byte < stop ∧ Text.slice? file.content start stop = some text ∧
    Text.tokens (String.ofList (Text.trim text.toList)) < chunker.budget.minTokens

/-- Along a tree, a character that is not blank is on a line of some chunk or in a small gap.

**Proof sketch.** Some region holds the byte of the character (`Region.exists_mem_list`), and the
region was cut. If it is a target, the character is on a line of one of its chunks. If it is a gap,
it is so as well or the gap is too small, and a gap among the regions is one between targets
(`Region.isGap_of_mem_list`). -/
private lemma exists_chunk_or_inSmallGap_of_cutsAlong {chunker : Chunker} {grammars : Grammars}
    {file : SourceFile} {language : Language} {root : ParseTree} {chunks : List Chunk}
    (hAlong : chunker.CutsAlong grammars file language root chunks) {front rest : List Char}
    {c : Char} (hText : file.content.toList = front ++ c :: rest) (hc : Text.isBlank c = false) :
    (∃ chunk ∈ chunks, chunk.containsLine (front.count '\n' + 1) = true) ∨
      chunker.InSmallGap grammars file (utf8Len front) := by
  have hByte : utf8Len front < file.content.utf8ByteSize := by
    rw [← utf8Len_toList, hText, utf8Len_append, String.utf8Len_cons]
    have := c.utf8Size_pos
    omega
  obtain ⟨region, hRegion, hHolds⟩ := Region.exists_mem_list hByte
    ((chunker.cutting language file).targets root) 0 (Nat.zero_le _)
  obtain ⟨part, hCut, hPart⟩ :=
    (Cutting.regions_of_tree_eq_ok hAlong.cut hAlong.nonempty).2 region hRegion
  cases region with
  | target t =>
    obtain ⟨chunk, hChunk, hLine⟩ := Cutting.exists_mem_target _ hCut hText hc hHolds
    exact Or.inl ⟨chunk, hPart chunk hChunk, hLine⟩
  | gap start stop =>
    obtain ⟨text, hSlice, hEither⟩ := Cutting.exists_mem_gap _ hCut hText hc hHolds
    rcases hEither with ⟨chunk, hChunk, hLine⟩ | hSmall
    · exact Or.inl ⟨chunk, hPart chunk hChunk, hLine⟩
    · refine Or.inr ⟨language, root, chunks, start, stop, text, hAlong, ?_, hHolds.1, hHolds.2,
        hSlice, hSmall⟩
      have hStop : stop ≤ file.content.utf8ByteSize := by
        obtain ⟨before, after, hAll, -, rfl⟩ := Text.toList_of_slice? hSlice
        change file.content.toList = _ at hAll
        rw [← utf8Len_toList, hAll, utf8Len_append (before ++ text.toList)]
        exact Nat.le_add_right _ _
      have hGap := Region.isGap_of_mem_list hStop ((chunker.cutting language file).targets root)
        [] 0 (pairwise_mergeSort_key (fun t : ChunkTarget => t.node.startByte) _)
        ⟨by simp, Or.inl rfl⟩ hRegion
      exact hGap.congr fun t => by
        rw [List.nil_append, Cutting.targets, List.mem_mergeSort]
        rfl

/-- **Coverage.** In an admitted file, every character that is not blank is on a line of some
chunk, unless it stands in a gap between targets that is too small to be kept. If no gap is too
small, or the file is cut into line windows, there is no exception.

Nothing is asked of the tree: along a tree whose bytes are no slices of the text no file is cut.

**Proof sketch.** The file is not blank, so it is cut along its tree or into line windows
(`chunks_chunkFile`). Along the tree the character is on a line of a chunk or in a small gap, and a
line window holds every line; arranging keeps each line on some chunk
(`Chunk.exists_mem_arrange_containsLine`). A gap has at least no tokens, and there are gaps only
along a tree. -/
theorem exists_chunk_or_inSmallGap (chunker : Chunker) (grammars : Grammars) (file : SourceFile)
    (hAdmitted : skipReason? file.path file.content = none) {front rest : List Char} {c : Char}
    (hText : file.content.toList = front ++ c :: rest) (hc : Text.isBlank c = false) :
    ((∃ chunk ∈ (chunker.chunkFile grammars file).chunks,
        chunk.containsLine (front.count '\n' + 1) = true) ∨
      chunker.InSmallGap grammars file (utf8Len front)) ∧
    (chunker.budget.minTokens = 0 ∨ chunker.CutsByLines grammars file →
      ∃ chunk ∈ (chunker.chunkFile grammars file).chunks,
        chunk.containsLine (front.count '\n' + 1) = true) := by
  have hNotBlank : Text.allBlank file.content = false := by
    rw [Text.allBlank, hText, List.all_append, List.all_cons, hc, Bool.false_and, Bool.and_false]
  have hEither : (∃ chunk ∈ (chunker.chunkFile grammars file).chunks,
      chunk.containsLine (front.count '\n' + 1) = true) ∨
      chunker.InSmallGap grammars file (utf8Len front) := by
    rcases chunks_chunkFile chunker grammars hAdmitted hNotBlank with
      ⟨language, root, chunks, hAlong, hEq⟩ | ⟨-, hEq⟩
    · rw [hEq]
      rcases exists_chunk_or_inSmallGap_of_cutsAlong hAlong hText hc with hChunk | hGap
      · exact Or.inl (Chunk.exists_mem_arrange_containsLine _ hChunk)
      · exact Or.inr hGap
    · rw [hEq]
      exact Or.inl (Chunk.exists_mem_arrange_containsLine _
        (Chunk.exists_mem_ofLines _ _ hText))
  refine ⟨hEither, fun hNever => hEither.resolve_right ?_⟩
  rintro ⟨language, root, chunks, start, stop, text, hAlong, -, -, -, -, hSmall⟩
  rcases hNever with hZero | hLines
  · omega
  · exact hLines language root chunks hAlong

/-- The chunker with the default limits and the grammars at hand. -/
def standard : Chunker := ⟨{}, by decide, { provider := .bundled }⟩

/-- A text of three lines. -/
def notes : SourceFile := ⟨"notes.txt", "one\n\n  two", none⟩

/-- A file that imports something above its only function, with its tree. -/
def importing : SourceFile where
  path := "a.rs"
  content := "use b;\nfn a() \x7b\x7d\n"
  tree? := some <| .node ⟨"source_file", true, none, 0, 17, 0, 2⟩
    [.node ⟨"use_declaration", true, none, 0, 6, 0, 0⟩ [],
      .node ⟨"function_item", true, none, 7, 16, 1, 1⟩
        [.node ⟨"identifier", true, some "name", 10, 11, 1, 1⟩ []]]

/-- The third line of the text is in a chunk, as its `t` is not blank and text files are cut into
line windows. The file with the import is cut along its tree. Its `u` is on a line of no chunk, so
it stands in a gap that is too small, and it is in a chunk if no gap is too small. -/
theorem exists_chunk_third_line :
    (∃ chunk ∈ (standard.chunkFile (fun _ _ => none) notes).chunks,
      chunk.containsLine 3 = true) ∧
    ((∀ chunk ∈ (standard.chunkFile (fun _ _ => none) importing).chunks,
        chunk.containsLine 1 = false) ∧
      standard.InSmallGap (fun _ _ => none) importing 0) ∧
    ∃ chunk ∈ ({ standard with budget := { minTokens := 0 }, valid := by decide }.chunkFile
      (fun _ _ => none) importing).chunks, chunk.containsLine 1 = true := by
  have hNotes : notes.content.toList = "one\n\n  ".toList ++ 't' :: "wo".toList := by
    decide +kernel
  have hImporting : importing.content.toList =
      [] ++ 'u' :: "se b;\nfn a() \x7b\x7d\n".toList := by decide +kernel
  have hAdmitted : skipReason? importing.path importing.content = none := by decide +kernel
  have hLines : standard.CutsByLines (fun _ _ => none) notes := by
    intro language root chunks h
    have hNone : standard.pool.provider.detect notes.path = none := by decide +kernel
    rw [h.detected] at hNone
    cases hNone
  have hMissed : ∀ chunk ∈ (standard.chunkFile (fun _ _ => none) importing).chunks,
      chunk.containsLine 1 = false := by decide +kernel
  refine ⟨?_, ⟨hMissed, ?_⟩, ?_⟩
  · exact (exists_chunk_or_inSmallGap standard _ notes (by decide +kernel) hNotes
      (by decide)).2 (Or.inr hLines)
  · refine (exists_chunk_or_inSmallGap standard _ importing hAdmitted hImporting
      (by decide)).1.resolve_left ?_
    rintro ⟨chunk, hChunk, hFirst⟩
    have hNot := hMissed chunk hChunk
    exact absurd (hNot.symm.trans hFirst) (by decide)
  · exact (exists_chunk_or_inSmallGap _ _ importing hAdmitted hImporting (by decide)).2
      (Or.inl rfl)

end Chunker

end CodeAtlas
