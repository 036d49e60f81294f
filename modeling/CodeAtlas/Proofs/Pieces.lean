import Mathlib.Data.List.Chain
import CodeAtlas.Proofs.Numbering
import CodeAtlas.Proofs.Separation
import CodeAtlas.Proofs.TargetOrder

/-!
# No chunk repeats source text

The content of a chunk consists of parts of the file that follow one another without overlap, put
one below the other. The chunks of one stretch may share lines, as a window repeats the end of the
one before it, but such windows are never merged. Chunks of different regions share nothing, as the
regions of a fitting tree follow one another.

The proof lays the chunks out before they are merged: each shows the bytes of an extent, and of two
neighbours the second lies behind the first, or the two are barred from a merger. Laid-out chunks
are in the order of their first lines already, so that sorting leaves them as they are, and a run
of chunks that are merged has extents one behind the other.

## Main definitions

* `CodeAtlas.Extent` — bytes of a text, from one offset up to another.
* `CodeAtlas.Chunk.Shows` — the content of a chunk is the text of an extent, on its lines.
* `CodeAtlas.Chunk.PiecedFrom` — the content of a chunk is put together from extents.
* `CodeAtlas.Chunk.LaidOut` — chunks show extents, and neighbours follow or are barred.
* `CodeAtlas.Chunk.Serial` — what carries over from ranges of bytes to those behind.
* `CodeAtlas.SourceFile.TreesFit` — the tree that a file is cut along fits its content.

## Main results

* `CodeAtlas.Chunk.exists_piecedFrom_of_mem_arrange` — laid-out chunks give pieced chunks.
* `CodeAtlas.Cutting.over_tree` — what holds of every stretch holds of the chunks along a fitting
  tree, if it carries over from ranges of bytes to those behind.
* `CodeAtlas.Cutting.laidOut_tree` — the chunks along a fitting tree are laid out.
* `CodeAtlas.Chunker.exists_piecedFrom_of_mem_chunkFile` — no chunk of a file repeats text.
-/

set_option autoImplicit false

namespace CodeAtlas

open String (utf8Len utf8Len_append utf8Len_toList utf8ByteSize_ofList)

/-- The bytes of a text from `start` up to `stop`. -/
structure Extent where
  /-- The first byte. -/
  start : Nat
  /-- The byte behind the last. -/
  stop : Nat
  deriving DecidableEq, Repr

/-- The text of an extent, if it is a slice. -/
def Extent.text? (source : Source) (extent : Extent) : Option String :=
  Text.slice? source.text extent.start extent.stop

namespace Chunk

/-- The content of a chunk is the text of an extent, the chunk starts on the line of its first
byte, and no byte of it is on a later line than the last of the chunk. -/
structure Shows (source : Source) (chunk : Chunk) (extent : Extent) : Prop where
  text?_eq : extent.text? source = some chunk.content
  startLine_eq : chunk.startLine = source.lineAt extent.start
  lineAt_le : ∀ byte, extent.start ≤ byte → byte < extent.stop →
    source.lineAt byte ≤ chunk.endLine

/-- The content of a chunk is put together from extents of a text: it is their texts, one below the
other. The extents are at least one, they follow one another without overlap, the chunk starts on
the line of the first byte, and every byte is on one of its lines. -/
structure PiecedFrom (source : Source) (chunk : Chunk) (extents : List Extent) : Prop where
  content_eq : ∃ texts, extents.map (Extent.text? source) = texts.map some ∧
    chunk.content = "\n".intercalate texts
  forward : ∀ extent ∈ extents, extent.start ≤ extent.stop
  ordered : extents.Pairwise fun extent later => extent.stop ≤ later.start
  startLine_eq : ∃ first ∈ extents.head?, chunk.startLine = source.lineAt first.start
  lines : ∀ extent ∈ extents, ∀ byte, extent.start ≤ byte → byte < extent.stop →
    chunk.containsLine (source.lineAt byte) = true

/-! ## Pieces -/

variable {source : Source}

/-- An extent that a chunk shows does not run backwards. -/
lemma Shows.forward {chunk : Chunk} {extent : Extent} (h : chunk.Shows source extent) :
    extent.start ≤ extent.stop :=
  ((Text.slice?_isSome_iff source.text extent.start extent.stop).1
    (by rw [show Text.slice? _ _ _ = _ from h.text?_eq]; rfl)).1

/-- All bytes of the extent that a chunk shows are on its lines. -/
lemma Shows.containsLine {chunk : Chunk} {extent : Extent} (h : chunk.Shows source extent)
    {byte : Nat} (hLow : extent.start ≤ byte) (hHigh : byte < extent.stop) :
    chunk.containsLine (source.lineAt byte) = true := by
  rw [containsLine_iff, h.startLine_eq]
  exact ⟨source.lineAt_mono hLow, h.lineAt_le byte hLow hHigh⟩

/-- A chunk that shows an extent is put together from it alone. -/
private lemma Shows.piecedFrom {chunk : Chunk} {extent : Extent} (h : chunk.Shows source extent) :
    chunk.PiecedFrom source [extent] where
  content_eq := ⟨[chunk.content], by simp [h.text?_eq], by simp⟩
  forward := by simpa using h.forward
  ordered := List.pairwise_singleton _ _
  startLine_eq := ⟨extent, rfl, h.startLine_eq⟩
  lines := by
    intro e he byte hLow hHigh
    rw [List.mem_singleton] at he
    subst he
    exact h.containsLine hLow hHigh

/-- The number of a chunk does not matter to what it is put together from. -/
private lemma PiecedFrom.number {chunk : Chunk} {extents : List Extent}
    (h : chunk.PiecedFrom source extents) (index : Nat) :
    PiecedFrom source { chunk with index } extents :=
  ⟨h.content_eq, h.forward, h.ordered, h.startLine_eq, h.lines⟩

/-- A merger with a chunk that lies behind all extents is put together from one extent more.

**Proof sketch.** The content of the merger ends in that of `next`, joined to what was there by a
newline. The new extent lies behind all others, so they stay in order, and the first one stays the
first; the lines of a merger contain those of both chunks. -/
private lemma PiecedFrom.merge {chunk next : Chunk} {extents : List Extent} {extent : Extent}
    (h : chunk.PiecedFrom source extents) (hNext : next.Shows source extent)
    (hBehind : ∀ e ∈ extents, e.stop ≤ extent.start)
    (hStart : chunk.startLine ≤ next.startLine) :
    PiecedFrom source (merge chunk next) (extents ++ [extent]) where
  content_eq := by
    obtain ⟨texts, hTexts, hContent⟩ := h.content_eq
    refine ⟨texts ++ [next.content], by simp [hTexts, hNext.text?_eq], ?_⟩
    have hSome : texts ≠ [] := by
      rintro rfl
      obtain ⟨first, hFirst, -⟩ := h.startLine_eq
      rw [List.map_nil, List.map_eq_nil_iff] at hTexts
      rw [hTexts] at hFirst
      cases hFirst
    obtain ⟨front, last, rfl⟩ := (List.eq_nil_or_concat' texts).resolve_left hSome
    show joinedContent chunk next = _
    rw [joinedContent, hContent, ← String.toList_inj, String.toList_append, String.toList_append,
      Text.intercalate_append_toList (front ++ [last]) (List.cons_ne_nil _ _),
      Text.intercalate_append_toList front (List.cons_ne_nil _ _)]
    simp [Text.linesAbove]
  forward := by
    intro e he
    rcases List.mem_append.1 he with he | he
    · exact h.forward e he
    · rw [List.mem_singleton.1 he]
      exact hNext.forward
  ordered := by
    refine List.pairwise_append.2 ⟨h.ordered, List.pairwise_singleton _ _, ?_⟩
    intro e he later hLater
    rw [List.mem_singleton.1 hLater]
    exact hBehind e he
  startLine_eq := by
    obtain ⟨first, hFirst, hLine⟩ := h.startLine_eq
    refine ⟨first, ?_, hLine⟩
    rw [Option.mem_def] at hFirst ⊢
    rw [List.head?_append, hFirst]
    rfl
  lines := by
    intro e he byte hLow hHigh
    rcases List.mem_append.1 he with he | he
    · exact containsLine_merge_left next (h.lines e he byte hLow hHigh)
    · rw [List.mem_singleton.1 he] at hLow hHigh
      exact containsLine_merge_right hStart (hNext.containsLine hLow hHigh)

/-! ## Layouts -/

/-- Of two neighbours with their extents, the second starts no earlier, and it lies behind the first
or is barred from a merger with it. -/
structure Follows (budget : Budget) (placed next : Chunk × Extent) : Prop where
  start_le : placed.2.start ≤ next.2.start
  behind_or_barred : placed.2.stop ≤ next.2.start ∨ Barred budget placed.1 next.1

/-- Chunks are laid out over the bytes from `low` up to `high`: each shows an extent in there, and
neighbours follow one another. -/
def LaidOut (budget : Budget) (source : Source) (low high : Nat) (chunks : List Chunk) : Prop :=
  ∃ placed : List (Chunk × Extent), placed.map Prod.fst = chunks ∧
    placed.IsChain (Follows budget) ∧
    ∀ p ∈ placed, p.1.Shows source p.2 ∧ low ≤ p.2.start ∧ p.2.stop ≤ high

variable {budget : Budget} {low middle high : Nat}

/-- No chunk is laid out anywhere. -/
private lemma laidOut_nil : LaidOut budget source low high [] :=
  ⟨[], rfl, List.IsChain.nil, by simp⟩

/-- A layout extends to lower and higher bytes. -/
private lemma LaidOut.mono {chunks : List Chunk} {low' high' : Nat}
    (h : LaidOut budget source low high chunks) (hLow : low' ≤ low) (hHigh : high ≤ high') :
    LaidOut budget source low' high' chunks := by
  obtain ⟨placed, hMap, hChain, hPlaced⟩ := h
  refine ⟨placed, hMap, hChain, fun p hp => ?_⟩
  obtain ⟨hShows, hStart, hStop⟩ := hPlaced p hp
  exact ⟨hShows, Nat.le_trans hLow hStart, Nat.le_trans hStop hHigh⟩

/-- Two layouts, one behind the other, make up one layout. -/
private lemma LaidOut.append {chunks others : List Chunk}
    (h : LaidOut budget source low middle chunks)
    (hOthers : LaidOut budget source middle high others) (hLow : low ≤ middle)
    (hHigh : middle ≤ high) : LaidOut budget source low high (chunks ++ others) := by
  obtain ⟨placed, hMap, hChain, hPlaced⟩ := h
  obtain ⟨behind, hMapBehind, hChainBehind, hPlacedBehind⟩ := hOthers
  refine ⟨placed ++ behind, by rw [List.map_append, hMap, hMapBehind], ?_, ?_⟩
  · refine List.isChain_append.2 ⟨hChain, hChainBehind, fun p hp q hq => ?_⟩
    obtain ⟨hShows, -, hStop⟩ := hPlaced p (List.mem_of_getLast? hp)
    obtain ⟨-, hStart, -⟩ := hPlacedBehind q (List.mem_of_head? hq)
    have hForward := hShows.forward
    exact ⟨by omega, Or.inl (by omega)⟩
  · intro p hp
    rcases List.mem_append.1 hp with hp | hp
    · obtain ⟨hShows, hStart, hStop⟩ := hPlaced p hp
      exact ⟨hShows, hStart, by omega⟩
    · obtain ⟨hShows, hStart, hStop⟩ := hPlacedBehind p hp
      exact ⟨hShows, by omega, hStop⟩

/-- What is said of chunks over a range of bytes is said of no chunk, of the same chunks over a
wider range, and of chunks over two ranges, one behind the other. -/
structure Serial (P : Nat → Nat → List Chunk → Prop) : Prop where
  nil : ∀ {low high}, P low high []
  mono : ∀ {low high chunks low' high'}, P low high chunks → low' ≤ low → high ≤ high' →
    P low' high' chunks
  append : ∀ {low middle high chunks others}, P low middle chunks → P middle high others →
    low ≤ middle → middle ≤ high → P low high (chunks ++ others)

/-- Layouts are serial. -/
private lemma serial_laidOut : Serial (LaidOut budget source) :=
  ⟨laidOut_nil, LaidOut.mono, LaidOut.append⟩

/-- The chunk that the merge pass carries along is put together from extents, and the chunk that
came last starts no earlier, is no longer, and ends behind all extents. -/
structure Carries (source : Source) (chunk : Chunk) (extents : List Extent)
    (last : Chunk × Extent) : Prop where
  pieced : chunk.PiecedFrom source extents
  shows_last : last.1.Shows source last.2
  startLine_le : chunk.startLine ≤ last.1.startLine
  length_le : last.1.content.length ≤ chunk.content.length
  stop_le : ∀ e ∈ extents, e.stop ≤ last.2.stop

/-- A chunk by itself is carried along. -/
lemma Shows.carries {chunk : Chunk} {extent : Extent} (h : chunk.Shows source extent) :
    Carries source chunk [extent] (chunk, extent) :=
  ⟨h.piecedFrom, h, Nat.le_refl _, Nat.le_refl _, by simp⟩

/-- A merger is carried along: a chunk is merged only with one that lies behind all its extents. -/
private lemma Carries.merge {chunk : Chunk} {extents : List Extent} {last next : Chunk × Extent}
    (h : Carries source chunk extents last) (hFollows : Follows budget last next)
    (hNext : next.1.Shows source next.2) (hMergeable : mergeable budget chunk next.1 = true) :
    Carries source (merge chunk next.1) (extents ++ [next.2]) next := by
  have hBehind : last.2.stop ≤ next.2.start := by
    refine hFollows.behind_or_barred.resolve_right fun hBarred => ?_
    rw [hBarred.not_mergeable h.startLine_le h.length_le] at hMergeable
    cases hMergeable
  have hStart : chunk.startLine ≤ next.1.startLine := by
    refine Nat.le_trans h.startLine_le ?_
    rw [h.shows_last.startLine_eq, hNext.startLine_eq]
    exact source.lineAt_mono hFollows.start_le
  refine ⟨h.pieced.merge hNext ?_ hStart, hNext, hStart, ?_, ?_⟩
  · exact fun e he => Nat.le_trans (h.stop_le e he) hBehind
  · show next.1.content.length ≤ (joinedContent chunk next.1).length
    rw [length_joinedContent]
    omega
  · intro e he
    have hForward := hNext.forward
    rcases List.mem_append.1 he with he | he
    · have := h.stop_le e he
      omega
    · rw [List.mem_singleton.1 he]

/-- What the merge pass makes of laid-out chunks is put together from extents.

**Proof sketch.** Induction on the chunks that are left. The chunk that is carried is put together
from extents up to that of `last`; it takes up the next one if they are merged, and otherwise it is
done and the next one is carried. -/
private lemma exists_piecedFrom_of_mem_mergeFrom (rest : List (Chunk × Extent)) :
    ∀ (chunk : Chunk) (extents : List Extent) (last : Chunk × Extent),
      Carries source chunk extents last → (last :: rest).IsChain (Follows budget) →
      (∀ p ∈ rest, p.1.Shows source p.2) →
      ∀ c ∈ mergeFrom budget chunk (rest.map Prod.fst), ∃ es, c.PiecedFrom source es := by
  induction rest with
  | nil =>
    intro chunk extents last hCarries _ _ c hc
    rw [List.map_nil, mergeFrom, List.mem_singleton] at hc
    subst hc
    exact ⟨extents, hCarries.pieced⟩
  | cons next rest ih =>
    intro chunk extents last hCarries hChain hShows c hc
    rw [List.isChain_cons_cons] at hChain
    have hNext := hShows next List.mem_cons_self
    have hRest : ∀ p ∈ rest, p.1.Shows source p.2 :=
      fun p hp => hShows p (List.mem_cons_of_mem _ hp)
    rw [List.map_cons, mergeFrom] at hc
    split at hc
    · next hMergeable =>
      exact ih _ _ next (hCarries.merge hChain.1 hNext hMergeable) hChain.2 hRest c hc
    · rcases List.mem_cons.1 hc with rfl | hc
      · exact ⟨extents, hCarries.pieced⟩
      · exact ih _ _ next hNext.carries hChain.2 hRest c hc

/-- Laid-out chunks are in the order of their first lines. -/
lemma LaidOut.pairwise {chunks : List Chunk} (h : LaidOut budget source low high chunks) :
    chunks.Pairwise fun a b => a.startLine ≤ b.startLine := by
  obtain ⟨placed, rfl, hChain, hPlaced⟩ := h
  have hStarts : placed.Pairwise fun p q => p.2.start ≤ q.2.start := by
    have hImp : (placed.map fun p => p.2.start).IsChain (· ≤ ·) :=
      List.isChain_map_of_isChain _ (fun p q hFollows => hFollows.start_le) hChain
    exact List.pairwise_map.1 hImp.pairwise
  refine List.pairwise_map.2 (hStarts.imp_of_mem fun {p q} hp hq hStart => ?_)
  rw [(hPlaced p hp).1.startLine_eq, (hPlaced q hq).1.startLine_eq]
  exact source.lineAt_mono hStart

/-- **Laid-out chunks give pieced chunks.** Arranging makes of laid-out chunks such that are put
together from extents.

**Proof sketch.** Laid-out chunks are in order, so sorting leaves them, and the merge pass starts
with the first one and its extent. -/
theorem exists_piecedFrom_of_mem_arrange {chunks : List Chunk}
    (h : LaidOut budget source low high chunks) :
    ∀ c ∈ arrange budget chunks, ∃ extents, c.PiecedFrom source extents := by
  intro c hc
  rw [arrange_of_pairwise h.pairwise] at hc
  obtain ⟨old, hOld, index, rfl⟩ := mem_numbered hc
  obtain ⟨placed, rfl, hChain, hPlaced⟩ := h
  cases placed with
  | nil => simp [mergeAll] at hOld
  | cons first rest =>
    obtain ⟨extents, hPieced⟩ := exists_piecedFrom_of_mem_mergeFrom rest first.1 [first.2] first
      (hPlaced first List.mem_cons_self).1.carries hChain
      (fun p hp => (hPlaced p (List.mem_cons_of_mem _ hp)).1) old hOld
    exact ⟨extents, hPieced.number index⟩

/-! ## Parts of a text -/

/-- A chunk whose content is a part of the text shows its extent, if it starts on the line behind
the newlines before the part and ends no earlier than the part.

**Proof sketch.** The part is a slice of the text because of where it stands. The line at a byte of
the part is at most that of its last byte, and that is the last one of the lines that the part spans
(`Source.lineSpan_eq`). -/
lemma shows_of_part {before part after : List Char}
    (hText : source.text.toList = before ++ part ++ after) {chunk : Chunk}
    (hContent : chunk.content.toList = part) (hStart : chunk.startLine = before.count '\n' + 1)
    (hEnd : before.count '\n' + Text.lineCount chunk.content ≤ chunk.endLine) :
    chunk.Shows source ⟨utf8Len before, utf8Len (before ++ part)⟩ where
  text?_eq := by
    refine (Text.slice?_eq_some_iff _ _ _ _).2
      ⟨String.ofList before, String.ofList after, ?_, ?_, ?_⟩
    · rw [← String.toList_inj, hText, String.toList_append, String.toList_append, hContent,
        String.toList_ofList, String.toList_ofList]
    · rw [utf8ByteSize_ofList]
    · rw [← utf8Len_toList, String.toList_append, String.toList_ofList, hContent]
  startLine_eq := by
    rw [hStart]
    exact (source.lineAt_utf8Len (hText.trans (List.append_assoc ..))).symm
  lineAt_le := by
    intro byte hLow hHigh
    have hPart : part ≠ [] := by
      rintro rfl
      rw [List.append_nil] at hHigh
      exact absurd hHigh (Nat.not_lt.2 hLow)
    have hSpan := congrArg Prod.snd (source.lineSpan_eq hText hPart)
    have hLast : source.lineAt byte ≤
        source.lineAt (max (utf8Len (before ++ part) - 1) (utf8Len before)) := by
      refine source.lineAt_mono ?_
      change byte < utf8Len (before ++ part) at hHigh
      omega
    rw [← hContent, String.ofList_toList] at hSpan
    rw [hContent] at hSpan
    exact Nat.le_trans hLast (Nat.le_trans (Nat.le_of_eq hSpan) hEnd)

end Chunk

/-! ## Windows and stretches -/

namespace Text

/-- More lines above take up no fewer bytes. -/
private lemma utf8Len_linesAbove_take_le (lines : List String) {m n : Nat} (h : m ≤ n) :
    utf8Len (linesAbove (lines.take m)) ≤ utf8Len (linesAbove (lines.take n)) := by
  obtain ⟨k, rfl⟩ := Nat.exists_eq_add_of_le h
  rw [List.take_add, linesAbove, linesAbove, List.flatMap_append, utf8Len_append]
  exact Nat.le_add_right _ _

end Text

namespace Window

/-- The extent of a window of a part of a text whose first line has the given number. -/
def extent (before part : List Char) (firstLine : Nat) (window : Window) : Extent :=
  let front := before ++
    Text.linesAbove ((Text.splitLines (String.ofList part)).take (window.startLine - firstLine))
  ⟨utf8Len front, utf8Len (front ++ window.content.toList)⟩

/-- The chunk of a window shows the window's extent, which lies in the part that was split.

**Proof sketch.** The lines of the part that are above the window, each with its newline, stand
between the start of the part and the window. There are as many newlines as lines above it, so the
window starts on the line that the newlines before it say, and `Chunk.shows_of_part` applies. -/
private lemma shows_extent {source : Source} {budget : Budget} {before part after : List Char}
    (hText : source.text.toList = before ++ part ++ after) {window : Window}
    (hMem : window ∈ split budget (String.ofList part) (before.count '\n' + 1))
    (path : String) (kind : ChunkKind) (metadata : ChunkMetadata) :
    (window.toChunk path kind metadata).Shows source
        (window.extent before part (before.count '\n' + 1)) ∧
      utf8Len before ≤ (window.extent before part (before.count '\n' + 1)).start ∧
      (window.extent before part (before.count '\n' + 1)).stop ≤ utf8Len (before ++ part) := by
  obtain ⟨hLines, front, back, hSplit, hStart⟩ := exists_append_of_mem_split hMem
  have hNewline : ∀ line ∈ Text.splitLines (String.ofList part), '\n' ∉ line.toList :=
    fun line hLine => Text.newline_notMem_of_mem_splitLines hLine
  have hTake : (Text.splitLines (String.ofList part)).take
      (window.startLine - (before.count '\n' + 1)) = front := by
    rw [hStart, Nat.add_sub_cancel_left, hSplit, List.append_assoc, List.take_left]
  obtain ⟨rest, hPart⟩ := Text.exists_eq_linesAbove_append hSplit hLines
  rw [String.toList_ofList] at hPart
  have hAll : source.text.toList =
      (before ++ Text.linesAbove front) ++ window.content.toList ++ (rest ++ after) := by
    rw [hText, hPart]
    simp [content]
  have hCount : (before ++ Text.linesAbove front).count '\n' =
      before.count '\n' + front.length := by
    rw [List.count_append, Text.count_linesAbove]
    intro line hLine
    exact hNewline line (by rw [hSplit]; simp [hLine])
  have hContentLines : Text.lineCount window.content ≤ window.lines.length :=
    Text.lineCount_intercalate_le fun line hLine => hNewline line (by rw [hSplit]; simp [hLine])
  have hPos := List.length_pos_iff.2 hLines
  rw [extent, hTake]
  refine ⟨Chunk.shows_of_part hAll rfl ?_ ?_, ?_, ?_⟩
  · show window.startLine = _
    rw [hCount, hStart]
    omega
  · show _ ≤ window.startLine + window.lines.length - 1
    rw [hCount, hStart]
    change _ + Text.lineCount window.content ≤ _
    omega
  · show utf8Len before ≤ utf8Len (before ++ Text.linesAbove front)
    rw [utf8Len_append]
    exact Nat.le_add_right _ _
  · show utf8Len (before ++ Text.linesAbove front ++ window.content.toList) ≤ _
    rw [hPart]
    simp only [content, utf8Len_append]
    omega

/-- The chunks of the windows of a part of a text are laid out over the part. -/
lemma laidOut_split {source : Source} (budget : Budget) {before part after : List Char}
    (hText : source.text.toList = before ++ part ++ after) (path : String) (kind : ChunkKind)
    (metadata : ChunkMetadata) :
    Chunk.LaidOut budget source (utf8Len before) (utf8Len (before ++ part))
      ((split budget (String.ofList part) (before.count '\n' + 1)).map
        (toChunk path kind metadata)) := by
  refine ⟨(split budget (String.ofList part) (before.count '\n' + 1)).map fun window =>
    (window.toChunk path kind metadata, window.extent before part (before.count '\n' + 1)),
    by simp, ?_, ?_⟩
  · refine List.isChain_map_of_isChain _ (fun window next hClosed => ?_)
      (isChain_split budget (String.ofList part) (before.count '\n' + 1))
    refine ⟨?_, Or.inr (hClosed.barred path kind metadata)⟩
    have hEarlier := hClosed.startLine_lt
    have hBytes := Text.utf8Len_linesAbove_take_le (Text.splitLines (String.ofList part))
      (Nat.sub_le_sub_right (Nat.le_of_lt hEarlier) (before.count '\n' + 1))
    simp only [extent, utf8Len_append]
    omega
  · intro p hp
    obtain ⟨window, hWindow, rfl⟩ := List.mem_map.1 hp
    exact shows_extent hText hWindow path kind metadata

end Window

namespace Cutting

/-- The chunks of a stretch that is a part of the text are laid out over it. -/
private lemma laidOut_stretch (cutting : Cutting) {before part after : List Char}
    (hText : cutting.source.text.toList = before ++ part ++ after) (hPart : part ≠ [])
    (kind : ChunkKind) (metadata : ChunkMetadata) :
    Chunk.LaidOut cutting.budget cutting.source (utf8Len before) (utf8Len (before ++ part))
      (cutting.stretch (utf8Len before) (utf8Len (before ++ part)) (String.ofList part) kind
        metadata) := by
  unfold stretch
  rw [cutting.source.lineSpan_eq hText hPart]
  dsimp only
  split
  · refine ⟨[(_, ⟨utf8Len before, utf8Len (before ++ part)⟩)], rfl, List.isChain_singleton _, ?_⟩
    intro p hp
    rw [List.mem_singleton] at hp
    subst hp
    exact ⟨Chunk.shows_of_part hText (String.toList_ofList) rfl (Nat.le_refl _), Nat.le_refl _,
      Nat.le_refl _⟩
  · exact Window.laidOut_split cutting.budget hText cutting.path kind metadata

/-- What is serial and holds of every stretch holds of the chunks of regions that precede one
another.

**Proof sketch.** Induction on the regions. A region without bytes gives no chunk. The chunks of
another are a stretch within it, and those of the later regions come behind it. -/
private lemma over_regions (cutting : Cutting) {P : Nat → Nat → List Chunk → Prop}
    (hSerial : Chunk.Serial P)
    (hStretch : ∀ {before part after : List Char} (kind : ChunkKind) (metadata : ChunkMetadata),
      cutting.source.text.toList = before ++ part ++ after → part ≠ [] →
      P (utf8Len before) (utf8Len (before ++ part)) (cutting.stretch (utf8Len before)
        (utf8Len (before ++ part)) (String.ofList part) kind metadata))
    (regions : List Region) :
    ∀ (low : Nat) (parts : List (List Chunk)), low ≤ cutting.source.text.utf8ByteSize →
      regions.mapM cutting.region = .ok parts → regions.Pairwise Region.Precedes →
      (∀ region ∈ regions, low ≤ region.start ∨ region.stop ≤ region.start) →
      P low cutting.source.text.utf8ByteSize parts.flatten := by
  induction regions with
  | nil =>
    intro low parts _ h _ _
    obtain rfl : [] = parts := Except.ok.inj h
    exact hSerial.nil
  | cons region rest ih =>
    intro low parts hLow h hOrder hAhead
    rw [List.mapM_cons] at h
    obtain ⟨part, hRegion, h⟩ := bind_eq_ok_iff.1 h
    obtain ⟨others, hRest, h⟩ := bind_eq_ok_iff.1 h
    obtain rfl : part :: others = parts := Except.ok.inj h
    rw [List.pairwise_cons] at hOrder
    rw [List.flatten_cons]
    rcases exists_stretch_eq_of_region hRegion with rfl | hPart
    · rw [List.nil_append]
      exact ih low others hLow hRest hOrder.2
        fun later hLater => hAhead later (List.mem_cons_of_mem _ hLater)
    · obtain ⟨before, text, after, kind, metadata, hText, hPart, hStart, hStop, rfl⟩ := hPart
      have hSize : utf8Len (before ++ text) ≤ cutting.source.text.utf8ByteSize := by
        rw [← utf8Len_toList, hText, utf8Len_append (before ++ text)]
        exact Nat.le_add_right _ _
      have hBytes : utf8Len before < utf8Len (before ++ text) := by
        rw [utf8Len_append]
        have := Nat.pos_of_ne_zero (mt String.utf8Len_eq_zero.1 hPart)
        omega
      have hRegionStart : low ≤ region.start :=
        (hAhead region List.mem_cons_self).resolve_right (by omega)
      have hLater := ih (utf8Len (before ++ text)) others hSize hRest hOrder.2 (by
        intro later hLater
        exact (hOrder.1 later hLater).imp_left (Nat.le_trans hStop))
      exact hSerial.append (hSerial.mono (hStretch kind metadata hText hPart)
        (Nat.le_trans hRegionStart hStart) (Nat.le_refl _)) hLater (by omega) hSize

/-- **Along a fitting tree,** what is serial and holds of every stretch holds of the chunks over the
whole text.

**Proof sketch.** The chunks are the concatenation of those of the regions, and the regions of a
fitting tree precede one another, so serial statements can be put one behind the other
(`over_regions`). -/
theorem over_tree {cutting : Cutting} {P : Nat → Nat → List Chunk → Prop}
    (hSerial : Chunk.Serial P)
    (hStretch : ∀ {before part after : List Char} (kind : ChunkKind) (metadata : ChunkMetadata),
      cutting.source.text.toList = before ++ part ++ after → part ≠ [] →
      P (utf8Len before) (utf8Len (before ++ part)) (cutting.stretch (utf8Len before)
        (utf8Len (before ++ part)) (String.ofList part) kind metadata))
    {root : ParseTree} {chunks : List Chunk} (hFits : root.Fits cutting.source.text)
    (h : cutting.tree root = .ok chunks) (hChunks : chunks ≠ []) :
    P 0 cutting.source.text.utf8ByteSize chunks := by
  obtain ⟨parts, hParts, rfl⟩ := exists_mapM_regions_of_tree_eq_ok h hChunks
  exact cutting.over_regions hSerial hStretch _ 0 parts (Nat.zero_le _) hParts
    (cutting.pairwise_precedes_regions hFits) fun region _ => Or.inl (Nat.zero_le _)

/-- **The chunks along a fitting tree are laid out** over the text.

**Proof sketch.** A layout is serial and holds of every stretch (`laidOut_stretch`), so it holds
over the whole text (`over_tree`). -/
theorem laidOut_tree {cutting : Cutting} {root : ParseTree} {chunks : List Chunk}
    (hFits : root.Fits cutting.source.text) (h : cutting.tree root = .ok chunks)
    (hChunks : chunks ≠ []) :
    Chunk.LaidOut cutting.budget cutting.source 0 cutting.source.text.utf8ByteSize chunks :=
  over_tree Chunk.serial_laidOut
    (fun kind metadata hText hPart => cutting.laidOut_stretch hText hPart kind metadata)
    hFits h hChunks

end Cutting

/-! ## Files -/

/-- The trees that a file may be cut along fit its content: the tree that it comes with if there is
one, and otherwise all that grammars make of the content. -/
def SourceFile.TreesFit (grammars : Grammars) (file : SourceFile) : Prop :=
  match file.tree? with
  | some root => root.Fits file.content
  | none => ∀ language root, grammars language file.content = some root → root.Fits file.content

/-- The tree that a file has in the end fits its content. -/
lemma ParserPool.fits_of_treeOf {pool : ParserPool} {grammars : Grammars} {file : SourceFile}
    (hTrees : file.TreesFit grammars) {language : Language} {root : ParseTree}
    (h : (pool.treeOf grammars language file.content file.tree?).result = .ok root) :
    root.Fits file.content := by
  unfold SourceFile.TreesFit at hTrees
  cases hTree : file.tree? with
  | some tree =>
    rw [hTree] at hTrees h
    obtain rfl : tree = root := Except.ok.inj h
    exact hTrees
  | none =>
    rw [hTree] at hTrees h
    simp only [treeOf, parse] at h
    split at h
    · cases h
    · split at h
      · next tree hParsed =>
        obtain rfl := Except.ok.inj h
        exact hTrees language tree hParsed
      · cases h

namespace Chunker

/-- The rough chunks of a file are laid out over its content. -/
private lemma laidOut_roughCut (chunker : Chunker) {grammars : Grammars} {file : SourceFile}
    (hTrees : file.TreesFit grammars) :
    Chunk.LaidOut chunker.budget (.ofText file.content) 0 file.content.utf8ByteSize
      (chunker.roughCut grammars file) := by
  rcases chunker.roughCut_cases grammars file with hLines | ⟨language, root, hAlong⟩
  · have hText : (Source.ofText file.content).text.toList = [] ++ file.content.toList ++ [] := by
      simp [Source.ofText]
    have hWindows := Window.laidOut_split chunker.budget hText file.path .block
      { language := Language.label file.path }
    rw [List.nil_append, utf8Len_toList, String.ofList_toList] at hWindows
    rw [hLines]
    exact hWindows
  · exact Cutting.laidOut_tree (ParserPool.fits_of_treeOf hTrees hAlong.parsed) hAlong.cut
      hAlong.nonempty

/-- **No chunk repeats source text.** If the tree that a file is cut along fits the file, or there
is none, the content of every chunk is put together from extents of the file that follow one another
without overlap, the chunk starts on the line of the first of them, and all their bytes are on its
lines.

In particular, wherever windows of one split stand among the chunks before they are arranged, the
chunks of the file are those merged up to a border between two of these windows, followed by those
merged behind it: no chunk is merged from windows on both sides.

**Proof sketch.** The chunks before they are arranged are laid out (`laidOut_roughCut`): each shows
an extent, and each extent ends before the next one starts. Arranging puts such chunks together one
by one (`Chunk.exists_piecedFrom_of_mem_arrange`). Neighbouring windows of one split are barred from
a merger, so the merge pass starts anew at the border between two of them (`Window.mergeAll_split`).
-/
theorem exists_piecedFrom_of_mem_chunkFile (chunker : Chunker) (grammars : Grammars)
    (file : SourceFile) (hTrees : file.TreesFit grammars) :
    (∀ chunk ∈ (chunker.chunkFile grammars file).chunks,
      ∃ extents, chunk.PiecedFrom (.ofText file.content) extents) ∧
    ∀ text firstLine left right, Window.split chunker.budget text firstLine = left ++ right →
      left ≠ [] → right ≠ [] →
      ∀ path kind metadata front back, chunker.roughCut grammars file =
          front ++ left.map (Window.toChunk path kind metadata) ++
            (right.map (Window.toChunk path kind metadata) ++ back) →
        (chunker.chunkFile grammars file).chunks ≠ [] →
        (chunker.chunkFile grammars file).chunks = Chunk.numbered
          (Chunk.mergeAll chunker.budget
              (front ++ left.map (Window.toChunk path kind metadata)) ++
            Chunk.mergeAll chunker.budget
              (right.map (Window.toChunk path kind metadata) ++ back)) := by
  have hLayout := chunker.laidOut_roughCut hTrees
  rw [chunks_chunkFile_eq]
  refine ⟨fun chunk hChunk => ?_, ?_⟩
  · split at hChunk
    · simp at hChunk
    · exact Chunk.exists_piecedFrom_of_mem_arrange hLayout chunk hChunk
  · intro text firstLine left right hSplit hLeft hRight path kind metadata front back hRough hSome
    split at hSome
    · exact absurd rfl hSome
    · next hAdmitted =>
      have hOrder := hLayout.pairwise
      rw [if_neg hAdmitted, Chunk.arrange_of_pairwise hOrder]
      rw [hRough] at hOrder ⊢
      rw [Window.mergeAll_split chunker.budget hSplit hLeft hRight path kind metadata back
        (List.pairwise_append.1 hOrder).1]

end Chunker

/-! ### A border between windows -/

namespace Seam

/-- A call that is too long for one chunk. -/
def content : String := "m!(aaaaaaaaaa,\nb,\nc(dddd))\n"

/-- The node of the call. -/
def call : ParseTree := .node ⟨"macro_invocation", true, none, 0, 26, 0, 2⟩ []

/-- The tree of the file, which holds no declaration. -/
def root : ParseTree := .node ⟨"source_file", true, none, 0, 27, 0, 3⟩ [call]

/-- The file, with its tree. -/
def file : SourceFile := ⟨"a.rs", content, some root⟩

/-- A chunker whose chunks have up to six tokens and share up to one. -/
def chunker : Chunker where
  budget := { maxTokens := 6, minTokens := 6, overlapTokens := 1, maxLines := 10 }
  valid := by decide
  pool := { provider := .bundled }

/-- The first window of the file. -/
def upper : Window := ⟨1, ["m!(aaaaaaaaaa,", "b,"]⟩

/-- The second window, which repeats a line of the first. -/
def lower : Window := ⟨2, ["b,", "c(dddd))"]⟩

/-- The chunk of a window of the file. -/
def toChunk : Window → Chunk := Window.toChunk "a.rs" .block { language := Language.label "a.rs" }

/-- The tree fits the file. -/
private lemma treesFit_file (grammars : Grammars) : file.TreesFit grammars := by
  refine .node (by decide +kernel) (by decide +kernel) (by decide +kernel) fun child hChild => ?_
  rw [List.mem_singleton] at hChild
  subst hChild
  exact .node (by decide +kernel) (by simp) List.Pairwise.nil (by simp)

/-- The file is cut into its two windows. -/
private lemma roughCut_file (grammars : Grammars) :
    chunker.roughCut grammars file = [toChunk upper, toChunk lower] := by
  have hCall : ChunkTarget.of? .rust ⟨call, [root]⟩ = none := by
    have hRule : ChunkRule.of? .rust call.kind = none := by decide +kernel
    rw [ChunkTarget.of?, ChunkTarget.match?, hRule]
    rfl
  have hTargets : ChunkTarget.collect .rust root = [] := by
    have hRoot : Cursor.namedChildren ⟨root, []⟩ = [⟨call, [root]⟩] := rfl
    have hBelow : Cursor.namedChildren ⟨call, [root]⟩ = [] := rfl
    simp [ChunkTarget.collect, ChunkTarget.gather, ChunkTarget.passed, ChunkTarget.found, hRoot,
      hBelow, hCall]
  have hCut : (chunker.cutting .rust file).tree root = .ok [] := by
    unfold Cutting.tree
    rw [show (chunker.cutting .rust file).language = .rust from rfl, hTargets, List.mergeSort_nil]
    rfl
  have hLines : Window.split chunker.budget content 1 = [upper, lower] := by decide +kernel
  have hDetect : chunker.pool.provider.detect file.path = some .rust := by decide +kernel
  have hBind : (Except.ok root >>= (chunker.cutting .rust file).tree) = .ok [] := hCut
  rw [Chunker.roughCut, hDetect]
  show (Chunker.cut chunker.budget .rust file (.ok root)).1 = _
  rw [Chunker.fst_cut, hBind]
  exact congrArg (List.map toChunk) hLines

/-- Two windows that share a line stay two chunks, and both are parts of the file. -/
theorem chunks_file : file.TreesFit (fun _ _ => none) ∧
    (chunker.chunkFile (fun _ _ => none) file).chunks =
      Chunk.numbered [toChunk upper, toChunk lower] ∧
    ∀ chunk ∈ (chunker.chunkFile (fun _ _ => none) file).chunks,
      ∃ extents, chunk.PiecedFrom (.ofText content) extents := by
  have hRough := roughCut_file fun _ _ => none
  have hTrees := treesFit_file fun _ _ => none
  have hAdmitted : ¬((skipReason? file.path file.content).isSome ∨ Text.allBlank file.content) := by
    decide +kernel
  have hSome : (chunker.chunkFile (fun _ _ => none) file).chunks ≠ [] := by
    rw [Chunker.chunks_chunkFile_eq, if_neg hAdmitted, ne_eq, Chunk.arrange_eq_nil_iff, hRough]
    exact List.cons_ne_nil _ _
  obtain ⟨hPieced, hApart⟩ :=
    chunker.exists_piecedFrom_of_mem_chunkFile (fun _ _ => none) file hTrees
  have hBorder : Window.split chunker.budget content 1 = [upper] ++ [lower] := by decide +kernel
  exact ⟨hTrees, hApart content 1 [upper] [lower] hBorder (by simp) (by simp) _ _ _ [] [] hRough
    hSome, hPieced⟩

end Seam
end CodeAtlas
