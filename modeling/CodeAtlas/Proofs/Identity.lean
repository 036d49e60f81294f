import Mathlib
import CodeAtlas.Proofs.Pieces

/-!
# Which chunks of a file share an identifier

An identifier is made of the path, the lines and the first digits of the content's hash. It can be
read from its end: digits have neither of the separators in them, so whatever the path looks like,
the parts are known. Hence two chunks of a file share an identifier exactly if they are on the same
lines and have the same content, as long as no two of the contents have the same first digits.

Chunks of a file that is cut along a fitting tree may do so, but only if both are on one line.
Of two chunks that start on the same line, the first ends on it: windows of one stretch start on
different lines, and a chunk of an earlier region ends before the next region starts. A merger keeps
this, as it starts with its first chunk and ends with its last line. Chunks of line windows start on
different lines and never share an identifier.

## Main definitions

* `CodeAtlas.Chunk.Precedes` — a chunk starts no later than another, and ends where it starts if the
  other starts there, too.

## Main results

* `CodeAtlas.Chunk.idOf_inj` — the parts of an identifier are known.
* `CodeAtlas.Chunk.id_create_eq_iff` — which chunks, of whatever files, share an identifier.
* `CodeAtlas.Chunk.pairwise_precedes_mergeFrom` — mergers keep the order of chunks.
* `CodeAtlas.Chunker.pairwise_precedes_roughCut` — the rough chunks of a file are in this order.
* `CodeAtlas.Chunker.nodup_id_chunkFile_of_lines` — line windows have identifiers of their own.
* `CodeAtlas.Chunker.pairwise_id_eq_iff_chunkFile` — which chunks of a file share an identifier.
-/

set_option autoImplicit false

namespace CodeAtlas

open String (utf8Len)

/-! ## Reading identifiers -/

/-- Two texts that are the same up to their last separator are the same before and behind it. -/
private lemma eq_of_append_cons_eq {α : Type} {separator : α} {front other back rest : List α}
    (hBack : separator ∉ back) (hRest : separator ∉ rest)
    (h : front ++ separator :: back = other ++ separator :: rest) :
    front = other ∧ back = rest := by
  rcases List.append_eq_append_iff.1 h with ⟨middle, hOther, hMiddle⟩ | ⟨middle, hFront, hMiddle⟩
  · cases middle with
    | nil => simp_all
    | cons c middle =>
      rw [List.cons_append, List.cons.injEq] at hMiddle
      exact absurd (by rw [hMiddle.2]; simp) hBack
  · cases middle with
    | nil => simp_all
    | cons c middle =>
      rw [List.cons_append, List.cons.injEq] at hMiddle
      exact absurd (by rw [hMiddle.2]; simp) hRest

namespace Text

/-- Numbers are written with digits only. -/
private lemma notMem_repr {c : Char} (hc : c.isDigit = false) (n : Nat) : c ∉ n.repr.toList := by
  intro hMem
  rw [Nat.repr_eq_ofList_toDigits, String.toList_ofList] at hMem
  have hDigit := Nat.isDigit_of_mem_toDigits (by decide) (Nat.le_refl 10) hMem
  rw [hc] at hDigit
  cases hDigit

/-- A hash is written with hexadecimal digits only. -/
private lemma colon_notMem_contentHash (text : String) : ':' ∉ (contentHash text).toList := by
  have hDigit : ∀ n < 16, Nat.digitChar n ≠ ':' := by decide
  have hHex : ∀ n, Sha256.hexDigit n ≠ ':' := fun n => hDigit _ (Nat.mod_lt n (by decide))
  rw [contentHash, String.toList_ofList]
  intro hMem
  obtain ⟨word, -, hMem⟩ := List.mem_flatMap.1 hMem
  obtain ⟨shift, -, hEq⟩ := List.mem_map.1 hMem
  exact hHex _ hEq

end Text

namespace Chunk

/-- **The parts of an identifier are known:** its path, its lines and the digits of the hash.

**Proof sketch.** Neither digits of a number nor those of a hash hold a separator, so the last colon
of the text is that before the hash, the last hyphen of what is left is that between the lines, and
the last colon of the rest stands before them. What is left is the path, whatever it holds. -/
theorem idOf_inj {path other : String} {start stop start' stop' : Nat} {content content' : String}
    (h : idOf path start stop (Text.contentHash content) =
      idOf other start' stop' (Text.contentHash content')) :
    path = other ∧ start = start' ∧ stop = stop' ∧
      (Text.contentHash content).toList.take idDigits =
        (Text.contentHash content').toList.take idDigits := by
  have hColon : ∀ text, ':' ∉ (Text.contentHash text).toList.take idDigits :=
    fun text hMem => Text.colon_notMem_contentHash text (List.mem_of_mem_take hMem)
  have hSeparators : ":".toList = [':'] ∧ "-".toList = ['-'] := ⟨rfl, rfl⟩
  have hList := congrArg String.toList h
  simp only [idOf, String.toList_append, String.toList_ofList, hSeparators, List.append_assoc,
    List.singleton_append] at hList
  -- the last colon stands before the hash, the last hyphen before it between the lines
  obtain ⟨hFront, hHash⟩ := eq_of_append_cons_eq (hColon content) (hColon content')
    (by simpa using hList :
      (path.toList ++ ':' :: start.repr.toList ++ '-' :: stop.repr.toList) ++ ':' :: _ =
        (other.toList ++ ':' :: start'.repr.toList ++ '-' :: stop'.repr.toList) ++ ':' :: _)
  obtain ⟨hFront, hStop⟩ := eq_of_append_cons_eq (Text.notMem_repr rfl stop)
    (Text.notMem_repr rfl stop') hFront
  obtain ⟨hPath, hStart⟩ := eq_of_append_cons_eq (Text.notMem_repr rfl start)
    (Text.notMem_repr rfl start') hFront
  exact ⟨String.toList_inj.1 hPath, Nat.repr_injective (String.toList_inj.1 hStart),
    Nat.repr_injective (String.toList_inj.1 hStop), hHash⟩

/-- **Identifiers decode uniquely.** Two chunks, of whatever files, share an identifier exactly if
they agree on the path, the lines and the first twelve digits of the content's hash. In particular,
separators in a path are not mistaken for those of the identifier.

**Proof sketch.** The identifier is made from these parts alone, and they are known from it
(`idOf_inj`). -/
theorem id_create_eq_iff (path other : String) (start stop start' stop' : Nat)
    (content content' : String) (kind kind' : ChunkKind) (metadata metadata' : ChunkMetadata) :
    let chunk := create path start stop content kind metadata
    let chunk' := create other start' stop' content' kind' metadata'
    chunk.id = chunk'.id ↔
      chunk.path = chunk'.path ∧ chunk.startLine = chunk'.startLine ∧
        chunk.endLine = chunk'.endLine ∧
        chunk.contentHash.toList.take 12 = chunk'.contentHash.toList.take 12 := by
  constructor
  · intro h
    exact idOf_inj h
  · rintro ⟨hPath, hStart, hStop, hDigits⟩
    obtain rfl : path = other := hPath
    obtain rfl : start = start' := hStart
    obtain rfl : stop = stop' := hStop
    exact congrArg (path ++ ":" ++ start.repr ++ "-" ++ stop.repr ++ ":" ++ String.ofList ·) hDigits

/-- Two chunks of a file share an identifier exactly if they are on the same lines and have the
same content, as long as the first digits of the hashes tell their contents apart. -/
private lemma BelongsTo.id_eq_iff {path text : String} {chunk other : Chunk}
    (h : chunk.BelongsTo path text) (hOther : other.BelongsTo path text)
    (hHash : chunk.contentHash.toList.take 12 = other.contentHash.toList.take 12 →
      chunk.content = other.content) :
    chunk.id = other.id ↔ chunk.startLine = other.startLine ∧ chunk.endLine = other.endLine ∧
      chunk.content = other.content := by
  have hId : chunk.id =
      idOf path chunk.startLine chunk.endLine (Text.contentHash chunk.content) := h.id_eq
  have hOtherId : other.id =
      idOf path other.startLine other.endLine (Text.contentHash other.content) := hOther.id_eq
  rw [hId, hOtherId]
  constructor
  · intro hEq
    obtain ⟨-, hStart, hEnd, hDigits⟩ := idOf_inj hEq
    refine ⟨hStart, hEnd, hHash ?_⟩
    rw [h.contentHash_eq, hOther.contentHash_eq]
    exact hDigits
  · rintro ⟨hStart, hEnd, hContent⟩
    rw [hStart, hEnd, hContent]

/-! ## Chunks in order -/

/-- A chunk starts no later than another, and ends where it starts if the other starts there,
too. -/
structure Precedes (chunk later : Chunk) : Prop where
  startLine_le : chunk.startLine ≤ later.startLine
  endLine_eq : chunk.startLine = later.startLine → chunk.endLine = chunk.startLine

/-- A chunk precedes those that start no earlier than it ends. -/
private lemma precedes_of_endLine_le {chunk later : Chunk}
    (hLines : chunk.startLine ≤ chunk.endLine) (h : chunk.endLine ≤ later.startLine) :
    Precedes chunk later :=
  ⟨Nat.le_trans hLines h, fun hEq => by omega⟩

/-- A chunk precedes those that start on a later line. -/
lemma precedes_of_startLine_lt {chunk later : Chunk} (h : chunk.startLine < later.startLine) :
    Precedes chunk later :=
  ⟨Nat.le_of_lt h, fun hEq => absurd hEq (Nat.ne_of_lt h)⟩

/-- A merger precedes what both of its chunks precede. -/
private lemma Precedes.merge {chunk next later : Chunk} (h : Precedes chunk next)
    (hLater : Precedes chunk later) (hNext : Precedes next later) :
    Precedes (merge chunk next) later := by
  refine ⟨hLater.startLine_le, fun hEq => ?_⟩
  have hStart : chunk.startLine = later.startLine := hEq
  have hLe := h.startLine_le
  have hNextLe := hNext.startLine_le
  have hSame : chunk.startLine = next.startLine := by omega
  have hEnd := h.endLine_eq hSame
  have hNextEnd := hNext.endLine_eq (by omega)
  show max chunk.endLine next.endLine = chunk.startLine
  omega

/-- Mergers start where some of the chunks start, in the same order. -/
lemma sublist_startLine_mergeFrom (budget : Budget) (rest : List Chunk) :
    ∀ chunk : Chunk, ((mergeFrom budget chunk rest).map startLine).Sublist
      ((chunk :: rest).map startLine) := by
  induction rest with
  | nil =>
    intro chunk
    exact List.Sublist.refl _
  | cons next rest ih =>
    intro chunk
    rw [mergeFrom]
    split
    · exact (ih (merge chunk next)).trans ((List.sublist_cons_self _ _).cons_cons _)
    · exact (ih next).cons_cons _

/-- Mergers keep the order of chunks.

**Proof sketch.** Induction on the chunks ahead. The chunk that is carried along precedes all of
them, and a merger with the next one still does. -/
theorem pairwise_precedes_mergeFrom (budget : Budget) (rest : List Chunk) :
    ∀ chunk : Chunk, (chunk :: rest).Pairwise Precedes →
      (mergeFrom budget chunk rest).Pairwise Precedes := by
  induction rest with
  | nil =>
    intro chunk _
    exact List.pairwise_singleton _ _
  | cons next rest ih =>
    intro chunk hOrder
    obtain ⟨hChunk, hRest⟩ := List.pairwise_cons.1 hOrder
    obtain ⟨hNext, hBehind⟩ := List.pairwise_cons.1 hRest
    rw [mergeFrom]
    split
    · refine ih (merge chunk next) (List.pairwise_cons.2 ⟨fun later hLater => ?_, hBehind⟩)
      exact (hChunk next List.mem_cons_self).merge
        (hChunk later (List.mem_cons_of_mem _ hLater)) (hNext later hLater)
    · refine List.pairwise_cons.2 ⟨fun later hLater => ?_, ih next hRest⟩
      -- only the first line of the later chunk matters, and it is one that was there before
      obtain ⟨old, hOld, hLine⟩ := List.mem_map.1
        ((sublist_startLine_mergeFrom budget rest next).subset (List.mem_map_of_mem hLater))
      have hPrecedes := hChunk old hOld
      exact ⟨hLine ▸ hPrecedes.startLine_le, fun hEq => hPrecedes.endLine_eq (hEq.trans hLine.symm)⟩

/-- Chunks in order are still in order when they are arranged. -/
private lemma pairwise_precedes_arrange (budget : Budget) {chunks : List Chunk}
    (h : chunks.Pairwise Precedes) : (arrange budget chunks).Pairwise Precedes := by
  rw [arrange_of_pairwise (h.imp Precedes.startLine_le)]
  refine pairwise_numbered (fun _ _ _ _ hPrecedes => ⟨hPrecedes.1, hPrecedes.2⟩) ?_
  cases chunks with
  | nil => exact List.Pairwise.nil
  | cons chunk rest => exact pairwise_precedes_mergeFrom budget rest chunk h

/-- Chunks that start on different lines still do so when they are arranged. -/
private lemma pairwise_startLine_lt_arrange (budget : Budget) {chunks : List Chunk}
    (h : chunks.Pairwise fun a b => a.startLine < b.startLine) :
    (arrange budget chunks).Pairwise fun a b => a.startLine < b.startLine := by
  rw [arrange_of_pairwise (h.imp Nat.le_of_lt)]
  refine pairwise_numbered (fun _ _ _ _ hLt => hLt) ?_
  cases chunks with
  | nil => exact List.Pairwise.nil
  | cons chunk rest =>
    exact List.pairwise_map.1
      ((List.pairwise_map.2 h).sublist (sublist_startLine_mergeFrom budget rest chunk))

end Chunk

/-! ## Windows and stretches -/

/-- The chunks of windows start on different lines. -/
lemma Window.pairwise_startLine_lt_split (budget : Budget) (text : String) (firstLine : Nat)
    (path : String) (kind : ChunkKind) (metadata : ChunkMetadata) :
    ((split budget text firstLine).map (toChunk path kind metadata)).Pairwise
      fun a b => a.startLine < b.startLine := by
  have hStarts : ((split budget text firstLine).map startLine).IsChain (· < ·) :=
    List.isChain_map_of_isChain _ (fun _ _ hClosed => hClosed.startLine_lt)
      (isChain_split budget text firstLine)
  exact List.pairwise_map.2 (List.pairwise_map.1 hStarts.pairwise)

/-- Chunks over bytes of a text are in order: each precedes those behind it, and all are on lines
from that of the first byte to that of the byte behind the last. -/
structure Chunk.Ordered (source : Source) (low high : Nat) (chunks : List Chunk) : Prop where
  pairwise : chunks.Pairwise Precedes
  lines : ∀ chunk ∈ chunks, source.lineAt low ≤ chunk.startLine ∧
    chunk.startLine ≤ chunk.endLine ∧ chunk.endLine ≤ source.lineAt high

/-- Orders carry over from ranges of bytes to those behind. -/
private lemma Chunk.serial_ordered (source : Source) : Serial (Ordered source) where
  nil := ⟨List.Pairwise.nil, by simp⟩
  mono h hLow hHigh := by
    refine ⟨h.pairwise, fun chunk hChunk => ?_⟩
    obtain ⟨hFirst, hOrder, hLast⟩ := h.lines chunk hChunk
    exact ⟨Nat.le_trans (source.lineAt_mono hLow) hFirst, hOrder,
      Nat.le_trans hLast (source.lineAt_mono hHigh)⟩
  append {low middle high chunks others} h hOthers hLow hHigh := by
    refine ⟨List.pairwise_append.2 ⟨h.pairwise, hOthers.pairwise, ?_⟩, fun chunk hChunk => ?_⟩
    · intro chunk hChunk later hLater
      obtain ⟨-, hOrder, hLast⟩ := h.lines chunk hChunk
      exact precedes_of_endLine_le hOrder (Nat.le_trans hLast (hOthers.lines later hLater).1)
    · rcases List.mem_append.1 hChunk with hChunk | hChunk
      · obtain ⟨hFirst, hOrder, hLast⟩ := h.lines chunk hChunk
        exact ⟨hFirst, hOrder, Nat.le_trans hLast (source.lineAt_mono hHigh)⟩
      · obtain ⟨hFirst, hOrder, hLast⟩ := hOthers.lines chunk hChunk
        exact ⟨Nat.le_trans (source.lineAt_mono hLow) hFirst, hOrder, hLast⟩

/-- The chunks of a stretch that is a part of the text are in order over it.

**Proof sketch.** The stretch is one chunk with the lines that the part spans
(`Source.lineSpan_eq`), or the windows of the part. These start on the line of the part, are in
order, and end no later than the part does. -/
private lemma Cutting.ordered_stretch (cutting : Cutting) {before part after : List Char}
    (kind : ChunkKind) (metadata : ChunkMetadata)
    (hText : cutting.source.text.toList = before ++ part ++ after) (hPart : part ≠ []) :
    Chunk.Ordered cutting.source (utf8Len before) (utf8Len (before ++ part))
      (cutting.stretch (utf8Len before) (utf8Len (before ++ part)) (String.ofList part) kind
        metadata) := by
  have hSpan := cutting.source.lineSpan_eq hText hPart
  have hFirst : cutting.source.lineAt (utf8Len before) = before.count '\n' + 1 :=
    congrArg Prod.fst hSpan
  have hLast : before.count '\n' + Text.lineCount (String.ofList part) ≤
      cutting.source.lineAt (utf8Len (before ++ part)) := by
    have hSecond : cutting.source.lineAt (max (utf8Len (before ++ part) - 1) (utf8Len before)) =
        before.count '\n' + Text.lineCount (String.ofList part) := congrArg Prod.snd hSpan
    rw [← hSecond]
    refine cutting.source.lineAt_mono ?_
    rw [String.utf8Len_append]
    omega
  unfold stretch
  rw [hSpan]
  dsimp only
  split
  · refine ⟨List.pairwise_singleton _ _, fun chunk hChunk => ?_⟩
    rw [List.mem_singleton] at hChunk
    subst hChunk
    have hOrder := cutting.source.lineSpan_le (utf8Len before) (utf8Len (before ++ part))
    rw [hSpan] at hOrder
    exact ⟨Nat.le_of_eq hFirst, hOrder, hLast⟩
  · refine ⟨(Window.pairwise_startLine_lt_split cutting.budget _ _ cutting.path kind metadata).imp
      Chunk.precedes_of_startLine_lt, fun chunk hChunk => ?_⟩
    obtain ⟨window, hWindow, rfl⟩ := List.mem_map.1 hChunk
    obtain ⟨hLow, hOrder, hHigh⟩ := Window.endLine_lt_of_mem_split hWindow
    refine ⟨?_, hOrder, ?_⟩
    · rw [hFirst]
      exact hLow
    · show window.endLine ≤ _
      omega

/-! ## Files -/

namespace Chunker

/-- The chunks of a file by line windows start on different lines. -/
lemma pairwise_startLine_lt_ofLines (budget : Budget) (path content : String) :
    (Chunk.ofLines budget path content).Pairwise fun a b => a.startLine < b.startLine :=
  Window.pairwise_startLine_lt_split budget content 1 path .block
    { language := Language.label path }

/-- The rough chunks of a file are in order, if the tree that it is cut along fits.

**Proof sketch.** Line windows start on later and later lines. Along a fitting tree, order is serial
and holds of every stretch (`Cutting.ordered_stretch`), so it holds over the whole text
(`Cutting.over_tree`). -/
theorem pairwise_precedes_roughCut (chunker : Chunker) {grammars : Grammars} {file : SourceFile}
    (hTrees : file.TreesFit grammars) :
    (chunker.roughCut grammars file).Pairwise Chunk.Precedes := by
  rcases chunker.roughCut_cases grammars file with hLines | ⟨language, root, hAlong⟩
  · rw [hLines]
    exact (pairwise_startLine_lt_ofLines _ _ _).imp Chunk.precedes_of_startLine_lt
  · exact (Cutting.over_tree (Chunk.serial_ordered _)
      (fun kind metadata => Cutting.ordered_stretch _ kind metadata)
      (ParserPool.fits_of_treeOf hTrees hAlong.parsed) hAlong.cut hAlong.nonempty).pairwise

/-- The chunks of a file belong to it. -/
lemma belongsTo_of_mem_chunkFile {chunker : Chunker} {grammars : Grammars} {file : SourceFile}
    {chunk : Chunk} (h : chunk ∈ (chunker.chunkFile grammars file).chunks) :
    chunk.BelongsTo file.path file.content := by
  rw [chunks_chunkFile_eq] at h
  split at h
  · cases h
  · exact (Chunk.inSequence_arrange _ fun c hc => belongsTo_of_mem_roughCut hc).belong chunk h

/-- The chunks of a file are in order, if the tree that it is cut along fits. -/
private lemma pairwise_precedes_chunkFile (chunker : Chunker) {grammars : Grammars}
    {file : SourceFile} (hTrees : file.TreesFit grammars) :
    (chunker.chunkFile grammars file).chunks.Pairwise Chunk.Precedes := by
  rw [chunks_chunkFile_eq]
  split
  · exact List.Pairwise.nil
  · exact Chunk.pairwise_precedes_arrange _ (chunker.pairwise_precedes_roughCut hTrees)

/-- The chunks of a file that is cut into line windows start on different lines. -/
private lemma pairwise_startLine_lt_chunkFile {chunker : Chunker} {grammars : Grammars}
    {file : SourceFile}
    (hLines : chunker.roughCut grammars file =
      Chunk.ofLines chunker.budget file.path file.content) :
    (chunker.chunkFile grammars file).chunks.Pairwise fun a b => a.startLine < b.startLine := by
  rw [chunks_chunkFile_eq]
  split
  · exact List.Pairwise.nil
  · rw [hLines]
    exact Chunk.pairwise_startLine_lt_arrange _ (pairwise_startLine_lt_ofLines _ _ _)

/-- **Line windows have identifiers of their own:** if a file is cut into line windows, no two of
its chunks share an identifier, whatever the digits of their hashes.

**Proof sketch.** The chunks start on different lines (`pairwise_startLine_lt_chunkFile`), and the
first line is known from an identifier (`Chunk.idOf_inj`). -/
theorem nodup_id_chunkFile_of_lines {chunker : Chunker} {grammars : Grammars} {file : SourceFile}
    (hLines : chunker.roughCut grammars file =
      Chunk.ofLines chunker.budget file.path file.content) :
    ((chunker.chunkFile grammars file).chunks.map Chunk.id).Nodup := by
  refine List.pairwise_map.2 ((pairwise_startLine_lt_chunkFile hLines).imp_of_mem
    fun {chunk later} hChunk hLater hLt hEq => ?_)
  rw [(belongsTo_of_mem_chunkFile hChunk).id_eq, (belongsTo_of_mem_chunkFile hLater).id_eq] at hEq
  have hStart : chunk.startLine = later.startLine := (Chunk.idOf_inj hEq).2.1
  omega

/-- **Which chunks share an identifier.** If the tree that a file is cut along fits the file, or
there is none, and the first digits of the hashes tell the contents of its chunks apart, then two
chunks of the file share an identifier exactly if they have the same content and are both on one
single line, the same for both. If the file is cut into line windows, no two chunks share an
identifier, whatever their contents.

**Proof sketch.** An identifier decodes to the lines and the digits (`Chunk.idOf_inj`), so two
chunks that share one are on the same lines and, by the assumption on the hashes, have the same
content. The earlier one precedes the later one (`pairwise_precedes_chunkFile`): as both start on
the same line, it also ends there, and so does the other one, which ends on the same line. Line
windows start on different lines and are told apart by that alone. -/
theorem pairwise_id_eq_iff_chunkFile (chunker : Chunker) (grammars : Grammars)
    (file : SourceFile) :
    (file.TreesFit grammars →
      (∀ chunk ∈ (chunker.chunkFile grammars file).chunks,
        ∀ other ∈ (chunker.chunkFile grammars file).chunks,
          chunk.contentHash.toList.take 12 = other.contentHash.toList.take 12 →
            chunk.content = other.content) →
      (chunker.chunkFile grammars file).chunks.Pairwise fun chunk later =>
        chunk.id = later.id ↔ chunk.content = later.content ∧
          chunk.startLine = later.startLine ∧ chunk.endLine = chunk.startLine ∧
          later.endLine = later.startLine) ∧
    (chunker.roughCut grammars file = Chunk.ofLines chunker.budget file.path file.content →
      ((chunker.chunkFile grammars file).chunks.map Chunk.id).Nodup) := by
  refine ⟨fun hTrees hHash => ?_, nodup_id_chunkFile_of_lines⟩
  refine (chunker.pairwise_precedes_chunkFile hTrees).imp_of_mem
    fun {chunk later} hChunk hLater hPrecedes => ?_
  rw [(belongsTo_of_mem_chunkFile hChunk).id_eq_iff (belongsTo_of_mem_chunkFile hLater)
    (hHash chunk hChunk later hLater)]
  constructor
  · rintro ⟨hStart, hEnd, hContent⟩
    have hSingle := hPrecedes.endLine_eq hStart
    exact ⟨hContent, hStart, hSingle, by omega⟩
  · rintro ⟨hContent, hStart, hSingle, hLaterSingle⟩
    exact ⟨hStart, by omega, hContent⟩

end Chunker

/-! ## One function twice -/

namespace Twins

/-- The text of a function. -/
def item : String := "fn a() \x7b\x7d"

/-- A file that holds the function twice, on one line or on two lines. -/
def content (apart : Bool) : String := item ++ (if apart then "\n" else " ") ++ item ++ "\n"

/-- The row of the second function. -/
def row (apart : Bool) : Nat := if apart then 1 else 0

/-- The node of one of the functions. -/
def function (start row : Nat) : ParseTree :=
  .node ⟨"function_item", true, none, start, start + 9, row, row⟩
    [.node ⟨"identifier", true, some "name", start + 3, start + 4, row, row⟩ []]

/-- The tree of the file. -/
def root (apart : Bool) : ParseTree :=
  .node ⟨"source_file", true, none, 0, 20, 0, row apart + 1⟩ [function 0 0, function 10 (row apart)]

/-- The file, with its tree. -/
def file (apart : Bool) : SourceFile := ⟨"a.rs", content apart, some (root apart)⟩

/-- A chunker that leaves small chunks alone. -/
def chunker : Chunker where
  budget := { minTokens := 0 }
  valid := by decide
  pool := { provider := .bundled }

/-- What the file is cut with. -/
def cutting (apart : Bool) : Cutting := ⟨chunker.budget, .rust, "a.rs", .ofText (content apart)⟩

/-- The chunk of a function on a line. -/
def toChunk (line : Nat) : Chunk :=
  Chunk.create "a.rs" line line item .function
    { language := "rust", functionName := some "a", signature := Text.headline item }

/-- One of the functions fits the file. -/
private lemma fits_function {apart : Bool} {start row : Nat}
    (h : (Text.slice? (content apart) start (start + 9)).isSome ∧
      (Text.slice? (content apart) (start + 3) (start + 4)).isSome) :
    (function start row).Fits (content apart) := by
  refine .node h.1 ?_ (List.pairwise_singleton _ _) ?_
  · intro child hChild
    rw [List.mem_singleton] at hChild
    subst hChild
    exact ⟨Nat.le_add_right start 3, Nat.add_le_add_left (by decide) start⟩
  · intro child hChild
    rw [List.mem_singleton] at hChild
    subst hChild
    exact .node h.2 (by simp) List.Pairwise.nil (by simp)

/-- The tree fits the file. -/
private lemma treesFit_file (grammars : Grammars) (apart : Bool) :
    (file apart).TreesFit grammars := by
  have hSlices : ∀ apart : Bool, (Text.slice? (content apart) 0 20).isSome ∧
      ∀ start ∈ [0, 10], (Text.slice? (content apart) start (start + 9)).isSome ∧
        (Text.slice? (content apart) (start + 3) (start + 4)).isSome := by decide +kernel
  obtain ⟨hRoot, hItems⟩ := hSlices apart
  refine .node hRoot ?_ (List.pairwise_pair.2 (by decide : 9 ≤ 10)) fun child hChild => ?_
  · intro child hChild
    rcases List.mem_pair.1 hChild with rfl | rfl
    · exact (by decide : 0 ≤ 0 ∧ 9 ≤ 20)
    · exact (by decide : 0 ≤ 10 ∧ 19 ≤ 20)
  rcases List.mem_pair.1 hChild with rfl | rfl
  · exact fits_function (hItems 0 (by simp))
  · exact fits_function (hItems 10 (by simp))

/-- A function as a target. -/
def target (apart : Bool) (start row : Nat) : ChunkTarget :=
  ⟨function start row, ⟨function start row, [root apart]⟩, .function⟩

/-- The targets of the tree are the two functions. -/
private lemma targets_root (apart : Bool) : (cutting apart).targets (root apart) =
    [target apart 0 0, target apart 10 (row apart)] := by
  have hTarget : ∀ start line, ChunkTarget.of? .rust ⟨function start line, [root apart]⟩ =
      some (target apart start line) := by
    intro start line
    have hRule : ChunkRule.of? .rust (function start line).kind =
        some (.declaration .function) := rfl
    rw [ChunkTarget.of?, ChunkTarget.match?, hRule]
    rfl
  have hRoot : Cursor.namedChildren ⟨root apart, []⟩ =
      [⟨function 0 0, [root apart]⟩, ⟨function 10 (row apart), [root apart]⟩] := rfl
  have hCollect : ChunkTarget.collect .rust (root apart) =
      [target apart 10 (row apart), target apart 0 0] := by
    simp [ChunkTarget.collect, ChunkTarget.gather, ChunkTarget.passed, ChunkTarget.found, hRoot,
      hTarget]
  rw [Cutting.targets, show (cutting apart).language = .rust from rfl, hCollect]
  have hOrder : decide ((target apart 10 (row apart)).node.startByte ≤
      (target apart 0 0).node.startByte) = false := rfl
  simp [List.mergeSort, List.MergeSort.Internal.splitInTwo, hOrder]

/-- The regions of the tree are the two functions and what is behind each of them. -/
private lemma regions_root (apart : Bool) : (cutting apart).regions (root apart) =
    [.target (target apart 0 0), .gap 9 10, .target (target apart 10 (row apart)), .gap 19 20] := by
  have hSize : ∀ apart, (content apart).utf8ByteSize = 20 := by decide +kernel
  rw [Cutting.regions, targets_root, show (cutting apart).source.text = content apart from rfl,
    hSize]
  rfl

/-- A function is cut out as one chunk. -/
private lemma target_function {apart : Bool} {start row : Nat}
    (hText : Text.slice? (content apart) start (start + 9) = some item)
    (hName : Text.slice? (content apart) (start + 3) (start + 4) = some "a")
    (hSpan : (Source.ofText (content apart)).lineSpan start (start + 9) = (row + 1, row + 1)) :
    (cutting apart).target (target apart start row) = .ok [toChunk (row + 1)] := by
  have hFits : ¬Text.allBlank item ∧ Text.tokens item ≤ chunker.budget.maxTokens ∧
      0 + 1 ≤ chunker.budget.maxLines := by decide +kernel
  have hMetadata : (cutting apart).metadata (target apart start row) item =
      { language := "rust", functionName := some "a", signature := Text.headline item } := by
    rw [← hName]
    rfl
  have hLines : (cutting apart).source.lineSpan (target apart start row).node.startByte
      (target apart start row).node.endByte = (row + 1, row + 1) := hSpan
  refine Cutting.target_eq_ok_iff.2 ⟨item, hText, ?_⟩
  rw [if_neg hFits.1, hMetadata, Cutting.stretch, hLines]
  dsimp only
  rw [if_pos ⟨hFits.2.1, by rw [Nat.sub_self]; exact hFits.2.2⟩]
  rfl

/-- A blank gap is dropped. -/
private lemma gap_blank {apart : Bool} {start : Nat} {text : String}
    (hText : Text.slice? (content apart) start (start + 1) = some text)
    (hBlank : Text.trim text.toList = []) : (cutting apart).gap start (start + 1) = .ok [] := by
  refine Cutting.gap_eq_ok_iff.2 ⟨text, hText, ?_⟩
  rw [hBlank]
  rfl

/-- The file is cut into its two functions.

**Proof sketch.** The regions of the tree are the two functions, each one chunk, and the blanks
behind them, which give none. -/
private lemma roughCut_file (grammars : Grammars) (apart : Bool) :
    chunker.roughCut grammars (file apart) = [toChunk 1, toChunk (row apart + 1)] := by
  have hFirst : (cutting apart).target (target apart 0 0) = .ok [toChunk 1] := by
    cases apart <;>
      exact target_function (by decide +kernel) (by decide +kernel) (by decide +kernel)
  have hSecond : (cutting apart).target (target apart 10 (row apart)) =
      .ok [toChunk (row apart + 1)] := by
    cases apart <;>
      exact target_function (by decide +kernel) (by decide +kernel) (by decide +kernel)
  have hBetween : (cutting apart).gap 9 10 = .ok [] := by
    cases apart
    · exact @gap_blank false 9 " " (by decide +kernel) (by decide +kernel)
    · exact @gap_blank true 9 "\n" (by decide +kernel) (by decide +kernel)
  have hBehind : (cutting apart).gap 19 20 = .ok [] := by
    cases apart
    · exact @gap_blank false 19 "\n" (by decide +kernel) (by decide +kernel)
    · exact @gap_blank true 19 "\n" (by decide +kernel) (by decide +kernel)
  have hCut : (cutting apart).tree (root apart) = .ok [toChunk 1, toChunk (row apart + 1)] := by
    rw [Cutting.tree_eq, targets_root, regions_root]
    simp only [List.mapM_cons, List.mapM_nil, Cutting.region, hFirst, hBetween, hSecond, hBehind]
    rfl
  have hDetect : chunker.pool.provider.detect (file apart).path =
      some .rust := by
    show chunker.pool.provider.detect "a.rs" = some .rust
    decide +kernel
  have hBind : (Except.ok (root apart) >>= (chunker.cutting .rust (file apart)).tree) =
      .ok [toChunk 1, toChunk (row apart + 1)] := hCut
  rw [Chunker.roughCut, hDetect]
  show (Chunker.cut chunker.budget .rust (file apart) (.ok (root apart))).1 = _
  rw [Chunker.fst_cut, hBind]

/-- The chunks of the file are those of its functions. -/
private lemma chunks_twins (grammars : Grammars) (apart : Bool) :
    (chunker.chunkFile grammars (file apart)).chunks =
      Chunk.numbered [toChunk 1, toChunk (row apart + 1)] := by
  have hAdmitted : ∀ apart, ¬((skipReason? (file apart).path (file apart).content).isSome ∨
      Text.allBlank (file apart).content) := by decide +kernel
  have hOrder : [toChunk 1, toChunk (row apart + 1)].Pairwise
      fun a b => a.startLine ≤ b.startLine := by
    refine List.pairwise_pair.2 ?_
    exact Nat.le_add_left 1 (row apart)
  have hApart : ¬Chunk.mergeable chunker.budget (toChunk 1) (toChunk (row apart + 1)) := by
    simp [Chunk.mergeable, chunker]
  rw [Chunker.chunks_chunkFile_eq, if_neg (hAdmitted apart), roughCut_file,
    Chunk.arrange_of_pairwise hOrder, Chunk.mergeAll, Chunk.mergeFrom, if_neg hApart]
  rfl

/-- Both chunks have the text of the function. -/
private lemma content_of_mem_chunks {grammars : Grammars} {apart : Bool} {chunk : Chunk}
    (h : chunk ∈ (chunker.chunkFile grammars (file apart)).chunks) : chunk.content = item := by
  rw [chunks_twins] at h
  rcases List.mem_pair.1 h with rfl | rfl <;> rfl

/-- Functions on different lines have different identifiers. -/
theorem id_ne_apart : (file true).TreesFit (fun _ _ => none) ∧
    (chunker.chunkFile (fun _ _ => none) (file true)).chunks =
      Chunk.numbered [toChunk 1, toChunk 2] ∧
    (∀ chunk ∈ (chunker.chunkFile (fun _ _ => none) (file true)).chunks, chunk.content = item) ∧
    (toChunk 1).id ≠ (toChunk 2).id := by
  have hTrees := treesFit_file (fun _ _ => none) true
  have hChunks := chunks_twins (fun _ _ => none) true
  have hIds := (chunker.pairwise_id_eq_iff_chunkFile (fun _ _ => none) (file true)).1 hTrees
    fun chunk hChunk other hOther _ =>
      (content_of_mem_chunks hChunk).trans (content_of_mem_chunks hOther).symm
  rw [hChunks] at hIds
  refine ⟨hTrees, hChunks, fun chunk hChunk => content_of_mem_chunks hChunk, fun hEq => ?_⟩
  have hLine := ((List.pairwise_pair.1 hIds).1 hEq).2.1
  exact absurd hLine (by decide)

/-- **Two chunks of a file may share an identifier.** Both functions are on the first line of the
file and have the same text. -/
theorem not_nodup_id_together : (file false).TreesFit (fun _ _ => none) ∧
    (∀ chunk ∈ (chunker.chunkFile (fun _ _ => none) (file false)).chunks, chunk.content = item) ∧
    ¬((chunker.chunkFile (fun _ _ => none) (file false)).chunks.map Chunk.id).Nodup := by
  refine ⟨treesFit_file _ _, fun chunk hChunk => content_of_mem_chunks hChunk, fun hNodup => ?_⟩
  rw [chunks_twins] at hNodup
  exact (List.nodup_cons.1 hNodup).1 (List.mem_singleton.2 rfl)

end Twins

end CodeAtlas
