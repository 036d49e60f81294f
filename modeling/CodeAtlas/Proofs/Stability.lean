import Mathlib.Data.List.Chain
import CodeAtlas.Proofs.Identity

/-!
# Arranging once is enough

The merge pass compares each chunk with the next one only once, and the next one may grow
afterwards, when further chunks are merged into it. This opens no new merger. Growing makes the next
chunk longer and takes it to later lines, so whatever spoke against the merger still does: the two
are of different files, one of them is not small, or together they have too many lines or too many
tokens. Hence no two neighbours can be merged after one pass, and a second pass changes nothing.

Line windows are of this kind from the start, even those that are small. A window is closed because
the next line would take it over the budget, and the next window has that line. So the chunks of a
file that is cut into line windows are its windows, one by one.

## Main definitions

* `CodeAtlas.Chunk.FullyMerged` — no two neighbours can be merged.

## Main results

* `CodeAtlas.Chunk.mergeable_of_mergeable_merge` — a chunk that grows can be merged with no chunk
  that it could not be merged with before.
* `CodeAtlas.Chunk.fullyMerged_mergeFrom` — what one merge pass leaves is fully merged.
* `CodeAtlas.Chunk.mergeAll_of_fullyMerged` — the merge pass keeps what is fully merged.
* `CodeAtlas.Chunk.arrange_arrange` — arranging twice is arranging once.
* `CodeAtlas.Window.fullyMerged_split` — the chunks of windows are fully merged.
* `CodeAtlas.Chunker.chunks_chunkFile_of_cutsByLines` — the chunks of a file that is cut into line
  windows are those of its windows.
-/

set_option autoImplicit false

namespace CodeAtlas

namespace Chunk

/-! ## One pass -/

/-- Chunks are fully merged: none of them can be merged with the one behind it. -/
def FullyMerged (budget : Budget) (chunks : List Chunk) : Prop :=
  chunks.IsChain fun chunk next => mergeable budget chunk next = false

/-- **Growth opens no merger.** If a chunk can be merged with a merger, it could have been merged
with the first chunk of that merger.

**Proof sketch.** The merger is longer than its first chunk and ends no earlier, so what stays
within the limits with the merger does so with the chunk. -/
theorem mergeable_of_mergeable_merge {budget : Budget} {chunk next later : Chunk}
    (h : mergeable budget chunk (merge next later) = true) :
    mergeable budget chunk next = true := by
  have hLonger : next.content.length ≤ (merge next later).content.length := by
    show _ ≤ (joinedContent next later).length
    rw [length_joinedContent]
    omega
  have hTokens : next.tokens ≤ (merge next later).tokens := Text.tokensOfLength_mono hLonger
  have hJoined : Text.tokens (joinedContent chunk next) ≤
      Text.tokens (joinedContent chunk (merge next later)) := by
    apply Text.tokensOfLength_mono
    rw [length_joinedContent, length_joinedContent]
    omega
  have hEnd : (merge next later).endLine = max next.endLine later.endLine := rfl
  have hPath : (merge next later).path = next.path := rfl
  simp only [mergeable, Bool.and_eq_true, decide_eq_true_eq, hEnd, hPath] at h ⊢
  obtain ⟨⟨⟨⟨hSame, hChunk⟩, hMerger⟩, hLines⟩, hFits⟩ := h
  exact ⟨⟨⟨⟨hSame, hChunk⟩, by omega⟩, by omega⟩, by omega⟩

/-- What one merge pass leaves is fully merged, and its first chunk cannot be merged with a chunk
before that could not be merged with the open one.

**Proof sketch.** Induction on the chunks ahead. When the open chunk grows, the chunk before it
still cannot be merged with it. When it is closed, it cannot be merged with the next one, which is
open from then on. -/
theorem fullyMerged_mergeFrom (budget : Budget) (rest : List Chunk) :
    ∀ chunk : Chunk, FullyMerged budget (mergeFrom budget chunk rest) ∧
      ∀ before, mergeable budget before chunk = false →
        ∀ first ∈ (mergeFrom budget chunk rest).head?, mergeable budget before first = false := by
  induction rest with
  | nil =>
    intro chunk
    exact ⟨List.isChain_singleton _, by simp [mergeFrom]⟩
  | cons next rest ih =>
    intro chunk
    rw [mergeFrom]
    split
    · obtain ⟨hMerged, hFirst⟩ := ih (merge chunk next)
      refine ⟨hMerged, fun before hBefore => hFirst before ?_⟩
      rw [Bool.eq_false_iff] at hBefore ⊢
      exact fun hMergeable => hBefore (mergeable_of_mergeable_merge hMergeable)
    · next hApart =>
      obtain ⟨hMerged, hFirst⟩ := ih next
      refine ⟨List.isChain_cons.2 ⟨hFirst chunk (by simpa using hApart), hMerged⟩, ?_⟩
      simp

/-- The merge pass keeps what is fully merged. -/
private lemma mergeFrom_of_fullyMerged {budget : Budget} {rest : List Chunk} :
    ∀ {chunk : Chunk}, FullyMerged budget (chunk :: rest) →
      mergeFrom budget chunk rest = chunk :: rest := by
  induction rest with
  | nil =>
    intro chunk _
    rfl
  | cons next rest ih =>
    intro chunk h
    obtain ⟨hApart, hRest⟩ := List.isChain_cons_cons.1 h
    simp [mergeFrom, hApart, ih hRest]

/-- **The merge pass keeps what is fully merged.** -/
theorem mergeAll_of_fullyMerged {budget : Budget} {chunks : List Chunk}
    (h : FullyMerged budget chunks) : mergeAll budget chunks = chunks := by
  cases chunks with
  | nil => rfl
  | cons chunk rest => exact mergeFrom_of_fullyMerged h

/-! ## Arranging -/

/-- Numbers do not decide what is fully merged. -/
private lemma FullyMerged.numbered {budget : Budget} {chunks : List Chunk}
    (h : FullyMerged budget chunks) : FullyMerged budget (numbered chunks) := by
  rw [FullyMerged, List.isChain_iff_getElem] at h ⊢
  intro i hi
  simp only [Chunk.numbered, List.getElem_mapIdx]
  exact h i (by simpa [Chunk.numbered] using hi)

/-- Numbering twice is numbering once. -/
private lemma numbered_numbered (chunks : List Chunk) :
    numbered (numbered chunks) = numbered chunks := by
  simp [numbered, List.mapIdx_mapIdx, Function.comp_def]

/-- Arranged chunks are fully merged. -/
private lemma fullyMerged_arrange (budget : Budget) (chunks : List Chunk) :
    FullyMerged budget (arrange budget chunks) := by
  apply FullyMerged.numbered
  cases chunks.mergeSort fun a b => decide (a.startLine ≤ b.startLine) with
  | nil => exact List.isChain_nil
  | cons chunk rest => exact (fullyMerged_mergeFrom budget rest chunk).1

/-- Chunks that are in order and fully merged are only numbered. -/
lemma arrange_of_fullyMerged {budget : Budget} {chunks : List Chunk}
    (hOrder : chunks.Pairwise fun a b => a.startLine ≤ b.startLine)
    (hMerged : FullyMerged budget chunks) : arrange budget chunks = numbered chunks := by
  rw [arrange_of_pairwise hOrder, mergeAll_of_fullyMerged hMerged]

/-- **Arranging once is enough.** No two neighbours of arranged chunks can be merged, although each
was compared with the next before that had grown, and arranging them again changes nothing.

**Proof sketch.** Arranged chunks are in order and fully merged (`fullyMerged_arrange`), so sorting
and merging leave them (`arrange_of_fullyMerged`), and they have their numbers already. -/
theorem arrange_arrange (budget : Budget) (chunks : List Chunk) :
    arrange budget (arrange budget chunks) = arrange budget chunks ∧
      FullyMerged budget (arrange budget chunks) := by
  have hMerged := fullyMerged_arrange budget chunks
  refine ⟨?_, hMerged⟩
  rw [arrange_of_fullyMerged (pairwise_startLine_arrange budget chunks) hMerged]
  exact numbered_numbered _

end Chunk

/-! ## Line windows -/

namespace Window

/-- The chunks of windows are fully merged: each window is closed before the next. -/
theorem fullyMerged_split (budget : Budget) (text : String) (firstLine : Nat) (path : String)
    (kind : ChunkKind) (metadata : ChunkMetadata) :
    Chunk.FullyMerged budget
      ((split budget text firstLine).map (toChunk path kind metadata)) := by
  apply List.isChain_map_of_isChain _ _ (isChain_split budget text firstLine)
  intro window next hClosed
  exact (hClosed.barred path kind metadata).not_mergeable (Nat.le_refl _) (Nat.le_refl _)

end Window

namespace Chunker

/-- **Line windows are never merged.** The chunks of a file that is cut into line windows are the
blocks of its windows, one for each and in order, with the lines and the content of the window. The
merge pass leaves them as they are, even where neighbours are both small.

**Proof sketch.** The windows start on later and later lines and no two neighbours can be merged
(`Window.fullyMerged_split`), so that arranging does nothing but number them
(`Chunk.arrange_of_fullyMerged`). -/
theorem chunks_chunkFile_of_cutsByLines (chunker : Chunker) (grammars : Grammars)
    (file : SourceFile) (hAdmitted : skipReason? file.path file.content = none)
    (hBlank : Text.allBlank file.content = false) (hLines : chunker.CutsByLines grammars file) :
    (chunker.chunkFile grammars file).chunks =
      (Window.split chunker.budget file.content 1).mapIdx (fun index window =>
        { Chunk.create file.path window.startLine window.endLine window.content .block
            { language := Language.label file.path } with index }) ∧
    Chunk.mergeAll chunker.budget (Chunk.ofLines chunker.budget file.path file.content) =
      Chunk.ofLines chunker.budget file.path file.content := by
  have hMerged : Chunk.FullyMerged chunker.budget
      (Chunk.ofLines chunker.budget file.path file.content) :=
    Window.fullyMerged_split chunker.budget file.content 1 file.path .block _
  have hOrder := (pairwise_startLine_lt_ofLines chunker.budget file.path file.content).imp
    Nat.le_of_lt
  refine ⟨?_, Chunk.mergeAll_of_fullyMerged hMerged⟩
  rw [chunks_chunkFile_eq, if_neg (by simp [hAdmitted, hBlank]), roughCut_of_cutsByLines hLines,
    Chunk.arrange_of_fullyMerged hOrder hMerged]
  apply List.ext_getElem
  · simp [Chunk.numbered, Chunk.ofLines]
  · intro i _ _
    simp [Chunk.numbered, Chunk.ofLines]

/-- A chunker that takes two lines at a time and would merge what has fewer than four tokens. -/
def pairing : Chunker where
  budget := { maxTokens := 4, minTokens := 4, overlapTokens := 0, maxLines := 2 }
  valid := by decide
  pool := { provider := .bundled }

/-- Both windows of this file have one token, and together they would have two, but they are not
merged. -/
theorem chunks_four_lines :
    pairing.CutsByLines (fun _ _ => none) ⟨"notes.txt", "a\nb\nc\nd", none⟩ ∧
    (pairing.chunkFile (fun _ _ => none) ⟨"notes.txt", "a\nb\nc\nd", none⟩).chunks.map
        (fun chunk => (chunk.index, chunk.startLine, chunk.endLine, chunk.content, chunk.tokens)) =
      [(0, 1, 2, "a\nb", 1), (1, 3, 4, "c\nd", 1)] := by
  have hLines : pairing.CutsByLines (fun _ _ => none) ⟨"notes.txt", "a\nb\nc\nd", none⟩ :=
    (cutsByLines_iff _ _ _).2 (Or.inl (by decide +kernel))
  refine ⟨hLines, ?_⟩
  rw [(chunks_chunkFile_of_cutsByLines pairing _ _ (by decide +kernel) (by decide +kernel)
    hLines).1]
  decide +kernel

end Chunker

end CodeAtlas
