import CodeAtlas.Proofs.Arrangement
import CodeAtlas.Proofs.Chunking
import CodeAtlas.Proofs.Windows

/-!
# Chunks keep to the budget

A chunk is made in one of three ways: as a stretch that fits, as a window of a stretch or a file
that does not, and as a merger of two chunks. Each of them checks the budget in its own way, and
none lets a chunk through that exceeds it, a single long line apart.

## Main definitions

* `CodeAtlas.Chunk.KeepsTo` — a chunk keeps to a budget.

## Main results

* `CodeAtlas.Chunker.keepsTo_of_mem_chunkFile` — every chunk of a file keeps to the budget.
-/

set_option autoImplicit false

namespace CodeAtlas

namespace Chunk

/-- A chunk keeps to a budget: its lines are in order and no more than allowed, and so are its
tokens, unless it is one line that exceeds the tokens by itself. -/
structure KeepsTo (budget : Budget) (chunk : Chunk) : Prop where
  ordered : chunk.startLine ≤ chunk.endLine
  lines_le : chunk.endLine - chunk.startLine + 1 ≤ budget.maxLines
  tokens_le : chunk.tokens ≤ budget.maxTokens ∨
    (chunk.startLine = chunk.endLine ∧ '\n' ∉ chunk.content.toList ∧
      budget.maxTokens < chunk.tokens)

/-- The number of a chunk has nothing to do with the budget. -/
private lemma KeepsTo.number {budget : Budget} {chunk : Chunk} (h : chunk.KeepsTo budget)
    (index : Nat) : KeepsTo budget { chunk with index } :=
  ⟨h.ordered, h.lines_le, h.tokens_le⟩

/-- What is merged keeps to the budget: a merger is checked before it is made. -/
private lemma keepsTo_merge {budget : Budget} {chunk next : Chunk}
    (hMergeable : mergeable budget chunk next = true) (hChunk : chunk.KeepsTo budget) :
    KeepsTo budget (merge chunk next) := by
  simp only [mergeable, Bool.and_eq_true, decide_eq_true_eq] at hMergeable
  obtain ⟨⟨-, hLines⟩, hTokens⟩ := hMergeable
  refine ⟨?_, ?_, Or.inl hTokens⟩
  · exact Nat.le_trans hChunk.ordered (Nat.le_max_left _ _)
  · exact hLines

/-- The chunk of a window that fits keeps to the budget.

**Proof sketch.** A valid budget allows a line, so the line cap is the line limit. A window of
several lines has no more tokens than allowed. A window of one line is that line, which has no
newline in it. -/
private lemma keepsTo_of_window {budget : Budget} (hValid : budget.Valid) {window : Window}
    (hFits : window.Fits budget) (hLines : ∀ line ∈ window.lines, '\n' ∉ line.toList)
    (path : String) (kind : ChunkKind) (metadata : ChunkMetadata) :
    KeepsTo budget
      (create path window.startLine window.endLine window.content kind metadata) := by
  have hPos := hFits.lines_pos
  have hMax : window.lines.length ≤ budget.maxLines := by
    have hCap := hFits.lines_le
    have hLine := hValid.maxLines_pos
    unfold Window.lineCap at hCap
    omega
  refine ⟨?_, ?_, ?_⟩
  · show window.startLine ≤ window.startLine + window.lines.length - 1
    omega
  · show window.startLine + window.lines.length - 1 - window.startLine + 1 ≤ budget.maxLines
    omega
  · rcases Nat.lt_or_ge 1 window.lines.length with hMany | hOne
    · exact Or.inl (hFits.tokens_le hMany)
    · obtain ⟨line, hLine⟩ : ∃ line, window.lines = [line] :=
        List.length_eq_one_iff.1 (by omega)
      have hContent : window.content = line := by
        rw [Window.content, hLine, String.intercalate_singleton]
      rcases Nat.lt_or_ge budget.maxTokens (Text.tokens window.content) with hOver | hUnder
      · refine Or.inr ⟨?_, ?_, hOver⟩
        · show window.startLine = window.startLine + window.lines.length - 1
          omega
        · show '\n' ∉ window.content.toList
          rw [hContent]
          exact hLines line (by rw [hLine]; exact List.mem_singleton_self line)
      · exact Or.inl hUnder

/-- The chunks of the windows of a text keep to the budget. -/
lemma keepsTo_of_mem_split {budget : Budget} (hValid : budget.Valid) {text : String}
    {firstLine : Nat} {window : Window} (hMem : window ∈ Window.split budget text firstLine)
    (path : String) (kind : ChunkKind) (metadata : ChunkMetadata) :
    KeepsTo budget
      (create path window.startLine window.endLine window.content kind metadata) :=
  keepsTo_of_window hValid (Window.fits_of_mem_split hMem)
    (Window.newline_notMem_of_mem_split hMem) path kind metadata

/-- The chunks of a file by line windows keep to the budget. -/
private lemma keepsTo_of_mem_ofLines {budget : Budget} (hValid : budget.Valid)
    {path content : String} {chunk : Chunk} (hMem : chunk ∈ ofLines budget path content) :
    KeepsTo budget chunk := by
  obtain ⟨window, hWindow, rfl⟩ := List.mem_map.1 hMem
  exact keepsTo_of_mem_split hValid hWindow _ _ _

end Chunk

/-- The chunks of a stretch keep to the budget. -/
private lemma Cutting.keepsTo_of_mem_stretch {cutting : Cutting} (hValid : cutting.budget.Valid)
    {start stop : Nat} {text : String} {kind : ChunkKind} {metadata : ChunkMetadata}
    {chunk : Chunk} (hMem : chunk ∈ cutting.stretch start stop text kind metadata) :
    chunk.KeepsTo cutting.budget := by
  unfold Cutting.stretch at hMem
  dsimp only at hMem
  split at hMem
  · next hFits =>
    rw [List.mem_singleton] at hMem
    subst hMem
    exact ⟨cutting.source.lineSpan_le start stop, hFits.2, Or.inl hFits.1⟩
  · obtain ⟨window, hWindow, rfl⟩ := List.mem_map.1 hMem
    exact Chunk.keepsTo_of_mem_split hValid hWindow _ _ _

namespace Chunker

/-- **Budget.** Every chunk of a file keeps to the budget of the chunker, whatever the provider
does and whatever tree the file comes with. The budget is valid, as a chunker has no other.

**Proof sketch.** A chunk stems from a line window or from a stretch of the text, which is one chunk
within the budget or is cut into line windows itself; and a line window keeps to the budget. The
merge pass joins two chunks only if the merger does so as well, and numbering changes neither lines
nor content. -/
theorem keepsTo_of_mem_chunkFile (chunker : Chunker) (grammars : Grammars) (file : SourceFile) :
    ∀ chunk ∈ (chunker.chunkFile grammars file).chunks, chunk.KeepsTo chunker.budget := by
  intro chunk hChunk
  obtain ⟨chunks, hArranged, hOrigin⟩ := mem_chunkFile hChunk
  refine Chunk.forall_mem_arrange (fun c index h => h.number index)
    (fun c next hMergeable h _ => Chunk.keepsTo_merge hMergeable h) ?_ chunk hArranged
  intro c hc
  rcases hOrigin with rfl | ⟨language, root, hCut⟩
  · exact Chunk.keepsTo_of_mem_ofLines chunker.valid hc
  · obtain ⟨start, stop, text, kind, metadata, hStretch⟩ :=
      Cutting.exists_stretch_of_mem_tree hCut hc
    exact Cutting.keepsTo_of_mem_stretch chunker.valid hStretch

/-- A chunker that allows one token and two lines. -/
def narrow : Chunker where
  budget := { maxTokens := 1, minTokens := 1, overlapTokens := 0, maxLines := 2 }
  valid := by decide
  pool := { provider := .bundled }

/-- The second line of this file takes two tokens, and its chunk keeps to the budget as a single
line that exceeds the limit. -/
theorem exists_keepsTo_narrow :
    ∃ chunk ∈ (narrow.chunkFile (fun _ _ => none) ⟨"notes.txt", "ab\nabcde\nc", none⟩).chunks,
      chunk.tokens = 2 ∧ chunk.KeepsTo narrow.budget := by
  have hTokens : (narrow.chunkFile (fun _ _ => none)
      ⟨"notes.txt", "ab\nabcde\nc", none⟩).chunks.map Chunk.tokens = [1, 2, 1] := by
    rw [chunks_chunkFile_of_detect_eq_none (by decide +kernel) (by decide +kernel)
      (by decide +kernel), Chunk.arrange_of_pairwise (by decide +kernel)]
    decide +kernel
  obtain ⟨chunk, hMem, hTwo⟩ := List.mem_map.1 (hTokens ▸ (by decide : 2 ∈ [1, 2, 1]))
  exact ⟨chunk, hMem, hTwo, keepsTo_of_mem_chunkFile narrow _ _ chunk hMem⟩

end Chunker

end CodeAtlas
