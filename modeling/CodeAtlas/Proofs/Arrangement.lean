import Mathlib.Data.List.Basic
import CodeAtlas.Chunk.Merge

/-!
# Arranging chunks

Arranging sorts chunks, merges small neighbours and numbers what is left. Whatever a merger and a
new number preserve holds of the arranged chunks, and no line is lost: a merger only widens the
range of lines, since the chunks are in the order of their first lines.

## Main results

* `CodeAtlas.Chunk.forall_mem_arrange` — what mergers and numbers preserve holds after arranging.
* `CodeAtlas.Chunk.exists_mem_arrange_containsLine` — a line that is in some chunk is in some
  arranged chunk.
-/

set_option autoImplicit false

namespace CodeAtlas

/-- Sorting by a key puts the keys in order. -/
lemma pairwise_mergeSort_key {α : Type} (key : α → Nat) (items : List α) :
    (items.mergeSort fun a b => decide (key a ≤ key b)).Pairwise (fun a b => key a ≤ key b) := by
  have h := @List.pairwise_mergeSort α (fun a b => decide (key a ≤ key b))
    (fun a b c hab hbc => by simp only [decide_eq_true_eq] at hab hbc ⊢; omega)
    (fun a b => by simp only [Bool.or_eq_true, decide_eq_true_eq]; omega) items
  simpa only [decide_eq_true_eq] using h

namespace Chunk

/-! ## Numbers -/

/-- A numbered chunk is one of the chunks, with its place as its number. -/
lemma mem_numbered {chunks : List Chunk} {chunk : Chunk} (h : chunk ∈ numbered chunks) :
    ∃ old ∈ chunks, ∃ index, chunk = { old with index } := by
  obtain ⟨index, hIndex, rfl⟩ := List.mem_mapIdx.1 h
  exact ⟨chunks[index], List.getElem_mem hIndex, index, rfl⟩

/-- Every chunk is numbered. -/
private lemma exists_mem_numbered {chunks : List Chunk} {chunk : Chunk} (h : chunk ∈ chunks) :
    ∃ index, { chunk with index } ∈ numbered chunks := by
  obtain ⟨index, hIndex, rfl⟩ := List.mem_iff_getElem.1 h
  exact ⟨index, List.mem_mapIdx.2 ⟨index, hIndex, rfl⟩⟩

/-! ## Mergers -/

/-- What every merger preserves holds of the merged chunks. -/
private lemma forall_mem_mergeFrom {budget : Budget} {P : Chunk → Prop}
    (hMerge : ∀ chunk next, mergeable budget chunk next = true → P chunk → P next →
      P (merge chunk next)) (rest : List Chunk) :
    ∀ chunk, P chunk → (∀ next ∈ rest, P next) → ∀ c ∈ mergeFrom budget chunk rest, P c := by
  induction rest with
  | nil =>
    intro chunk hChunk _ c hc
    rw [mergeFrom, List.mem_singleton] at hc
    exact hc ▸ hChunk
  | cons next rest ih =>
    intro chunk hChunk hRest c hc
    have hNext : P next := hRest next List.mem_cons_self
    have hBehind : ∀ later ∈ rest, P later := fun later h => hRest later (List.mem_cons_of_mem _ h)
    rw [mergeFrom] at hc
    split at hc
    · next hMergeable =>
      exact ih _ (hMerge chunk next hMergeable hChunk hNext) hBehind c hc
    · rcases List.mem_cons.1 hc with rfl | hc
      · exact hChunk
      · exact ih next hNext hBehind c hc

/-- What every merger preserves holds after all mergers. -/
private lemma forall_mem_mergeAll {budget : Budget} {P : Chunk → Prop}
    (hMerge : ∀ chunk next, mergeable budget chunk next = true → P chunk → P next →
      P (merge chunk next)) {chunks : List Chunk} (hChunks : ∀ chunk ∈ chunks, P chunk) :
    ∀ c ∈ mergeAll budget chunks, P c := by
  cases chunks with
  | nil => simp [mergeAll]
  | cons chunk rest =>
    exact forall_mem_mergeFrom hMerge rest chunk (hChunks chunk List.mem_cons_self)
      fun next h => hChunks next (List.mem_cons_of_mem _ h)

/-- **Arranging preserves.** What mergers and numbers preserve holds of the arranged chunks. -/
theorem forall_mem_arrange {budget : Budget} {P : Chunk → Prop}
    (hNumber : ∀ (chunk : Chunk) (index : Nat), P chunk → P { chunk with index })
    (hMerge : ∀ chunk next, mergeable budget chunk next = true → P chunk → P next →
      P (merge chunk next)) {chunks : List Chunk} (hChunks : ∀ chunk ∈ chunks, P chunk) :
    ∀ c ∈ arrange budget chunks, P c := by
  intro c hc
  obtain ⟨old, hOld, index, rfl⟩ := mem_numbered hc
  refine hNumber old index (forall_mem_mergeAll hMerge (fun chunk h => ?_) old hOld)
  exact hChunks chunk (List.mem_mergeSort.1 h)

/-- Chunks that are in order are only merged and numbered. -/
lemma arrange_of_pairwise {budget : Budget} {chunks : List Chunk}
    (h : chunks.Pairwise fun a b => a.startLine ≤ b.startLine) :
    arrange budget chunks = numbered (mergeAll budget chunks) := by
  rw [arrange, List.mergeSort_of_pairwise (h.imp fun hLe => by simpa using hLe)]

/-! ## Lines -/

/-- A chunk contains the lines from its first to its last. -/
lemma containsLine_iff (chunk : Chunk) (line : Nat) :
    chunk.containsLine line = true ↔ chunk.startLine ≤ line ∧ line ≤ chunk.endLine := by
  simp [containsLine]

/-- A merger contains the lines of the first chunk. -/
lemma containsLine_merge_left {chunk : Chunk} (next : Chunk) {line : Nat}
    (h : chunk.containsLine line = true) : (merge chunk next).containsLine line = true := by
  rw [containsLine_iff] at h ⊢
  exact ⟨h.1, Nat.le_trans h.2 (Nat.le_max_left _ _)⟩

/-- A merger contains the lines of the second chunk if that does not start earlier. -/
lemma containsLine_merge_right {chunk next : Chunk} {line : Nat}
    (hOrder : chunk.startLine ≤ next.startLine) (h : next.containsLine line = true) :
    (merge chunk next).containsLine line = true := by
  rw [containsLine_iff] at h ⊢
  exact ⟨Nat.le_trans hOrder h.1, Nat.le_trans h.2 (Nat.le_max_right _ _)⟩

/-- A line in one of the chunks is in one of the merged chunks, if the chunks are in the order of
their first lines.

**Proof sketch.** Induction on the chunks ahead. A merger starts where its first chunk does, so it
does not start behind the chunks ahead either. -/
private lemma exists_mem_mergeFrom_containsLine (budget : Budget) {line : Nat} (rest : List Chunk) :
    ∀ chunk, (∀ next ∈ rest, chunk.startLine ≤ next.startLine) →
      rest.Pairwise (fun a b => a.startLine ≤ b.startLine) →
      (∃ c ∈ chunk :: rest, c.containsLine line = true) →
      ∃ c ∈ mergeFrom budget chunk rest, c.containsLine line = true := by
  induction rest with
  | nil =>
    intro chunk _ _ h
    simpa [mergeFrom] using h
  | cons next rest ih =>
    intro chunk hFirst hOrder h
    rw [List.pairwise_cons] at hOrder
    have hBehind : ∀ later ∈ rest, chunk.startLine ≤ later.startLine :=
      fun later hLater => hFirst later (List.mem_cons_of_mem _ hLater)
    obtain ⟨c, hc, hLine⟩ := h
    rw [mergeFrom]
    split
    · refine ih (merge chunk next) hBehind hOrder.2 ?_
      rcases List.mem_cons.1 hc with rfl | hc
      · exact ⟨_, List.mem_cons_self, containsLine_merge_left next hLine⟩
      · rcases List.mem_cons.1 hc with rfl | hc
        · exact ⟨_, List.mem_cons_self,
            containsLine_merge_right (hFirst c List.mem_cons_self) hLine⟩
        · exact ⟨c, List.mem_cons_of_mem _ hc, hLine⟩
    · rcases List.mem_cons.1 hc with rfl | hc
      · exact ⟨c, List.mem_cons_self, hLine⟩
      · obtain ⟨d, hd, hContains⟩ := ih next hOrder.1 hOrder.2 ⟨c, hc, hLine⟩
        exact ⟨d, List.mem_cons_of_mem _ hd, hContains⟩

/-- **Arranging loses no line.** A line in one of the chunks is in one of the arranged chunks.

**Proof sketch.** Sorting keeps the chunks, a merger of chunks in order is on all the lines of both
(`exists_mem_mergeFrom_containsLine`), and numbering keeps the lines. -/
theorem exists_mem_arrange_containsLine (budget : Budget) {chunks : List Chunk} {line : Nat}
    (h : ∃ c ∈ chunks, c.containsLine line = true) :
    ∃ c ∈ arrange budget chunks, c.containsLine line = true := by
  have hSorted := pairwise_mergeSort_key startLine chunks
  have hMem : ∃ c ∈ chunks.mergeSort fun a b => decide (a.startLine ≤ b.startLine),
      c.containsLine line = true := by
    obtain ⟨c, hc, hLine⟩ := h
    exact ⟨c, List.mem_mergeSort.2 hc, hLine⟩
  have hMerged : ∃ c ∈ mergeAll budget
      (chunks.mergeSort fun a b => decide (a.startLine ≤ b.startLine)),
      c.containsLine line = true := by
    revert hSorted hMem
    cases chunks.mergeSort fun a b => decide (a.startLine ≤ b.startLine) with
    | nil => simp
    | cons chunk rest =>
      intro hSorted hMem
      rw [List.pairwise_cons] at hSorted
      exact exists_mem_mergeFrom_containsLine budget rest chunk hSorted.1 hSorted.2 hMem
  obtain ⟨c, hc, hLine⟩ := hMerged
  obtain ⟨index, hIndex⟩ := exists_mem_numbered hc
  exact ⟨_, hIndex, hLine⟩

end Chunk

end CodeAtlas
