import Mathlib.Data.List.Forall2
import CodeAtlas.Proofs.Numbering

/-!
# What arranged chunks are made of

Arranging puts chunks in the order of their first lines and merges small neighbours. Every chunk
ends up in one arranged chunk: the arranged chunks stem from consecutive runs of the chunks in
order, each from its own. A chunk that is alone in its run is kept as it is, but for its number. A
longer run becomes one chunk, which holds the contents one below the other and tells of the run
what all of its chunks have in common.

The merge pass sees two chunks at a time, and the first may be a merger itself. Nothing depends on
this: a name that the first two chunks of a run do not share stays dropped, even if a third chunk
has it again, and once the kinds differ the merger is a block for good.

## Main definitions

* `CodeAtlas.Chunk.StablySorted` — chunks in the order of their first lines.
* `CodeAtlas.Chunk.StandsFor` — a chunk tells of a run what its chunks have in common.
* `CodeAtlas.Chunk.SmallThroughout` — a run is small in all of its parts.
* `CodeAtlas.Chunk.StemsFrom` — a chunk is the only one of a run, or the merger of a longer run.

## Main results

* `CodeAtlas.Chunk.stablySorted_mergeSort` — sorting is stable.
* `CodeAtlas.Chunk.StemsFrom.merge` — a merger stems from the run with one chunk more.
* `CodeAtlas.Chunk.exists_runs_arrange` — the runs that the arranged chunks stem from.
-/

set_option autoImplicit false

namespace CodeAtlas

/-! ## Order -/

/-- Items with the same key are sorted into the order that they have.

**Proof sketch.** They are in order already, so they are found in the sorted list in the order that
they have, and it holds no others with this key. -/
private lemma filter_mergeSort_key {α : Type} (key : α → Nat) (items : List α) (n : Nat) :
    (items.mergeSort fun a b => decide (key a ≤ key b)).filter (key · == n) =
      items.filter (key · == n) := by
  have hOrder : (items.filter (key · == n)).Pairwise fun a b => decide (key a ≤ key b) = true := by
    have hKey : ∀ a ∈ items.filter (key · == n), key a = n := by simp
    rw [List.pairwise_iff_getElem]
    intro i j hi hj _
    simp [hKey _ (List.getElem_mem hi), hKey _ (List.getElem_mem hj)]
  have hSublist : (items.filter (key · == n)).Sublist
      (items.mergeSort fun a b => decide (key a ≤ key b)) := by
    apply List.sublist_mergeSort _ _ hOrder List.filter_sublist
    · intro a b c hab hbc
      simp only [decide_eq_true_eq] at hab hbc ⊢
      omega
    · intro a b
      simp only [Bool.or_eq_true, decide_eq_true_eq]
      omega
  have hPerm := List.mergeSort_perm items fun a b => decide (key a ≤ key b)
  symm
  apply List.Sublist.eq_of_length
  · simpa using hSublist.filter (key · == n)
  · exact (hPerm.filter _).length_eq.symm

namespace Chunk

/-- Chunks are those of a list in the order of their first lines. Those with the same first line
have the order that they have in the list. -/
structure StablySorted (chunks sorted : List Chunk) : Prop where
  perm : sorted.Perm chunks
  ordered : sorted.Pairwise fun a b => a.startLine ≤ b.startLine
  stable : ∀ line, sorted.filter (·.startLine == line) = chunks.filter (·.startLine == line)

/-- **Sorting is stable.** -/
theorem stablySorted_mergeSort (chunks : List Chunk) :
    StablySorted chunks (chunks.mergeSort fun a b => decide (a.startLine ≤ b.startLine)) :=
  ⟨List.mergeSort_perm _ _, pairwise_mergeSort_key startLine chunks,
    filter_mergeSort_key startLine chunks⟩

/-! ## What a run has in common -/

/-- A chunk has a name exactly if all chunks of a run have it. -/
def Shares (name : ChunkMetadata → Option String) (run : List Chunk) (chunk : Chunk) : Prop :=
  ∀ text, name chunk.metadata = some text ↔ ∀ c ∈ run, name c.metadata = some text

/-- Names agree on a name exactly if both are that name. -/
private lemma agreed_eq_some_iff (a b : Option String) (text : String) :
    agreed a b = some text ↔ a = some text ∧ b = some text := by
  unfold agreed
  split
  · next hSame => simp [hSame]
  · next hDiffer =>
    constructor
    · simp
    · rintro ⟨rfl, rfl⟩
      exact absurd rfl hDiffer

/-- A name that a run shares and the next chunk has is what they agree on. -/
private lemma Shares.concat {name : ChunkMetadata → Option String} {run : List Chunk}
    {chunk : Chunk} (h : Shares name run chunk) {next merger : Chunk}
    (hName : name merger.metadata = agreed (name chunk.metadata) (name next.metadata)) :
    Shares name (run ++ [next]) merger := by
  intro text
  rw [hName, agreed_eq_some_iff, h text]
  simp [or_imp, forall_and]

/-- A chunk stands for a run: all are of one file, the contents of the run stand in it one below the
other, and it reaches from the first line of the first chunk to the last line of any. Its kind is
that of all chunks of the run, if they have one kind, and a block otherwise. It has the names that
all chunks of the run have, and the language of the first. -/
structure StandsFor (run : List Chunk) (chunk : Chunk) : Prop where
  path_eq : ∀ c ∈ run, c.path = chunk.path
  content_eq : chunk.content = "\n".intercalate (run.map content)
  startLine_eq : ∀ first ∈ run.head?, chunk.startLine = first.startLine
  endLine_eq : (run.map endLine).max? = some chunk.endLine
  kind_eq : ∀ kind, (∀ c ∈ run, c.kind = kind) → chunk.kind = kind
  kind_eq_block : (∀ kind, ∃ c ∈ run, c.kind ≠ kind) → chunk.kind = .block
  functionName : Shares ChunkMetadata.functionName run chunk
  className : Shares ChunkMetadata.className run chunk
  signature : Shares ChunkMetadata.signature run chunk
  language_eq : ∀ first ∈ run.head?, chunk.metadata.language = first.metadata.language

/-- A chunk stands for itself, whatever its number. -/
private lemma standsFor_singleton (chunk : Chunk) (index : Nat) :
    StandsFor [chunk] { chunk with index } := by
  refine ⟨by simp, by simp, by simp, by simp, by simp, fun h => ?_, ?_, ?_, ?_, by simp⟩
  · obtain ⟨c, hMem, hKind⟩ := h chunk.kind
    exact absurd (by rw [List.mem_singleton.1 hMem]) hKind
  all_goals
    intro text
    simp

/-- A chunk stands for some chunks. -/
lemma StandsFor.ne_nil {run : List Chunk} {chunk : Chunk} (h : StandsFor run chunk) :
    run ≠ [] := by
  rintro rfl
  simpa using h.endLine_eq

/-- The kind of a merger is the one that all chunks have, or a block.

**Proof sketch.** If the kinds of the run differ, the chunk that stands for it is a block, and so is
the merger. If they do not, only the kind of the next chunk can make a difference. -/
private lemma StandsFor.kind_merge {run : List Chunk} {chunk : Chunk} (h : StandsFor run chunk)
    (next : Chunk) :
    (∀ kind, (∀ c ∈ run ++ [next], c.kind = kind) → (merge chunk next).kind = kind) ∧
      ((∀ kind, ∃ c ∈ run ++ [next], c.kind ≠ kind) → (merge chunk next).kind = .block) := by
  have hMerge : (merge chunk next).kind = if chunk.kind = next.kind then chunk.kind else .block :=
    rfl
  rw [hMerge]
  refine ⟨fun kind hAll => ?_, fun hDiffer => ?_⟩
  · have hChunk := h.kind_eq kind fun c hc => hAll c (List.mem_append_left _ hc)
    have hNext := hAll next (by simp)
    rw [hChunk, hNext, if_pos rfl]
  · split
    · next hSame =>
      apply h.kind_eq_block
      by_contra hUniform
      push Not at hUniform
      obtain ⟨kind, hRun⟩ := hUniform
      obtain ⟨c, hc, hKind⟩ := hDiffer kind
      rcases List.mem_append.1 hc with hc | hc
      · exact hKind (hRun c hc)
      · rw [List.mem_singleton.1 hc, ← hSame] at hKind
        exact hKind (h.kind_eq kind hRun)
    · rfl

/-- A merger stands for the run with one chunk more.

**Proof sketch.** The run is not empty, so its first chunk stays the first. Contents are joined by a
newline, the last line is the larger of the two, and each name is the one that both have, if they
have one. -/
private lemma StandsFor.merge {run : List Chunk} {chunk : Chunk} (h : StandsFor run chunk)
    {next : Chunk} (hPath : chunk.path = next.path) :
    StandsFor (run ++ [next]) (merge chunk next) := by
  have hHead : (run ++ [next]).head? = run.head? := by
    cases run with
    | nil => exact absurd rfl h.ne_nil
    | cons first rest => rfl
  obtain ⟨hKind, hBlock⟩ := h.kind_merge next
  refine ⟨?_, ?_, ?_, ?_, hKind, hBlock, h.functionName.concat rfl, h.className.concat rfl,
    h.signature.concat rfl, ?_⟩
  · intro c hc
    rcases List.mem_append.1 hc with hc | hc
    · exact h.path_eq c hc
    · rw [List.mem_singleton.1 hc]
      exact hPath.symm
  · show joinedContent chunk next = _
    rw [joinedContent, h.content_eq, List.map_append, String.intercalate_append_of_ne_nil
      (by simpa using h.ne_nil) (by simp)]
    simp
  · rw [hHead]
    exact h.startLine_eq
  · show _ = some (max chunk.endLine next.endLine)
    have hMax := List.max?_eq_some_iff.1 h.endLine_eq
    rw [List.max?_eq_some_iff]
    refine ⟨?_, fun line hLine => ?_⟩
    · rcases Nat.le_total chunk.endLine next.endLine with hLe | hLe
      · simp [Nat.max_eq_right hLe]
      · rw [Nat.max_eq_left hLe, List.map_append]
        exact List.mem_append_left _ hMax.1
    · rw [List.map_append] at hLine
      rcases List.mem_append.1 hLine with hLine | hLine
      · have := hMax.2 line hLine
        omega
      · simp at hLine
        omega
  · rw [hHead]
    exact h.language_eq

/-! ## Runs -/

/-- A run is small throughout: each of its chunks is small, and what is joined before its last chunk
is small at every step. -/
structure SmallThroughout (budget : Budget) (run : List Chunk) : Prop where
  each : ∀ c ∈ run, c.tokens < budget.minTokens
  front : ∀ front, front <+: run → front ≠ run →
    Text.tokens ("\n".intercalate (front.map content)) < budget.minTokens

/-- A chunk stems from a run: it is the only chunk of the run, with a number of its own, or it
stands for several chunks that are small throughout and has the parts that are derived from its
lines and its content. -/
inductive StemsFrom (budget : Budget) : (run : List Chunk) → Chunk → Prop
  | kept (chunk : Chunk) (index : Nat) : StemsFrom budget [chunk] { chunk with index }
  | merged {run : List Chunk} {chunk : Chunk} (several : 1 < run.length)
      (standsFor : StandsFor run chunk) (small : SmallThroughout budget run)
      (contentHash_eq : chunk.contentHash = Text.contentHash chunk.content)
      (id_eq : chunk.id = idOf chunk.path chunk.startLine chunk.endLine chunk.contentHash) :
      StemsFrom budget run chunk

/-- A chunk stands for the run that it stems from. -/
lemma StemsFrom.standsFor {budget : Budget} {run : List Chunk} {chunk : Chunk}
    (h : StemsFrom budget run chunk) : StandsFor run chunk := by
  cases h with
  | kept old index => exact standsFor_singleton old index
  | merged _ hStands => exact hStands

/-- The number of a chunk does not decide what it stems from. -/
private lemma StemsFrom.number {budget : Budget} {run : List Chunk} {chunk : Chunk}
    (h : StemsFrom budget run chunk) (index : Nat) : StemsFrom budget run { chunk with index } := by
  cases h with
  | kept old _ => exact .kept old index
  | merged hMany hStands hSmall hHash hId =>
    refine .merged hMany ?_ hSmall hHash hId
    exact ⟨hStands.path_eq, hStands.content_eq, hStands.startLine_eq, hStands.endLine_eq,
      hStands.kind_eq, hStands.kind_eq_block, hStands.functionName, hStands.className,
      hStands.signature, hStands.language_eq⟩

/-- The run that a small chunk stems from is small throughout. -/
private lemma StemsFrom.smallThroughout {budget : Budget} {run : List Chunk} {chunk : Chunk}
    (h : StemsFrom budget run chunk) (hSmall : chunk.tokens < budget.minTokens) :
    SmallThroughout budget run := by
  cases h with
  | kept old index =>
    refine ⟨fun c hc => ?_, fun front hFront hNe => ?_⟩
    · rw [List.mem_singleton.1 hc]
      exact hSmall
    · -- nothing is shorter than a single chunk
      have hFront : front <+: [] ++ [old] := hFront
      have hNil : front <+: [] := (List.prefix_concat_iff.1 hFront).resolve_left hNe
      rw [List.prefix_nil.1 hNil]
      exact Nat.lt_of_le_of_lt (Nat.zero_le _) hSmall
  | merged _ _ hThroughout => exact hThroughout

/-- **One merger.** If a chunk stems from a run and is merged with the next one, the merger stems
from the run with that one more.

**Proof sketch.** Chunks are merged only if both are small, so each chunk of the longer run is
small. What the pass has merged of it on the way are the fronts of the run, which were small before,
and the chunk itself. -/
theorem StemsFrom.merge {budget : Budget} {run : List Chunk} {chunk : Chunk}
    (h : StemsFrom budget run chunk) {next : Chunk}
    (hMergeable : mergeable budget chunk next = true) :
    StemsFrom budget (run ++ [next]) (merge chunk next) := by
  simp only [mergeable, Bool.and_eq_true, decide_eq_true_eq, beq_iff_eq] at hMergeable
  obtain ⟨⟨⟨⟨hPath, hChunk⟩, hNext⟩, -⟩, -⟩ := hMergeable
  have hStands := h.standsFor
  have hSmall := h.smallThroughout hChunk
  have hPos := List.length_pos_iff.2 hStands.ne_nil
  refine .merged (by simp; omega) (hStands.merge hPath) ⟨fun c hc => ?_, ?_⟩ rfl rfl
  · rcases List.mem_append.1 hc with hc | hc
    · exact hSmall.each c hc
    · rw [List.mem_singleton.1 hc]
      exact hNext
  · intro front hFront hNe
    have hFront : front <+: run := (List.prefix_concat_iff.1 hFront).resolve_left hNe
    by_cases hRun : front = run
    · -- all but the last chunk is what has been merged so far
      rw [hRun, ← hStands.content_eq]
      exact hChunk
    · exact hSmall.front front hFront hRun

/-- The chunks of a merge pass stem from consecutive runs, the first of which goes on with the run
that the open chunk stems from. -/
private lemma exists_runs_mergeFrom (budget : Budget) (rest : List Chunk) :
    ∀ (run : List Chunk) (chunk : Chunk), StemsFrom budget run chunk →
      ∃ runs : List (List Chunk), runs.flatten = run ++ rest ∧ [] ∉ runs ∧
        List.Forall₂ (StemsFrom budget) runs (mergeFrom budget chunk rest) := by
  induction rest with
  | nil =>
    intro run chunk h
    exact ⟨[run], by simp, by simp [h.standsFor.ne_nil], .cons h .nil⟩
  | cons next rest ih =>
    intro run chunk h
    rw [mergeFrom]
    split
    · next hMergeable =>
      obtain ⟨runs, hFlatten, hNonempty, hStem⟩ :=
        ih (run ++ [next]) (merge chunk next) (h.merge hMergeable)
      exact ⟨runs, by simpa using hFlatten, hNonempty, hStem⟩
    · obtain ⟨runs, hFlatten, hNonempty, hStem⟩ := ih [next] next (.kept next next.index)
      refine ⟨run :: runs, by simp [hFlatten], ?_, .cons h hStem⟩
      simp [h.standsFor.ne_nil, hNonempty]

/-- The merged chunks stem from consecutive runs of the chunks. -/
private lemma exists_runs_mergeAll (budget : Budget) (chunks : List Chunk) :
    ∃ runs : List (List Chunk), runs.flatten = chunks ∧ [] ∉ runs ∧
      List.Forall₂ (StemsFrom budget) runs (mergeAll budget chunks) := by
  cases chunks with
  | nil => exact ⟨[], rfl, by simp, .nil⟩
  | cons chunk rest => exact exists_runs_mergeFrom budget rest [chunk] chunk (.kept chunk _)

/-- Numbering does not change what chunks stem from. -/
private lemma forall₂_stemsFrom_numbered {budget : Budget} {runs : List (List Chunk)}
    {chunks : List Chunk} (h : List.Forall₂ (StemsFrom budget) runs chunks) :
    List.Forall₂ (StemsFrom budget) runs (numbered chunks) := by
  rw [List.forall₂_iff_get] at h ⊢
  obtain ⟨hLength, hStem⟩ := h
  refine ⟨by simpa [numbered] using hLength, fun i hRun hChunk => ?_⟩
  have hOld : i < chunks.length := hLength ▸ hRun
  simpa [numbered] using (hStem i hRun hOld).number i

/-- **Nothing is lost or invented.** The arranged chunks stem one by one from consecutive runs of
the chunks in the order of their first lines, none of the runs is empty, and together they are all
chunks. Each arranged chunk has its place as its number.

**Proof sketch.** The runs are those of the merge pass over the sorted chunks
(`exists_runs_mergeAll`), and numbering changes nothing but the numbers. -/
theorem exists_runs_arrange (budget : Budget) (chunks : List Chunk) :
    ∃ (sorted : List Chunk) (runs : List (List Chunk)), StablySorted chunks sorted ∧
      runs.flatten = sorted ∧ [] ∉ runs ∧
      List.Forall₂ (StemsFrom budget) runs (arrange budget chunks) ∧
      (arrange budget chunks).map index = List.range (arrange budget chunks).length := by
  obtain ⟨runs, hFlatten, hNonempty, hStem⟩ := exists_runs_mergeAll budget
    (chunks.mergeSort fun a b => decide (a.startLine ≤ b.startLine))
  exact ⟨_, runs, stablySorted_mergeSort chunks, hFlatten, hNonempty,
    forall₂_stemsFrom_numbered hStem, map_index_numbered _⟩

/-- Three functions become one without a name, although the last has the name of the first. -/
example : (mergeAll {} (["f", "g", "f"].mapIdx fun place name =>
    create "a.rs" (place + 1) (place + 1) "fn" .function
      { language := "rust", functionName := some name })).map (fun chunk =>
        (chunk.startLine, chunk.endLine, chunk.kind, chunk.metadata.functionName, chunk.content)) =
      [(1, 3, .function, none, "fn\nfn\nfn")] := by
  decide +kernel

end Chunk

end CodeAtlas
