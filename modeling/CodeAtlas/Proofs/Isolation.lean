import CodeAtlas.Proofs.Answers
import CodeAtlas.Proofs.Ingestion

/-!
# Isolation between files

A removal disowns the nodes in the slots that are listed for the file, whoever owns them by then. So
a node of another file survives exactly if its slot is not listed. As long as no two files declare
one identifier at the same time, only nodes of the file itself are listed for it, and what other
files declare is safe. If two files do, the removal of one takes the node of the other; and the slot
that it frees stays listed for the other file, whose removal then takes what a third file put there.

## Main definitions

* `CodeAtlas.CodeGraph.NeverShared` — at no time do two files declare one identifier.
* `CodeAtlas.CodeGraph.Orderly` — what is listed for a file or declared by it, it owns.
* `CodeAtlas.CodeGraph.Keeps` — a graph has a node in its slot and answers with it.

## Main results

* `CodeAtlas.CodeGraph.orderly_run` — graphs are orderly if identifiers are never shared.
* `CodeAtlas.CodeGraph.keeps_removeFile_iff` — which nodes of other files a removal keeps.
* `CodeAtlas.Rivals.not_keeps_removeFile` — removals that take nodes of other files.
-/

set_option autoImplicit false

namespace CodeAtlas

namespace CodeGraph

/-! ## Files that share no identifier -/

/-- No two files declare one identifier. -/
def Apart (files : String → Option Extraction) : Prop :=
  ∀ file other extraction result id, files file = some extraction → files other = some result →
    extraction.Declares file id → result.Declares other id → file = other

/-- At no time do two files declare one identifier in the extractions that count for them. -/
def NeverShared (updates : List Update) : Prop :=
  ∀ before, before <+: updates → Apart (current before)

/-- What is listed for a file or declared by its extraction, the file owns. -/
structure Orderly (graph : CodeGraph) (files : String → Option Extraction) : Prop where
  listed : ∀ file slots slot, graph.fileNodes.get? file = some slots → slot ∈ slots →
    ∃ node, graph.nodes.get? slot = some node ∧ node.owner = some file
  declared : ∀ file extraction id, files file = some extraction → extraction.Declares file id →
    ∃ slot node, graph.nodes.get? slot = some node ∧ node.id = id ∧ node.owner = some file

/-- A graph without files is orderly. -/
private lemma orderly_empty : Orderly {} fun _ => none where
  listed file slots slot h := by cases h
  declared file extraction id h := by cases h

/-- Identifiers are never shared if no two of the extractions declare one in common. -/
lemma neverShared_of_apartFrom {updates : List Update}
    (h : ∀ extraction result, .ingest extraction ∈ updates → .ingest result ∈ updates →
      extraction.ApartFrom result) : NeverShared updates := by
  intro before hPrefix file other extraction result id hFile hOther hDeclares hDeclares'
  obtain ⟨hMem, hFile⟩ := mem_of_current hFile
  obtain ⟨hMem', hOther⟩ := mem_of_current hOther
  exact h extraction result (hPrefix.subset hMem) (hPrefix.subset hMem') file other id hFile hOther
    hDeclares hDeclares'

/-- In an orderly graph a node is not listed for a file that does not own it. -/
lemma Orderly.notMem_listed {graph : CodeGraph} {files : String → Option Extraction}
    (h : graph.Orderly files) {file owner : String} {slot : Nat} {node : GraphNode}
    (hNode : graph.nodes.get? slot = some node) (hOwner : node.owner = some owner)
    (hNe : owner ≠ file) : slot ∉ (graph.fileNodes.get? file).getD [] := by
  intro hMem
  obtain ⟨slots, hSlots, hMem⟩ := mem_listed_iff.1 hMem
  obtain ⟨found, hFound, hFoundOwner⟩ := h.listed file slots slot hSlots hMem
  cases hNode.symm.trans hFound
  exact hNe (Option.some.inj (hOwner.symm.trans hFoundOwner))

/-! ## Removal -/

/-- A node that has an owner stays as it is iff its slot is not disowned. -/
lemma Drops.get?_iff_of_owner {graph after : CodeGraph} {file : String} {places slots : List Nat}
    (h : Drops graph after file places slots) {slot : Nat} {node : GraphNode}
    (hNode : graph.nodes.get? slot = some node) (hOwner : node.owner.isSome) :
    after.nodes.get? slot = some node ↔ slot ∉ slots := by
  rw [h.nodes]
  constructor
  · rintro ⟨old, -, hEq, -⟩ hMem
    rw [if_pos hMem] at hEq
    rw [hEq] at hOwner
    cases hOwner
  · intro hMem
    exact ⟨node, hNode, (if_neg hMem).symm, fun _ => Or.inl hOwner⟩

/-- Removal of a file keeps a graph orderly: the nodes of other files are not listed for it.

**Proof sketch.** A node of another file is not listed for the file that goes, so it stays where it
is, with its owner. -/
lemma Orderly.removeFile {graph : CodeGraph} {files : String → Option Extraction}
    (h : graph.Orderly files) (hSound : graph.Sound) (file : String) :
    (graph.removeFile file).Orderly (revise files (.remove file)) := by
  have hDrops := hSound.removeFile_drops file
  have hKept : ∀ {slot node other}, graph.nodes.get? slot = some node →
      node.owner = some other → other ≠ file →
      (graph.removeFile file).nodes.get? slot = some node := by
    intro slot node other hNode hOwner hNe
    exact (hDrops.get?_iff_of_owner hNode (by rw [hOwner]; rfl)).2
      (h.notMem_listed hNode hOwner hNe)
  constructor
  · intro other slots slot hSlots hMem
    rw [hDrops.fileNodes, Table.get?_erase] at hSlots
    split at hSlots
    · cases hSlots
    · next hNe =>
      obtain ⟨node, hNode, hOwner⟩ := h.listed other slots slot hSlots hMem
      exact ⟨node, hKept hNode hOwner hNe, hOwner⟩
  · intro other extraction id hFile hDeclares
    rw [revise] at hFile
    split at hFile
    · cases hFile
    · next hNe =>
      obtain ⟨slot, node, hNode, hId, hOwner⟩ := h.declared other extraction id hFile hDeclares
      exact ⟨slot, node, hKept hNode hOwner hNe, hId, hOwner⟩

/-! ## Ingestion -/

/-- The entities of a file leave the nodes of another file to it, if they do not declare them. -/
private lemma Settles.exists_get?_of_owner {graph after : CodeGraph} {file other : String}
    {entities : List Entity} {slots : List Nat} (h : Settles graph after file entities slots)
    (hSound : graph.Sound) {slot : Nat} {node : GraphNode}
    (hNode : graph.nodes.get? slot = some node) (hOwner : node.owner = some other)
    (hOwn : ∀ entity ∈ entities, entity.path = file → entity.id ≠ node.id) :
    ∃ found, after.nodes.get? slot = some found ∧ found.id = node.id ∧
      found.owner = some other := by
  obtain ⟨found, hFound, hId, -⟩ := h.exists_get? hSound hNode
  refine ⟨found, hFound, hId, ?_⟩
  have hNot : ¬∃ entity ∈ entities, entity.id = node.id ∧ entity.path = file := by
    rintro ⟨entity, hMem, hEntity, hPath⟩
    exact hOwn entity hMem hPath hEntity
  rw [h.owner hFound, hId, if_neg hNot, hSound.nodeOf?_eq_some_iff.2 ⟨rfl, slot, hNode⟩]
  exact hOwner

/-- What a file declares becomes its own. -/
private lemma Settles.exists_get?_of_mem {graph after : CodeGraph} {file : String}
    {entities : List Entity} {slots : List Nat} (h : Settles graph after file entities slots)
    {entity : Entity} (hMem : entity ∈ entities) (hPath : entity.path = file) :
    ∃ slot node, after.nodes.get? slot = some node ∧ node.id = entity.id ∧
      node.owner = some file := by
  obtain ⟨slot, hSlot⟩ := Option.isSome_iff_exists.1 (h.found entity hMem)
  obtain ⟨node, hNode, hId⟩ := (h.sound.index_iff _ _).1 hSlot
  refine ⟨slot, node, hNode, hId, ?_⟩
  rw [h.owner hNode, if_pos ⟨entity, hMem, hId.symm, hPath⟩]

/-- An ingestion leaves the nodes of another file to it: that file declares them, so the ingested
one does not. -/
private lemma exists_get?_of_apart {graph middle final : CodeGraph}
    {files : String → Option Extraction} {extraction : Extraction} {fileModule : Entity}
    {slots places : List Nat} (hModule : extraction.module? = some fileModule)
    (hSound : graph.Sound) (hDeclare : graph.OwnersDeclare (revise files (.remove fileModule.path)))
    (hApart : Apart (revise files (.ingest extraction)))
    (hSettles : Settles graph middle fileModule.path extraction.entities slots)
    (hJoins : Joins middle final extraction.relations places) {slot : Nat} {node : GraphNode}
    {other : String} (hNode : graph.nodes.get? slot = some node) (hOwner : node.owner = some other)
    (hNe : other ≠ fileModule.path) :
    ∃ found, final.nodes.get? slot = some found ∧ found.id = node.id ∧
      found.owner = some other := by
  obtain ⟨result, hResult, hOther⟩ := hDeclare slot node other hNode hOwner
  rw [revise, if_neg hNe] at hResult
  have hOwn : ∀ entity ∈ extraction.entities, entity.path = fileModule.path →
      entity.id ≠ node.id := by
    intro entity hMem hPath hId
    refine hNe (hApart other fileModule.path result extraction node.id ?_ ?_ hOther
      ⟨entity, hMem, hPath, hId⟩)
    · rw [revise_ingest files hModule, if_neg hNe, hResult]
    · rw [revise_ingest files hModule, if_pos rfl]
  obtain ⟨found, hFound, hId, hFoundOwner⟩ :=
    hSettles.exists_get?_of_owner hSound hNode hOwner hOwn
  exact ⟨found, hJoins.kept slot found hFound, hId, hFoundOwner⟩

/-- Ingestion keeps a graph orderly, if the file declares nothing that another file declares.

**Proof sketch.** The file does not take over a node of another file, and the slots that are listed
for it are those of the nodes that it takes over. -/
private lemma Orderly.ingest {graph : CodeGraph} {files : String → Option Extraction}
    (h : graph.Orderly files) (hConsistent : graph.Consistent) (hHold : graph.OwnersHold files)
    {extraction : Extraction} (hApart : Apart (revise files (.ingest extraction))) :
    (graph.ingest extraction).1.Orderly (revise files (.ingest extraction)) := by
  cases hModule : extraction.module? with
  | none =>
    rw [graph.fst_ingest_of_none hModule, revise_ingest_of_none files hModule]
    exact h
  | some fileModule =>
    obtain ⟨middle, final, slots, places, hSettles, hJoins, hIngest⟩ :=
      hConsistent.toSound.exists_settles_joins hModule
    have hBefore := h.removeFile hConsistent.toSound fileModule.path
    have hSound := (hConsistent.removeFile fileModule.path).toSound
    have hDeclare := (hHold.removeFile hConsistent fileModule.path).ownersDeclare
    rw [hIngest]
    constructor
    · intro other listed slot hListed hMem
      rw [get?_fileNodes_record] at hListed
      split at hListed
      · next hOther =>
        cases hListed
        obtain ⟨entity, hEntity, hPath, hIndex⟩ := (hSettles.mem_slots slot).1 hMem
        obtain ⟨node, hNode, hId⟩ := (hSettles.sound.index_iff _ _).1 hIndex
        refine ⟨node, hJoins.kept slot node hNode, ?_⟩
        rw [hSettles.owner hNode, if_pos ⟨entity, hEntity, hId.symm, hPath⟩, hOther]
      · next hOther =>
        rw [hJoins.fileNodes, hSettles.fileNodes] at hListed
        obtain ⟨node, hNode, hOwner⟩ := hBefore.listed other listed slot hListed hMem
        obtain ⟨found, hFound, -, hFoundOwner⟩ :=
          exists_get?_of_apart hModule hSound hDeclare hApart hSettles hJoins hNode hOwner hOther
        exact ⟨found, hFound, hFoundOwner⟩
    · intro other result id hResult hDeclares
      rw [revise_ingest files hModule] at hResult
      split at hResult
      · next hOther =>
        cases hResult
        obtain ⟨entity, hEntity, hPath, rfl⟩ := hDeclares
        rw [hOther] at hPath ⊢
        obtain ⟨slot, node, hNode, hId, hOwner⟩ := hSettles.exists_get?_of_mem hEntity hPath
        exact ⟨slot, node, hJoins.kept slot node hNode, hId, hOwner⟩
      · next hOther =>
        obtain ⟨slot, node, hNode, hId, hOwner⟩ :=
          hBefore.declared other result id ((if_neg hOther).trans hResult) hDeclares
        obtain ⟨found, hFound, hFoundId, hFoundOwner⟩ :=
          exists_get?_of_apart hModule hSound hDeclare hApart hSettles hJoins hNode hOwner hOther
        exact ⟨slot, found, hFound, hFoundId.trans hId, hFoundOwner⟩

/-- **Graphs are orderly if identifiers are never shared.**

**Proof sketch.** Induction over the updates (`run_induct`). What an ingestion needs besides order
is that owners hold their entities (`ownersHold_run`) and that the extractions that count are apart
by then. -/
theorem orderly_run {updates : List Update} (h : NeverShared updates) :
    (run updates).Orderly (current updates) := by
  refine run_induct updates orderly_empty ?_ ?_
  · intro before extraction hPrefix hBefore
    have hApart := h _ hPrefix
    rw [current, List.foldl_append] at hApart
    exact hBefore.ingest (consistent_run before) (ownersHold_run before) hApart
  · exact fun before file _ hBefore => hBefore.removeFile (consistent_run before).toSound file

/-! ## Nodes of other files -/

/-- A graph has a node in its slot, and answers with the entity of the node. -/
def Keeps (graph : CodeGraph) (slot : Nat) (node : GraphNode) : Prop :=
  graph.nodes.get? slot = some node ∧ graph.entity? node.id = node.entity

/-- A sound graph that has a node answers with its entity. -/
private lemma Sound.keeps_iff {graph : CodeGraph} (h : graph.Sound) {slot : Nat}
    {node : GraphNode} :
    graph.Keeps slot node ↔ graph.nodes.get? slot = some node := by
  refine ⟨And.left, fun hNode => ⟨hNode, ?_⟩⟩
  rw [entity?_eq_bind, h.nodeOf?_eq_some_iff.2 ⟨rfl, slot, hNode⟩]
  rfl

/-- **Which nodes of other files a removal keeps.** A node that another file owns holds an entity
that this file declares. The removal of a file keeps it iff its slot is not listed for the file; and
it is not, if at no time two files declare one identifier.

**Proof sketch.** The removal disowns what is listed and prunes no node that has an owner. In an
orderly graph what is listed for a file is its own. -/
theorem keeps_removeFile_iff {updates : List Update} {file owner : String} {slot : Nat}
    {node : GraphNode} (hNode : (run updates).nodes.get? slot = some node)
    (hOwner : node.owner = some owner) (hNe : owner ≠ file) :
    (∃ extraction entity, current updates owner = some extraction ∧
      entity ∈ extraction.entities ∧ entity.path = owner ∧ entity.id = node.id ∧
      node.entity = some entity) ∧
    (((run updates).removeFile file).Keeps slot node ↔
      slot ∉ ((run updates).fileNodes.get? file).getD []) ∧
    (NeverShared updates → ((run updates).removeFile file).Keeps slot node) := by
  have hDrops := (consistent_run updates).toSound.removeFile_drops file
  have hIff : ((run updates).removeFile file).Keeps slot node ↔
      slot ∉ ((run updates).fileNodes.get? file).getD [] :=
    hDrops.sound.keeps_iff.trans (hDrops.get?_iff_of_owner hNode (by rw [hOwner]; rfl))
  refine ⟨ownersHold_run updates slot node owner hNode hOwner, hIff, fun hNever => ?_⟩
  exact hIff.2 ((orderly_run hNever).notMem_listed hNode hOwner hNe)

end CodeGraph

/-! ## Files that share an identifier -/

namespace Rivals

open CodeGraph

/-- A function that a file declares. -/
def declared (file id : String) : Entity :=
  { id, name := id, kind := .function, path := file, startLine := 1, endLine := 1 }

/-- The extraction of a file that declares identifiers and states nothing. -/
def declaring (file : String) (ids : List String) : Extraction := ⟨ids.map (declared file), []⟩

/-- Two files that declare one identifier are ingested. -/
def rivals : List Update :=
  [.ingest (declaring "a" ["a", "shared"]), .ingest (declaring "b" ["b", "shared"])]

/-- The second of them is removed, and a third file is ingested that shares nothing with them. -/
def newcomer : List Update :=
  rivals ++ [.remove "b", .ingest (declaring "c" ["c"])]

/-- **Removals that take nodes of other files.** The node that `a` and `b` declare belongs to `b`,
and goes when `a` is removed. If `b` is removed instead, the slot is used again for the node of `c`
and is still listed for `a`: so the node of `c` goes when `a` is removed. -/
theorem not_keeps_removeFile :
    (run rivals).Keeps 1 ⟨"shared", some (declared "b" "shared"), some "b"⟩ ∧
    ((run rivals).removeFile "a").entity? "shared" = none ∧
    ¬((run rivals).removeFile "a").Keeps 1 ⟨"shared", some (declared "b" "shared"), some "b"⟩ ∧
    (run newcomer).Keeps 1 ⟨"c", some (declared "c" "c"), some "c"⟩ ∧
    ((run newcomer).removeFile "a").entity? "c" = none ∧
    ¬((run newcomer).removeFile "a").Keeps 1 ⟨"c", some (declared "c" "c"), some "c"⟩ := by
  unfold Keeps
  decide +kernel

/-- Two files that declare different identifiers are ingested. -/
def strangers : List Update :=
  [.ingest (declaring "a" ["a"]), .ingest (declaring "b" ["b"])]

/-- The node of `c` is listed for `a`, so a removal of `a` takes it and one of `b` does not. Between
strangers a removal takes no node of the other. -/
theorem keeps_removeFile_newcomer :
    ¬((run newcomer).removeFile "a").Keeps 1 ⟨"c", some (declared "c" "c"), some "c"⟩ ∧
    ((run newcomer).removeFile "b").Keeps 1 ⟨"c", some (declared "c" "c"), some "c"⟩ ∧
    ((run strangers).removeFile "a").Keeps 1 ⟨"b", some (declared "b" "b"), some "b"⟩ := by
  have hNode : (run newcomer).nodes.get? 1 = some ⟨"c", some (declared "c" "c"), some "c"⟩ := by
    decide +kernel
  refine ⟨fun hKeeps => ?_, ?_, ?_⟩
  · exact (keeps_removeFile_iff hNode rfl (by decide)).2.1.1 hKeeps (by decide +kernel)
  · exact (keeps_removeFile_iff hNode rfl (by decide)).2.1.2 (by decide +kernel)
  · refine (keeps_removeFile_iff ?_ rfl (by decide)).2.2 ?_
    · decide +kernel
    · have hApart : ∀ extraction ∈ [declaring "a" ["a"], declaring "b" ["b"]],
          ∀ other ∈ [declaring "a" ["a"], declaring "b" ["b"]], extraction.ApartFrom other := by
        decide +kernel
      have hMem : ∀ extraction, .ingest extraction ∈ strangers →
          extraction ∈ [declaring "a" ["a"], declaring "b" ["b"]] := by
        intro extraction h
        simpa [strangers] using h
      exact neverShared_of_apartFrom fun extraction other h h' =>
        hApart _ (hMem _ h) _ (hMem _ h')

end Rivals

end CodeAtlas
