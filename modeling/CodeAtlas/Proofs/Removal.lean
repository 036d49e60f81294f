import CodeAtlas.Proofs.Answers
import CodeAtlas.Proofs.Ingestion

/-!
# Removal after ingestion

A file that comes and goes leaves the edges and the identifiers of a graph as they were. What it
named may be left changed: a node that it declared is a placeholder afterwards, even if the graph
had it as a module from outside of the file set before.

## Main definitions

* `CodeAtlas.Extraction.residue` — what is left of a node of the graph.
* `CodeAtlas.CodeGraph.Displaces` — a file declares what the graph has as a module from outside.
* `CodeAtlas.CodeGraph.Fills` — a file names a module from outside that the graph has as a
  placeholder.
* `CodeAtlas.CodeGraph.Undoes` — the answers of a graph after a file has come and gone.

## Main results

* `CodeAtlas.CodeGraph.recasts_removeFile_ingest` — ingestion and removal recast the nodes that the
  file named, and do nothing else.
* `CodeAtlas.CodeGraph.undoes_removeFile_ingest` — removal undoes ingestion, but for the modules
  that the file displaced.

## Implementation notes

`Undoes` does not say what a graph answers about an identifier that the file fills.
-/

set_option autoImplicit false

namespace CodeAtlas

namespace Extraction

/-- What is left of a node when a file that may have named it has come and gone. -/
def residue (extraction : Extraction) (file : String) (node : GraphNode) : GraphNode :=
  match extraction.entities.find? (·.id = node.id) with
  | none => node
  | some entity =>
    if entity.path = file then node.disowned else GraphNode.upserted entity none (some node)

/-- Each entity is the only one of its identifier. -/
lemma Grounded.filter_id {extraction : Extraction} (h : extraction.Grounded) {entity : Entity}
    (hMem : entity ∈ extraction.entities) :
    extraction.entities.filter (·.id = entity.id) = [entity] :=
  Entity.filter_id_of_nodup h.ids_nodup hMem

/-- Each entity is found by its identifier. -/
lemma Grounded.find?_id {extraction : Extraction} (h : extraction.Grounded) {entity : Entity}
    (hMem : entity ∈ extraction.entities) :
    extraction.entities.find? (·.id = entity.id) = some entity := by
  rw [← List.head?_filter, h.filter_id hMem]
  rfl

/-- What is left of a node has its identifier. -/
private lemma id_residue (extraction : Extraction) (file : String) (node : GraphNode) :
    (extraction.residue file node).id = node.id := by
  unfold residue
  split
  · rfl
  · next entity hFind =>
    split
    · rfl
    · have hId : entity.id = node.id := by simpa using List.find?_some hFind
      rw [GraphNode.id_upserted none fun found hFound => ?_, hId]
      cases hFound
      exact hId.symm

/-- A node that the extraction does not name is left as it is. -/
lemma residue_of_forall_ne {extraction : Extraction} {file : String} {node : GraphNode}
    (h : ∀ entity ∈ extraction.entities, entity.id ≠ node.id) :
    extraction.residue file node = node := by
  have hNone : extraction.entities.find? (·.id = node.id) = none := by
    rw [List.find?_eq_none]
    intro entity hMem
    simpa using h entity hMem
  rw [residue, hNone]

/-- A node that the extraction names is disowned, or it holds what it held or the entity. -/
lemma Grounded.residue_of_mem {extraction : Extraction} (h : extraction.Grounded) {file : String}
    {node : GraphNode} {entity : Entity} (hMem : entity ∈ extraction.entities)
    (hId : entity.id = node.id) :
    extraction.residue file node =
      if entity.path = file then node.disowned else GraphNode.upserted entity none (some node) := by
  rw [residue, ← hId, h.find?_id hMem]

end Extraction

namespace CodeGraph

/-! ## Nodes and edges -/

section

variable {graph middle final after : CodeGraph} {file : String} {extraction : Extraction}
  {slots places : List Nat}

/-- The edges that a file added are the ones that go with it. -/
lemma get?_edges_of_drops (hSettles : Settles graph middle file extraction.entities slots)
    (hJoins : Joins middle final extraction.relations places)
    (hDrops : Drops (final.record file slots places) after file places slots) (place : Nat) :
    after.edges.get? place = graph.edges.get? place := by
  rw [hDrops.edges, ← hSettles.edges]
  split
  · next hMem => exact (hJoins.fresh place hMem).symm
  · next hMem => exact hJoins.edges place hMem

/-- What is left of a node, from how it was settled: it is disowned if its slot is listed.

**Proof sketch.** If an entity names the node, it is the only one of its identifier. The slot is
listed exactly if the entity is of the file; the node is then disowned, and otherwise it is what the
entity makes of it. If no entity names the node, it is settled as it was and its slot is not listed.
-/
private lemma residue_eq_of_settles (hSound : graph.Sound) (hGrounded : extraction.Grounded)
    (hSettles : Settles graph middle file extraction.entities slots) {slot : Nat}
    {node found : GraphNode} (hNode : graph.nodes.get? slot = some node)
    (hFound : middle.nodes.get? slot = some found) :
    extraction.residue file node = if slot ∈ slots then found.disowned else found := by
  obtain ⟨found', hFound', hId, hSettled⟩ := hSettles.exists_get? hSound hNode
  cases hFound.symm.trans hFound'
  have hSlots := hSettles.mem_slots_iff hFound
  rw [hId] at hSlots
  by_cases hNamed : ∃ entity ∈ extraction.entities, entity.id = node.id
  · obtain ⟨entity, hMem, hEntity⟩ := hNamed
    rw [← hEntity, hGrounded.filter_id hMem] at hSettled
    have hUpserted : found = GraphNode.upserted entity (entity.ownerIn file) (some node) :=
      (Option.some.inj hSettled).symm
    rw [hGrounded.residue_of_mem hMem hEntity]
    by_cases hPath : entity.path = file
    · rw [if_pos hPath, if_pos (hSlots.2 ⟨entity, hMem, hEntity, hPath⟩), hUpserted,
        Entity.ownerIn, if_pos hPath]
      rfl
    · -- an entity of the file with this identifier would be the same one
      have hNotMem : slot ∉ slots := by
        rw [hSlots]
        rintro ⟨other, hOther, hOtherId, hOtherPath⟩
        have hSame := hGrounded.find?_id hOther
        rw [hOtherId, ← hEntity, hGrounded.find?_id hMem] at hSame
        cases hSame
        exact hPath hOtherPath
      rw [if_neg hPath, if_neg hNotMem, hUpserted, Entity.ownerIn, if_neg hPath]
  · have hNone : ∀ entity ∈ extraction.entities, entity.id ≠ node.id := fun entity hMem hEntity =>
      hNamed ⟨entity, hMem, hEntity⟩
    have hFilter : extraction.entities.filter (·.id = node.id) = [] := by
      rw [List.filter_eq_nil_iff]
      intro entity hMem
      simpa using hNone entity hMem
    have hNotMem : slot ∉ slots := by
      rw [hSlots]
      rintro ⟨entity, hMem, hEntity, -⟩
      exact hNone entity hMem hEntity
    rw [hFilter] at hSettled
    rw [Extraction.residue_of_forall_ne hNone, if_neg hNotMem]
    exact Option.some.inj hSettled

/-- A node that was there stays in its slot, as what is left of it.

**Proof sketch.** What is left of the node was settled in its slot and kept by the relations, so it
is enough that something holds it. If it had no owner, an edge touched it, and the edges are as
before. If it had one, the file does not declare it, so it still has that owner. -/
private lemma get?_nodes_of_get? (hSound : graph.Sound) (hAnchored : graph.Anchored)
    (hGrounded : extraction.Grounded)
    (hSettles : Settles graph middle file extraction.entities slots)
    (hJoins : Joins middle final extraction.relations places)
    (hDrops : Drops (final.record file slots places) after file places slots)
    {slot : Nat} {node : GraphNode} (hNode : graph.nodes.get? slot = some node)
    (hFree : extraction.Declares file node.id → node.owner = none) :
    after.nodes.get? slot = some (extraction.residue file node) := by
  obtain ⟨found, hFound, hId, -⟩ := hSettles.exists_get? hSound hNode
  have hLeft := residue_eq_of_settles hSound hGrounded hSettles hNode hFound
  refine (hDrops.nodes slot _).2 ⟨found, hJoins.kept slot found hFound, hLeft, fun _ => ?_⟩
  cases hOwner : node.owner with
  | none =>
    refine Or.inr ?_
    obtain ⟨place, edge, hEdge, hEnd⟩ := hAnchored slot node hNode hOwner
    exact ⟨place, edge, (get?_edges_of_drops hSettles hJoins hDrops place).trans hEdge, hEnd⟩
  | some owner =>
    -- an owned node is not declared by the file, so it keeps its owner
    refine Or.inl ?_
    have hNotOwn : ¬∃ entity ∈ extraction.entities, entity.id = node.id ∧ entity.path = file := by
      rintro ⟨entity, hMem, hEntity, hPath⟩
      rw [hFree ⟨entity, hMem, hPath, hEntity⟩] at hOwner
      cases hOwner
    have hNotMem : slot ∉ slots := by
      rw [hSettles.mem_slots_iff hFound, hId]
      exact hNotOwn
    have hKept := hSettles.owner hFound
    rw [hId, if_neg hNotOwn, hSound.nodeOf?_eq_some_iff.2 ⟨rfl, slot, hNode⟩] at hKept
    rw [hLeft, if_neg hNotMem, hKept, Option.bind_some, hOwner]
    rfl

/-- No edge touches a slot that was free. -/
private lemma not_touched_of_get?_eq_none (hSound : graph.Sound)
    (hSettles : Settles graph middle file extraction.entities slots)
    (hJoins : Joins middle final extraction.relations places)
    (hDrops : Drops (final.record file slots places) after file places slots) {slot : Nat}
    (hNone : graph.nodes.get? slot = none) : ¬after.Touched slot := by
  rintro ⟨place, edge, hEdge, hEnd⟩
  rw [get?_edges_of_drops hSettles hJoins hDrops] at hEdge
  obtain ⟨hSource, hTarget⟩ := hSound.ends_live place edge hEdge
  rcases hEnd with rfl | rfl
  · rw [hNone] at hSource
    cases hSource
  · rw [hNone] at hTarget
    cases hTarget

/-- An identifier that was given a slot that was free had no node. -/
private lemma nodeOf?_eq_none_of_settles (hSound : graph.Sound)
    (hSettles : Settles graph middle file extraction.entities slots) {slot : Nat}
    {node : GraphNode} (hNode : middle.nodes.get? slot = some node)
    (hNone : graph.nodes.get? slot = none) : graph.nodeOf? node.id = none := by
  by_contra hSome
  obtain ⟨found, hFound⟩ := Option.ne_none_iff_exists'.1 hSome
  obtain ⟨hId, place, hPlace⟩ := hSound.nodeOf?_eq_some_iff.1 hFound
  have hIndex := hSettles.index found.id place (hSound.index_of_get? hPlace)
  rw [hId, hSettles.sound.index_of_get? hNode] at hIndex
  cases hIndex
  rw [hNone] at hPlace
  cases hPlace

/-- A node in a slot that was free is listed for the file, or it has no owner and an edge of the
file touches it.

**Proof sketch.** A node that the relations added is an end of one of them. Any other is that of an
entity: if the entity is of the file it is listed, and if not, a relation leads to it, as the
extraction is grounded. -/
private lemma listed_or_touchedBy_of_get?_eq_none (hSound : graph.Sound)
    (hGrounded : extraction.Grounded) {fileModule : Entity}
    (hModule : extraction.module? = some fileModule)
    (hSettles : Settles graph middle fileModule.path extraction.entities slots)
    (hJoins : Joins middle final extraction.relations places) {slot : Nat} {node : GraphNode}
    (hNode : final.nodes.get? slot = some node) (hNone : graph.nodes.get? slot = none) :
    slot ∈ slots ∨ final.TouchedBy places slot ∧ node.owner = none := by
  rcases hJoins.new slot node hNode with hMiddle | ⟨hNew, hBy⟩
  · by_cases hOwn : ∃ entity ∈ extraction.entities, entity.id = node.id ∧
        entity.path = fileModule.path
    · exact Or.inl ((hSettles.mem_slots_iff hMiddle).2 hOwn)
    · have hNamed : ∃ entity ∈ extraction.entities, entity.id = node.id := by
        by_contra hNot
        have hBefore := hSettles.get?_of_forall_ne hSound hMiddle fun entity hMem hId =>
          hNot ⟨entity, hMem, hId⟩
        rw [hNone] at hBefore
        cases hBefore
      obtain ⟨entity, hMem, hId⟩ := hNamed
      refine Or.inr ⟨hJoins.touchedBy_of_foreign hGrounded.foreign_linked hModule hMem
        (fun hPath => hOwn ⟨entity, hMem, hId, hPath⟩) hNode hId, ?_⟩
      rw [hSettles.owner hMiddle, if_neg hOwn,
        nodeOf?_eq_none_of_settles hSound hSettles hMiddle hNone]
      rfl
  · exact Or.inr ⟨hBy, by rw [hNew]⟩

/-- A slot that was free is free again. -/
private lemma get?_nodes_of_get?_eq_none (hSound : graph.Sound) (hGrounded : extraction.Grounded)
    {fileModule : Entity} (hModule : extraction.module? = some fileModule)
    (hSettles : Settles graph middle fileModule.path extraction.entities slots)
    (hJoins : Joins middle final extraction.relations places)
    (hDrops : Drops (final.record fileModule.path slots places) after fileModule.path places slots)
    {slot : Nat} (hNone : graph.nodes.get? slot = none) : after.nodes.get? slot = none := by
  by_contra hSome
  obtain ⟨node, hNode⟩ := Option.ne_none_iff_exists'.1 hSome
  obtain ⟨old, hOld, hEq, hHeld⟩ := (hDrops.nodes slot node).1 hNode
  have hConcerned :=
    listed_or_touchedBy_of_get?_eq_none hSound hGrounded hModule hSettles hJoins hOld hNone
  -- the removal left the node without an owner and without an edge, so nothing held it
  have hOwner : node.owner = none := by
    rw [hEq]
    split
    · rfl
    · next hNotMem => exact (hConcerned.resolve_left hNotMem).2
  rcases hHeld (hConcerned.symm.imp_left And.left) with hOwned | hTouched
  · rw [hOwner] at hOwned
    cases hOwned
  · exact not_touched_of_get?_eq_none hSound hSettles hJoins hDrops hNone hTouched

end

/-- **A file that comes and goes.** After the ingestion and the removal of a file, the graph is what
it is after its removal alone, but for what the nodes hold that the file named.

**Proof sketch.** The edges that go are those that were added, so a slot is touched as before. A
node that was there is held by its owner or by an edge, and one that was not is pruned: it is listed
for the file, or an edge of the file led to it. -/
theorem recasts_removeFile_ingest {graph : CodeGraph} (hConsistent : graph.Consistent)
    (hAnchored : graph.Anchored) {extraction : Extraction} (hGrounded : extraction.Grounded)
    {fileModule : Entity} (hModule : extraction.module? = some fileModule)
    (hFree : ∀ slot node, (graph.removeFile fileModule.path).nodes.get? slot = some node →
      extraction.Declares fileModule.path node.id → node.owner = none) :
    Recasts (graph.removeFile fileModule.path)
      ((graph.ingest extraction).1.removeFile fileModule.path)
      (extraction.residue fileModule.path) := by
  have hSound := (hConsistent.toSound.removeFile_drops fileModule.path).sound
  have hRemoved := hAnchored.removeFile hConsistent.toSound fileModule.path
  obtain ⟨middle, final, slots, places, hSettles, hJoins, hIngest⟩ :=
    hConsistent.toSound.exists_settles_joins hModule
  have hDrops := (hConsistent.ingest extraction).toSound.removeFile_drops fileModule.path
  rw [hIngest] at hDrops ⊢
  rw [get?_fileEdges_record, get?_fileNodes_record, if_pos rfl, if_pos rfl] at hDrops
  refine ⟨hSound, hDrops.sound, get?_edges_of_drops hSettles hJoins hDrops, fun slot => ?_,
    extraction.id_residue fileModule.path⟩
  cases hNode : (graph.removeFile fileModule.path).nodes.get? slot with
  | none => exact get?_nodes_of_get?_eq_none hSound hGrounded hModule hSettles hJoins hDrops hNode
  | some node =>
    exact get?_nodes_of_get? hSound hRemoved hGrounded hSettles hJoins hDrops hNode
      (hFree slot node hNode)

/-! ## Answers -/

/-- A file declares an identifier under which the graph has an entity. -/
def Displaces (graph : CodeGraph) (extraction : Extraction) (file id : String) : Prop :=
  extraction.Declares file id ∧ (graph.entity? id).isSome

/-- A file names an entity from outside of it under an identifier that is unresolved in the
graph. -/
def Fills (graph : CodeGraph) (extraction : Extraction) (file id : String) : Prop :=
  (∃ entity ∈ extraction.entities, entity.path ≠ file ∧ entity.id = id) ∧ id ∈ graph.unresolved

/-- What a graph answers after a file has come and gone: what it answered before, but that the
identifiers which the file displaced are placeholders now. What is found under an identifier that
the file filled is left open. -/
structure Undoes (graph after : CodeGraph) (extraction : Extraction) (file : String) : Prop where
  callees : ∀ id, after.callees id = graph.callees id
  callers : ∀ id, after.callers id = graph.callers id
  children : ∀ id, after.children id = graph.children id
  nodeCount : after.nodeCount = graph.nodeCount
  edgeCount : after.edgeCount = graph.edgeCount
  entity : ∀ id, ¬graph.Displaces extraction file id → ¬graph.Fills extraction file id →
    after.entity? id = graph.entity? id
  entity_displaced : ∀ id, graph.Displaces extraction file id → after.entity? id = none
  mem_unresolved : ∀ id, ¬graph.Fills extraction file id →
    (id ∈ after.unresolved ↔ id ∈ graph.unresolved ∨ graph.Displaces extraction file id)
  unresolved_ordered : after.unresolved.Pairwise (· < ·)
  sameAnswers : (∀ id, ¬graph.Displaces extraction file id) →
    (∀ id, ¬graph.Fills extraction file id) → SameAnswers after graph

/-- What is left of a node that the file declared is a placeholder. -/
lemma entity_residue_of_declares {extraction : Extraction} (hGrounded : extraction.Grounded)
    {file : String} {node : GraphNode} (h : extraction.Declares file node.id) :
    (extraction.residue file node).entity = none := by
  obtain ⟨entity, hMem, hPath, hId⟩ := h
  rw [hGrounded.residue_of_mem hMem hId, if_pos hPath]
  rfl

/-- A node that the file neither declared nor filled is left as it is. -/
lemma residue_eq_self {graph : CodeGraph} (hSound : graph.Sound) {extraction : Extraction}
    (hGrounded : extraction.Grounded) {file : String} {node : GraphNode}
    (hNode : graph.nodeOf? node.id = some node) (hNot : ¬extraction.Declares file node.id)
    (hFills : ¬graph.Fills extraction file node.id) : extraction.residue file node = node := by
  by_cases hNamed : ∃ entity ∈ extraction.entities, entity.id = node.id
  · obtain ⟨entity, hMem, hId⟩ := hNamed
    have hPath : entity.path ≠ file := fun hPath => hNot ⟨entity, hMem, hPath, hId⟩
    have hSome : node.entity ≠ none := fun hNone =>
      hFills ⟨⟨entity, hMem, hPath, hId⟩, hSound.mem_unresolved_iff.2 ⟨node, hNode, hNone⟩⟩
    rw [hGrounded.residue_of_mem hMem hId, if_neg hPath, GraphNode.upserted, if_neg (by simp),
      if_neg (by simpa using hSome)]
  · exact Extraction.residue_of_forall_ne fun entity hMem hId => hNamed ⟨entity, hMem, hId⟩

namespace Recasts

variable {graph after : CodeGraph} {extraction : Extraction} {file : String}

/-- What the file declared has no entity. -/
lemma entity?_of_declares (h : Recasts graph after (extraction.residue file))
    (hGrounded : extraction.Grounded) {id : String} (hDeclares : extraction.Declares file id) :
    after.entity? id = none := by
  rw [h.entity?]
  cases hNode : graph.nodeOf? id with
  | none => rfl
  | some node =>
    obtain ⟨rfl, -⟩ := h.sound.nodeOf?_eq_some_iff.1 hNode
    exact entity_residue_of_declares hGrounded hDeclares

/-- What the file neither displaced nor filled has the entity that it had. -/
private lemma entity?_eq (h : Recasts graph after (extraction.residue file))
    (hGrounded : extraction.Grounded) {id : String}
    (hDisplaces : ¬graph.Displaces extraction file id)
    (hFills : ¬graph.Fills extraction file id) : after.entity? id = graph.entity? id := by
  by_cases hDeclares : extraction.Declares file id
  · have hNone : graph.entity? id = none := by
      by_contra hSome
      exact hDisplaces ⟨hDeclares, Option.isSome_iff_ne_none.2 hSome⟩
    rw [h.entity?_of_declares hGrounded hDeclares, hNone]
  · rw [h.entity?, entity?_eq_bind]
    cases hNode : graph.nodeOf? id with
    | none => rfl
    | some node =>
      obtain ⟨rfl, -⟩ := h.sound.nodeOf?_eq_some_iff.1 hNode
      rw [Option.bind_some, Option.bind_some,
        residue_eq_self h.sound hGrounded hNode hDeclares hFills]

/-- What the file did not fill is unresolved if it was, or if the file displaced it. -/
private lemma mem_unresolved_iff (h : Recasts graph after (extraction.residue file))
    (hGrounded : extraction.Grounded) {id : String} (hFills : ¬graph.Fills extraction file id) :
    id ∈ after.unresolved ↔ id ∈ graph.unresolved ∨ graph.Displaces extraction file id := by
  rw [h.sound'.mem_unresolved_iff, h.sound.mem_unresolved_iff, h.nodeOf?]
  unfold Displaces
  rw [entity?_eq_bind]
  cases hNode : graph.nodeOf? id with
  | none => simp
  | some node =>
    obtain ⟨rfl, -⟩ := h.sound.nodeOf?_eq_some_iff.1 hNode
    by_cases hDeclares : extraction.Declares file node.id
    · have hNone := entity_residue_of_declares hGrounded hDeclares
      cases hHeld : node.entity <;> simp [hNone, hDeclares, hHeld]
    · simp [residue_eq_self h.sound hGrounded hNode hDeclares hFills, hDeclares]

/-- If the file displaced and filled nothing, the same identifiers are unresolved. -/
private lemma unresolved_eq_of_forall (h : Recasts graph after (extraction.residue file))
    (hGrounded : extraction.Grounded) (hDisplaces : ∀ id, ¬graph.Displaces extraction file id)
    (hFills : ∀ id, ¬graph.Fills extraction file id) : after.unresolved = graph.unresolved := by
  refine h.unresolved_eq fun slot node hNode => ?_
  have hFound := h.sound.nodeOf?_eq_some_iff.2 ⟨rfl, slot, hNode⟩
  by_cases hDeclares : extraction.Declares file node.id
  · have hNone : node.entity = none := by
      by_contra hSome
      refine hDisplaces node.id ⟨hDeclares, ?_⟩
      rw [entity?_eq_bind, hFound]
      exact Option.isSome_iff_ne_none.2 hSome
    rw [entity_residue_of_declares hGrounded hDeclares, hNone]
  · rw [residue_eq_self h.sound hGrounded hFound hDeclares (hFills node.id)]

/-- Answers follow from what is left of the nodes. -/
private lemma undoes (h : Recasts graph after (extraction.residue file))
    (hGrounded : extraction.Grounded) : Undoes graph after extraction file where
  callees id := h.neighbors id _ _
  callers id := h.neighbors id _ _
  children id := h.neighbors id _ _
  nodeCount := h.nodeCount
  edgeCount := h.edgeCount
  entity _ hDisplaces hFills := h.entity?_eq hGrounded hDisplaces hFills
  entity_displaced _ hDisplaces := h.entity?_of_declares hGrounded hDisplaces.1
  mem_unresolved _ hFills := h.mem_unresolved_iff hGrounded hFills
  unresolved_ordered := h.sound'.pairwise_unresolved
  sameAnswers hDisplaces hFills :=
    { entity := fun id => h.entity?_eq hGrounded (hDisplaces id) (hFills id)
      callees := fun id => h.neighbors id _ _
      callers := fun id => h.neighbors id _ _
      children := fun id => h.neighbors id _ _
      unresolved := h.unresolved_eq_of_forall hGrounded hDisplaces hFills
      nodeCount := h.nodeCount
      edgeCount := h.edgeCount }

end Recasts

/-- **Removal undoes ingestion, but for displaced modules.** Let a graph come from extractions that
the extractor gave, and ingest one more, of a file that the graph does not know and that declares
nothing which the extraction of another file declares. When the file is removed again, every query
is answered as before, except that what the file declared and the graph had as a module from outside
of the file set is a placeholder now. Of the entity under an identifier that the file fills, nothing
is said.

**Proof sketch.** The nodes are recast by `recasts_removeFile_ingest`, since the owner of a node
declares it. Edges and identifiers decide all answers but those about entities, and these are read
off what is left of each node. -/
theorem undoes_removeFile_ingest {updates : List Update} {extraction : Extraction}
    {fileModule : Entity}
    (hRun : ∀ ingested, Update.ingest ingested ∈ updates → ingested.Produced)
    (hProduced : extraction.Produced) (hModule : extraction.module? = some fileModule)
    (hUnknown : (run updates).knows fileModule.path = false)
    (hOnly : ∀ other result id, current updates other = some result → result.Declares other id →
      ¬extraction.Declares fileModule.path id) :
    Undoes (run updates) (((run updates).ingest extraction).1.removeFile fileModule.path)
      extraction fileModule.path := by
  have hConsistent := consistent_run updates
  have hAnchored : (run updates).Anchored := anchored_run fun ingested hMem =>
    (hRun ingested hMem).grounded
  have hSame := removeFile_of_not_knows hUnknown
  -- an owner of what the file declares would declare it too
  have hFree : ∀ slot node, ((run updates).removeFile fileModule.path).nodes.get? slot = some node →
      extraction.Declares fileModule.path node.id → node.owner = none := by
    intro slot node hNode hDeclares
    rw [hSame] at hNode
    cases hOwner : node.owner with
    | none => rfl
    | some owner =>
      obtain ⟨result, hResult, hOther⟩ := ownersDeclare_run updates slot node owner hNode hOwner
      exact absurd hDeclares (hOnly owner result node.id hResult hOther)
  have hRecasts :=
    recasts_removeFile_ingest hConsistent hAnchored hProduced.grounded hModule hFree
  have hFrom : Recasts (run updates)
      (((run updates).ingest extraction).1.removeFile fileModule.path)
      (extraction.residue fileModule.path) := by
    refine ⟨hConsistent.toSound, hRecasts.sound', fun place => ?_, fun slot => ?_,
      hRecasts.id_recast⟩
    · rw [hRecasts.edges, hSame]
    · rw [hRecasts.nodes, hSame]
  exact hFrom.undoes hProduced.grounded

end CodeGraph

/-! ## A displaced module -/

namespace Displacement

open CodeGraph

/-- The statement `import 'app.js';`, at the start of a file. -/
def statement : ParseTree :=
  .node ⟨"import_statement", true, none, 0, 16, 0, 0⟩
    [.node ⟨"import", false, none, 0, 6, 0, 0⟩ [],
     .node ⟨"string", true, some "source", 7, 15, 0, 0⟩
       [.node ⟨"'", false, none, 7, 8, 0, 0⟩ [],
        .node ⟨"string_fragment", true, none, 8, 14, 0, 0⟩ [],
        .node ⟨"'", false, none, 14, 15, 0, 0⟩ []],
     .node ⟨";", false, none, 15, 16, 0, 0⟩ []]

/-- The program that consists of the statement. -/
def program : ParseTree := .node ⟨"program", true, none, 0, 16, 0, 0⟩ [statement]

/-- The file that imports. -/
def subject : Subject := ⟨.javascript, "main.js", "import 'app.js';", none⟩

/-- The module of the file that imports. -/
def main : Entity := .ofFile "main.js" "import 'app.js';" none

/-- The extraction of the file that imports: `app.js` is a module from outside of the file set. -/
def importer : Extraction :=
  ⟨[main, .external "app.js"],
   [{ sourceId := "main.js", targetId := "app.js", kind := .imports }]⟩

/-- The extraction of an empty file `app.js`. -/
def declarer : Extraction := .ofModule (.ofFile "app.js" "" none)

/-- The walk through the program finds the import. -/
private lemma walk_program :
    subject.walk 500000 [.visit ⟨program, []⟩] { facts := [.entity main] } =
      .ok { visited := 2
            facts := [.relation "main.js" "app.js" .imports, .entity (.external "app.js"),
              .entity main] } := by
  have hProgram : subject.steps ⟨program, []⟩ = [] := rfl
  have hStatement : subject.steps ⟨statement, [program]⟩ =
      [.record (.entity (.external "app.js")),
       .record (.relation "main.js" "app.js" .imports)] := by
    have hSpecifiers : subject.specifiers statement = ["app.js"] := by decide +kernel
    show (subject.specifiers statement).flatMap subject.importSteps = _
    rw [hSpecifiers]
    rfl
  rw [Subject.walk_visit (by decide) (by rw [hProgram]; rfl)]
  show subject.walk 500000 [.visit ⟨statement, [program]⟩] _ = _
  rw [Subject.walk_visit (by decide) (by rw [hStatement]; rfl)]
  show subject.walk 500000 [] _ = _
  rw [Subject.walk]
  rfl

/-- The extractor gives the extraction of the file that imports. -/
private lemma produced_importer : importer.Produced := by
  refine ⟨.create {} .bundled, fun _ _ => none, ⟨"main.js", "import 'app.js';", some program⟩, none,
    ?_⟩
  have hDetect : Provider.bundled.detect "main.js" = some .javascript := by decide +kernel
  have hBlank : Text.allBlank "import 'app.js';" = false := by decide +kernel
  have hBinary : Text.looksBinary "import 'app.js';" = false := by decide +kernel
  have hTree : Extractor.ofTree {} subject main (.ok program) = .ok importer := by
    show subject.walk 500000 [.visit ⟨program, []⟩] _ >>= _ = _
    rw [walk_program]
    rfl
  simp only [subject, main] at hTree
  simp [Extractor.extract, hBlank, hBinary, Extractor.create, hDetect, ParserPool.treeOf, hTree]

/-- The extractor gives the extraction of the empty file. -/
private lemma produced_declarer : declarer.Produced :=
  ⟨.create {} .bundled, fun _ _ => none, ⟨"app.js", "", none⟩, none, rfl⟩

/-- Every extraction in the run is the extractor's. -/
private lemma produced_of_mem {extraction : Extraction}
    (h : Update.ingest extraction ∈ [Update.ingest importer]) : extraction.Produced := by
  cases List.mem_singleton.1 h
  exact produced_importer

/-- No other file declares what the empty file declares. -/
private lemma not_declares_declarer {other id : String} {result : Extraction}
    (hResult : current [.ingest importer] other = some result) (hOther : result.Declares other id) :
    ¬declarer.Declares "app.js" id := by
  have hCurrent : current [.ingest importer] other =
      if other = "main.js" then some importer else none := rfl
  rw [hCurrent] at hResult
  split at hResult
  · next hMain =>
    cases hResult
    rw [hMain] at hOther
    obtain ⟨entity, hMem, hPath, rfl⟩ := hOther
    rintro ⟨declared, hDeclared, -, hId⟩
    rw [List.mem_singleton.1 hDeclared] at hId
    rcases List.mem_cons.1 hMem with rfl | hMem
    · exact absurd hId (by decide +kernel)
    · rw [List.mem_singleton.1 hMem] at hPath
      exact absurd hPath (by decide +kernel)
  · cases hResult

/-- **Removal need not undo ingestion.** The graph of the file that imports has `app.js` as a module
from outside. An empty file `app.js` that comes and goes leaves a placeholder. -/
theorem not_sameAnswers_declarer :
    (∀ ingested, Update.ingest ingested ∈ [Update.ingest importer] → ingested.Produced) ∧
    declarer.Produced ∧
    (run [.ingest importer]).knows "app.js" = false ∧
    (∀ other result id, current [.ingest importer] other = some result →
      result.Declares other id → ¬declarer.Declares "app.js" id) ∧
    (run [.ingest importer]).entity? "app.js" = some (.external "app.js") ∧
    (((run [.ingest importer]).ingest declarer).1.removeFile "app.js").entity? "app.js" = none ∧
    ¬SameAnswers (((run [.ingest importer]).ingest declarer).1.removeFile "app.js")
      (run [.ingest importer]) := by
  have hBefore : (run [.ingest importer]).entity? "app.js" = some (.external "app.js") := by
    decide +kernel
  have hAfter : (((run [.ingest importer]).ingest declarer).1.removeFile "app.js").entity?
      "app.js" = none := by
    decide +kernel
  refine ⟨fun _ => produced_of_mem, produced_declarer, by decide +kernel,
    fun _ _ _ => not_declares_declarer, hBefore, hAfter, fun hSame => ?_⟩
  have hEntity := hSame.entity "app.js"
  rw [hBefore, hAfter] at hEntity
  cases hEntity

/-- The rest of what the graph answers is as before. -/
theorem undoes_declarer :
    Undoes (run [.ingest importer])
      (((run [.ingest importer]).ingest declarer).1.removeFile "app.js") declarer "app.js" ∧
    (run [.ingest importer]).Displaces declarer "app.js" "app.js" := by
  refine ⟨undoes_removeFile_ingest (fun _ => produced_of_mem) produced_declarer rfl
    (by decide +kernel) (fun _ _ _ => not_declares_declarer), ?_, by decide +kernel⟩
  exact ⟨_, List.mem_singleton_self _, rfl, rfl⟩

end Displacement

end CodeAtlas
