import CodeAtlas.Proofs.GraphInvariant
import CodeAtlas.Proofs.Grounding

/-!
# What an ingestion does

An ingestion first settles the node of each identifier that the file names, then joins them by its
edges. Both are described here as a whole, by what is found under each identifier and in each slot
afterwards.

## Main definitions

* `CodeAtlas.GraphNode.settled` — the node of an identifier after the entities that carry it.
* `CodeAtlas.CodeGraph.Settles` — what the entities of a file do to a graph.
* `CodeAtlas.CodeGraph.Joins` — what the relations of a file do to a graph.
* `CodeAtlas.Extraction.ForeignLinked` — entities that are not of the file are ends of relations.
* `CodeAtlas.CodeGraph.Anchored` — a node that no file owns is touched by an edge.
* `CodeAtlas.CodeGraph.current` — the extraction that counts for each file.
* `CodeAtlas.CodeGraph.OwnersHold` — nodes hold what their owners declare.

## Main results

* `CodeAtlas.CodeGraph.Sound.exists_settles_joins` — an ingestion settles, joins and records.
* `CodeAtlas.CodeGraph.anchored_run` — linked extractions leave no node unanchored.
* `CodeAtlas.CodeGraph.run_induct` — what each change keeps, a run keeps.
* `CodeAtlas.CodeGraph.ownersHold_run` — a node holds what its owner declares in the extraction that
  counts for it.
-/

set_option autoImplicit false

namespace CodeAtlas

/-- The owner that an entity gives to its node: the file, if the entity is of the file. -/
def Entity.ownerIn (file : String) (entity : Entity) : Option String :=
  if entity.path = file then some file else none

/-- An entity gives no owner iff it is not of the file. -/
lemma Entity.ownerIn_eq_none_iff {file : String} {entity : Entity} :
    entity.ownerIn file = none ↔ entity.path ≠ file := by
  unfold ownerIn
  split <;> simp_all

/-- An entity gives an owner iff it is of the file. -/
lemma Entity.ownerIn_ne_none_iff {file : String} {entity : Entity} :
    entity.ownerIn file ≠ none ↔ entity.path = file := by
  rw [ne_eq, ownerIn_eq_none_iff, not_not]

/-- Among entities of distinct identifiers each is the only one of its own. -/
lemma Entity.filter_id_of_nodup {entities : List Entity}
    (hNodup : (entities.map Entity.id).Nodup) {entity : Entity} (hMem : entity ∈ entities) :
    entities.filter (·.id = entity.id) = [entity] := by
  induction entities with
  | nil => cases hMem
  | cons first rest ih =>
    rw [List.map_cons, List.nodup_cons] at hNodup
    rcases List.mem_cons.1 hMem with rfl | hRest
    · have hNone : rest.filter (·.id = entity.id) = [] := by
        rw [List.filter_eq_nil_iff]
        intro other hOther hId
        exact hNodup.1 (List.mem_map.2 ⟨other, hOther, of_decide_eq_true hId⟩)
      rw [List.filter_cons_of_pos (by simp), hNone]
    · have hNe : first.id ≠ entity.id := fun hId =>
        hNodup.1 (List.mem_map.2 ⟨entity, hRest, hId.symm⟩)
      rw [List.filter_cons_of_neg (by simpa using hNe), ih hNodup.2 hRest]

/-- Every entity that is not of the module's file is an end of a relation. -/
def Extraction.ForeignLinked (extraction : Extraction) : Prop :=
  ∀ fileModule entity, extraction.module? = some fileModule →
    entity ∈ extraction.entities → entity.path ≠ fileModule.path →
    ∃ relation ∈ extraction.relations,
      relation.sourceId = entity.id ∨ relation.targetId = entity.id

/-- The node of an identifier after entities that carry it, given what was there before. -/
def GraphNode.settled (file : String) (entities : List Entity) (before : Option GraphNode) :
    Option GraphNode :=
  entities.foldl (fun found entity => some (upserted entity (entity.ownerIn file) found)) before

namespace GraphNode

/-- The last entity is the last to be put. -/
lemma settled_concat (file : String) (entities : List Entity) (entity : Entity)
    (before : Option GraphNode) : settled file (entities ++ [entity]) before =
      some (upserted entity (entity.ownerIn file) (settled file entities before)) := by
  unfold settled
  rw [List.foldl_append]
  rfl

/-- The owner of a node after one more entity: the file, if the entity is of the file, and else the
one before. -/
private lemma owner_upserted (file : String) (entity : Entity) (before : Option GraphNode) :
    (upserted entity (entity.ownerIn file) before).owner =
      if entity.path = file then some file else before.bind owner := by
  unfold upserted Entity.ownerIn
  by_cases hPath : entity.path = file
  · rw [if_pos hPath, if_pos hPath]
    cases before <;> rfl
  · rw [if_neg hPath, if_neg hPath]
    cases before with
    | none => rfl
    | some node =>
      dsimp only
      rw [if_neg (by simp)]
      split <;> rfl

/-- The owner of a settled node: the file, if one of the entities is of the file, and else the one
before. -/
private lemma owner_settled (file : String) (entities : List Entity) (before : Option GraphNode) :
    (settled file entities before).bind owner =
      if ∃ entity ∈ entities, entity.path = file then some file else before.bind owner := by
  induction entities using List.reverseRecOn with
  | nil => simp [settled]
  | append_singleton entities entity ih =>
    rw [settled_concat, Option.bind_some, owner_upserted, ih]
    by_cases hPath : entity.path = file
    · rw [if_pos hPath, if_pos ⟨entity, by simp, hPath⟩]
    · rw [if_neg hPath]
      refine if_congr ?_ rfl rfl
      simp [hPath]

/-- A settled node that has an owner holds an entity of the file, or it is the node that was there
before: an entity from elsewhere changes only what is not declared.

**Proof sketch.** Induction on the entities, the last one first. If the last one is of the file, the
node holds it. If not, the node that it was put to had the same owner, so it was declared by
induction, and a declared node stays as it is. -/
private lemma held_of_settled {file : String} {entities : List Entity} {before : Option GraphNode}
    (hBefore : ∀ node, before = some node → node.owner.isSome → node.entity.isSome)
    {node : GraphNode} {owner : String} (hSettled : settled file entities before = some node)
    (hOwner : node.owner = some owner) :
    (owner = file ∧ ∃ entity ∈ entities, entity.path = file ∧ node.entity = some entity) ∨
      before = some node := by
  induction entities using List.reverseRecOn generalizing node with
  | nil => exact Or.inr hSettled
  | append_singleton entities entity ih =>
    rw [settled_concat] at hSettled
    have hNode := Option.some.inj hSettled
    by_cases hPath : entity.path = file
    · rw [Entity.ownerIn, if_pos hPath] at hNode
      refine Or.inl ⟨?_, entity, by simp, hPath, ?_⟩
      · rw [← hNode] at hOwner
        unfold upserted at hOwner
        split at hOwner <;> simpa [eq_comm] using hOwner
      · rw [← hNode]
        unfold upserted
        split <;> rfl
    · rw [Entity.ownerIn, if_neg hPath] at hNode
      cases hFound : settled file entities before with
      | none =>
        rw [hFound] at hNode
        rw [← hNode] at hOwner
        cases hOwner
      | some found =>
        -- the node that was found is declared, so it stays
        rw [hFound, upserted, if_neg (by simp)] at hNode
        have hSame : found.owner = some owner := by
          rw [← hNode] at hOwner
          split at hOwner <;> exact hOwner
        have hHeld := ih hFound hSame
        have hEntity : found.entity.isSome := by
          rcases hHeld with ⟨-, held, -, -, hEntity⟩ | hWas
          · rw [hEntity]
            rfl
          · exact hBefore found hWas (by rw [hSame]; rfl)
        rw [if_neg (by simpa [Option.isSome_iff_ne_none] using hEntity)] at hNode
        rw [← hNode]
        rcases hHeld with ⟨hFile, held, hMem, hHeld⟩ | hWas
        · exact Or.inl ⟨hFile, held, List.mem_append_left _ hMem, hHeld⟩
        · exact Or.inr hWas

end GraphNode

namespace CodeGraph

/-! ## Entities -/

/-- The entities of a file settle the nodes of their identifiers, and the slots of the file's own
ones are listed. -/
structure Settles (graph after : CodeGraph) (file : String) (entities : List Entity)
    (slots : List Nat) : Prop where
  sound : after.Sound
  edges : after.edges = graph.edges
  fileNodes : after.fileNodes = graph.fileNodes
  fileEdges : after.fileEdges = graph.fileEdges
  index : ∀ id slot, graph.index.get? id = some slot → after.index.get? id = some slot
  found : ∀ entity ∈ entities, (after.index.get? entity.id).isSome
  nodeOf? : ∀ id, after.nodeOf? id =
    GraphNode.settled file (entities.filter (·.id = id)) (graph.nodeOf? id)
  mem_slots : ∀ slot, slot ∈ slots ↔
    ∃ entity ∈ entities, entity.path = file ∧ after.index.get? entity.id = some slot

/-- One entity more.

**Proof sketch.** The entity is the last to settle the node of its identifier, and nodes of other
identifiers stay. Identifiers that were found keep their slots, so what is listed for the earlier
entities is still right. -/
private lemma Settles.step {graph middle after : CodeGraph} {file : String} {done : List Entity}
    {slots more : List Nat} {entity : Entity} {slot : Nat}
    (h : Settles graph middle file done slots)
    (hPuts : Puts middle after slot
      (GraphNode.upserted entity (entity.ownerIn file) (middle.nodeOf? entity.id)))
    (hMore : ∀ other, other ∈ more ↔ other ∈ slots ∨ entity.path = file ∧ other = slot) :
    Settles graph after file (done ++ [entity]) more := by
  have hId := h.sound.id_upserted entity (entity.ownerIn file)
  have hIndex : after.index.get? entity.id = some slot := by
    rw [hPuts.index, hId, if_pos rfl]
  refine ⟨hPuts.sound, hPuts.edges.trans h.edges, hPuts.fileNodes.trans h.fileNodes,
    hPuts.fileEdges.trans h.fileEdges, ?_, ?_, ?_, ?_⟩
  · intro id other hOther
    exact hPuts.index_of_index h.sound (h.index id other hOther)
  · intro other hOther
    rcases List.mem_append.1 hOther with hDone | hLast
    · obtain ⟨place, hPlace⟩ := Option.isSome_iff_exists.1 (h.found other hDone)
      rw [hPuts.index_of_index h.sound hPlace]
      rfl
    · rw [List.mem_singleton.1 hLast, hIndex]
      rfl
  · intro id
    rw [hPuts.nodeOf? h.sound, hId, List.filter_append]
    by_cases hEq : entity.id = id
    · subst hEq
      rw [if_pos rfl, List.filter_singleton, decide_eq_true rfl, h.nodeOf?]
      simp [GraphNode.settled, List.foldl_append]
    · rw [if_neg (Ne.symm hEq), List.filter_singleton, decide_eq_false hEq, h.nodeOf?]
      simp
  · intro other
    rw [hMore, h.mem_slots]
    constructor
    · rintro (⟨found, hFound, hPath, hOther⟩ | ⟨hPath, rfl⟩)
      · exact ⟨found, List.mem_append_left _ hFound, hPath,
          hPuts.index_of_index h.sound hOther⟩
      · exact ⟨entity, List.mem_append_right _ (List.mem_singleton_self _), hPath, hIndex⟩
    · rintro ⟨found, hFound, hPath, hOther⟩
      rcases List.mem_append.1 hFound with hDone | hLast
      · -- an identifier that was found before keeps its slot
        obtain ⟨place, hPlace⟩ := Option.isSome_iff_exists.1 (h.found found hDone)
        rw [hPuts.index_of_index h.sound hPlace] at hOther
        cases hOther
        exact Or.inl ⟨found, hDone, hPath, hPlace⟩
      · obtain rfl := List.mem_singleton.1 hLast
        rw [hIndex] at hOther
        exact Or.inr ⟨hPath, (Option.some.inj hOther).symm⟩

/-- What the entities of a file do to a graph. -/
lemma Sound.upsertAll_settles {graph : CodeGraph} (h : graph.Sound) (file : String)
    (entities : List Entity) :
    Settles graph (upsertAll file graph entities).2 file entities
      (upsertAll file graph entities).1 := by
  refine upsertAll_induct (P := fun after done slots => Settles graph after file done slots)
    entities ?_ ?_ ?_
  · intro middle done slots entity _ hPath hDone
    have hPuts := hDone.sound.upsert_puts entity (some file)
    have hOwner : entity.ownerIn file = some file := if_pos hPath
    rw [← hOwner] at hPuts ⊢
    exact hDone.step hPuts fun other => by simp [hPath]
  · intro middle done slots entity _ hPath hDone
    have hPuts := hDone.sound.upsert_puts entity none
    have hOwner : entity.ownerIn file = none := if_neg hPath
    rw [← hOwner] at hPuts ⊢
    exact hDone.step hPuts fun other => by simp [hPath]
  · refine ⟨h, rfl, rfl, rfl, fun _ _ hSlot => hSlot, ?_, fun _ => rfl, ?_⟩
    · intro entity hMem
      cases hMem
    · intro slot
      simp

/-! ## Relations -/

/-- The relations of a file join nodes by edges in free slots, which are listed, and their ends
become placeholders if they are new. -/
structure Joins (graph after : CodeGraph) (relations : List Relation) (places : List Nat) :
    Prop where
  sound : after.Sound
  fileNodes : after.fileNodes = graph.fileNodes
  fileEdges : after.fileEdges = graph.fileEdges
  fresh : ∀ place ∈ places, graph.edges.get? place = none
  live : ∀ place ∈ places, (after.edges.get? place).isSome
  edges : ∀ place, place ∉ places → after.edges.get? place = graph.edges.get? place
  kept : ∀ slot node, graph.nodes.get? slot = some node → after.nodes.get? slot = some node
  new : ∀ slot node, after.nodes.get? slot = some node →
    graph.nodes.get? slot = some node ∨ node = { id := node.id } ∧ after.TouchedBy places slot
  linked : ∀ relation ∈ relations, ∀ id, relation.sourceId = id ∨ relation.targetId = id →
    ∃ slot, after.index.get? id = some slot ∧ after.TouchedBy places slot

namespace Joins

/-- One relation more.

**Proof sketch.** The edge takes a slot that is free and so not among the listed ones. What was
joined before stays joined, and the ends of the new edge are touched by it. -/
private lemma step {graph middle after : CodeGraph} {done : List Relation} {places : List Nat}
    {relation : Relation} {place : Nat} {edge : GraphEdge} (h : Joins graph middle done places)
    (hConnects : Connects middle after relation place edge) :
    Joins graph after (done ++ [relation]) (places ++ [place]) := by
  have hNotMem : place ∉ places := by
    intro hMem
    have hLive := h.live place hMem
    rw [hConnects.fresh] at hLive
    cases hLive
  refine ⟨hConnects.sound, hConnects.fileNodes.trans h.fileNodes,
    hConnects.fileEdges.trans h.fileEdges, ?_, ?_, ?_, ?_, ?_, ?_⟩
  · intro other hOther
    rcases List.mem_append.1 hOther with hMem | hLast
    · exact h.fresh other hMem
    · rw [List.mem_singleton.1 hLast, ← h.edges place hNotMem]
      exact hConnects.fresh
  · intro other hOther
    rw [hConnects.edges]
    split
    · rfl
    · next hNe =>
      rcases List.mem_append.1 hOther with hMem | hLast
      · exact h.live other hMem
      · exact absurd (List.mem_singleton.1 hLast) hNe
  · intro other hOther
    rw [List.mem_append, List.mem_singleton, not_or] at hOther
    rw [hConnects.edges, if_neg hOther.2, h.edges other hOther.1]
  · intro slot node hNode
    exact hConnects.kept slot node (h.kept slot node hNode)
  · intro slot node hNode
    rcases hConnects.new slot node hNode with hBefore | ⟨hEnd, hNew⟩
    · exact (h.new slot node hBefore).imp_right fun ⟨hNew, hBy⟩ =>
        ⟨hNew, hConnects.touchedBy (Or.inl hBy)⟩
    · exact Or.inr ⟨hNew, hConnects.touchedBy (Or.inr hEnd)⟩
  · intro other hOther id hId
    rcases List.mem_append.1 hOther with hDone | hLast
    · obtain ⟨slot, hSlot, hBy⟩ := h.linked other hDone id hId
      obtain ⟨node, hNode, rfl⟩ := (h.sound.index_iff _ _).1 hSlot
      exact ⟨slot, hConnects.sound.index_of_get? (hConnects.kept slot node hNode),
        hConnects.touchedBy (Or.inl hBy)⟩
    · rw [List.mem_singleton.1 hLast] at hId
      rcases hId with rfl | rfl
      · exact ⟨edge.source, hConnects.source, hConnects.touchedBy (Or.inr (Or.inl rfl))⟩
      · exact ⟨edge.target, hConnects.target, hConnects.touchedBy (Or.inr (Or.inr rfl))⟩

/-- The edges that were there are not among the listed ones. -/
lemma notMem_of_get? {graph after : CodeGraph} {relations : List Relation} {places : List Nat}
    (h : Joins graph after relations places) {place : Nat} {edge : GraphEdge}
    (hEdge : graph.edges.get? place = some edge) : place ∉ places := by
  intro hMem
  rw [h.fresh place hMem] at hEdge
  cases hEdge

/-- What an edge touched it still touches. -/
private lemma touched {graph after : CodeGraph} {relations : List Relation} {places : List Nat}
    (h : Joins graph after relations places) {slot : Nat} (hTouched : graph.Touched slot) :
    after.Touched slot := by
  obtain ⟨place, edge, hEdge, hEnd⟩ := hTouched
  exact ⟨place, edge, by rw [h.edges place (h.notMem_of_get? hEdge), hEdge], hEnd⟩

end Joins

/-- What listed edges touch, edges touch. -/
private lemma TouchedBy.touched {graph : CodeGraph} {places : List Nat} {slot : Nat}
    (h : graph.TouchedBy places slot) : graph.Touched slot := by
  obtain ⟨place, -, edge, hEdge, hEnd⟩ := h
  exact ⟨place, edge, hEdge, hEnd⟩

/-- What the relations of a file do to a graph. -/
lemma Sound.connectAll_joins {graph : CodeGraph} (h : graph.Sound) (relations : List Relation) :
    Joins graph (connectAll graph relations).2 relations (connectAll graph relations).1 := by
  refine connectAll_induct (P := fun after done places => Joins graph after done places)
    relations ?_ ?_
  · intro middle done places relation _ hDone
    obtain ⟨edge, hConnects⟩ := hDone.sound.connects relation
    exact hDone.step hConnects
  · refine ⟨h, rfl, rfl, ?_, ?_, fun _ _ => rfl, fun _ _ hNode => hNode,
      fun _ _ hNode => Or.inl hNode, ?_⟩
    · intro place hMem
      cases hMem
    · intro place hMem
      cases hMem
    · intro relation hMem
      cases hMem

/-- **What an ingestion does.** After the removal of the file's part its entities are settled, its
relations joined, and the slots of both recorded.

**Proof sketch.** Removal keeps the graph sound, and so do the entities. An ingestion is these three
steps and the record of the slots (`ingest_eq_record`). -/
theorem Sound.exists_settles_joins {graph : CodeGraph} (h : graph.Sound) {extraction : Extraction}
    {fileModule : Entity} (hModule : extraction.module? = some fileModule) :
    ∃ middle final slots places,
      Settles (graph.removeFile fileModule.path) middle fileModule.path extraction.entities slots ∧
      Joins middle final extraction.relations places ∧
      (graph.ingest extraction).1 = final.record fileModule.path slots places := by
  have hSettles := (h.removeFile_drops fileModule.path).sound.upsertAll_settles fileModule.path
    extraction.entities
  exact ⟨_, _, _, _, hSettles, hSettles.sound.connectAll_joins extraction.relations,
    graph.ingest_eq_record hModule⟩

/-- A node that was settled under an identifier that no entity carries was there before. -/
lemma Settles.get?_of_forall_ne {graph after : CodeGraph} {file : String}
    {entities : List Entity} {slots : List Nat} (h : Settles graph after file entities slots)
    (hSound : graph.Sound) {slot : Nat} {node : GraphNode}
    (hNode : after.nodes.get? slot = some node) (hNone : ∀ entity ∈ entities, entity.id ≠ node.id) :
    graph.nodes.get? slot = some node := by
  have hFilter : entities.filter (·.id = node.id) = [] := by
    rw [List.filter_eq_nil_iff]
    intro entity hMem
    simpa using hNone entity hMem
  have hBefore := h.nodeOf? node.id
  rw [hFilter, h.sound.nodeOf?_eq_some_iff.2 ⟨rfl, slot, hNode⟩] at hBefore
  obtain ⟨-, other, hOther⟩ := hSound.nodeOf?_eq_some_iff.1 hBefore.symm
  have hSlot := h.index node.id other (hSound.index_of_get? hOther)
  rw [h.sound.index_of_get? hNode] at hSlot
  rwa [Option.some.inj hSlot]

/-- A node that was there is settled in its slot. -/
lemma Settles.exists_get? {graph after : CodeGraph} {file : String} {entities : List Entity}
    {slots : List Nat} (h : Settles graph after file entities slots) (hSound : graph.Sound)
    {slot : Nat} {node : GraphNode} (hNode : graph.nodes.get? slot = some node) :
    ∃ found, after.nodes.get? slot = some found ∧ found.id = node.id ∧
      GraphNode.settled file (entities.filter (·.id = node.id)) (some node) = some found := by
  have hIndex := h.index node.id slot (hSound.index_of_get? hNode)
  obtain ⟨found, hFound, hId⟩ := (h.sound.index_iff _ _).1 hIndex
  refine ⟨found, hFound, hId, ?_⟩
  rw [← hSound.nodeOf?_eq_some_iff.2 ⟨rfl, slot, hNode⟩, ← h.nodeOf?]
  exact h.sound.nodeOf?_eq_some_iff.2 ⟨hId, slot, hFound⟩

/-- The slot of a node is listed iff an entity of the file carries its identifier. -/
lemma Settles.mem_slots_iff {graph after : CodeGraph} {file : String} {entities : List Entity}
    {slots : List Nat} (h : Settles graph after file entities slots) {slot : Nat} {node : GraphNode}
    (hNode : after.nodes.get? slot = some node) :
    slot ∈ slots ↔ ∃ entity ∈ entities, entity.id = node.id ∧ entity.path = file := by
  rw [h.mem_slots]
  refine exists_congr fun entity => and_congr_right fun _ => ?_
  rw [and_comm]
  refine and_congr_left fun _ => ?_
  rw [h.sound.index_iff, hNode]
  simp [eq_comm]

/-- The owner of a settled node: the file, if an entity of the file carries its identifier, and else
the owner of the node that was there. -/
lemma Settles.owner {graph after : CodeGraph} {file : String} {entities : List Entity}
    {slots : List Nat} (h : Settles graph after file entities slots) {slot : Nat} {node : GraphNode}
    (hNode : after.nodes.get? slot = some node) :
    node.owner = if ∃ entity ∈ entities, entity.id = node.id ∧ entity.path = file then some file
      else (graph.nodeOf? node.id).bind GraphNode.owner := by
  have hOwner := GraphNode.owner_settled file (entities.filter (·.id = node.id))
    (graph.nodeOf? node.id)
  rw [← h.nodeOf?, h.sound.nodeOf?_eq_some_iff.2 ⟨rfl, slot, hNode⟩, Option.bind_some] at hOwner
  rw [hOwner]
  refine if_congr ?_ rfl rfl
  simp [and_assoc]

/-! ## Anchored nodes -/

/-- A node that no file owns is touched by an edge. -/
def Anchored (graph : CodeGraph) : Prop :=
  ∀ slot node, graph.nodes.get? slot = some node → node.owner = none → graph.Touched slot

/-- Removal leaves no node unanchored. -/
lemma Anchored.removeFile {graph : CodeGraph} (h : graph.Anchored) (hSound : graph.Sound)
    (file : String) : (graph.removeFile file).Anchored := by
  intro slot node hNode hOwner
  exact (hSound.removeFile_drops file).touched_of_unowned hNode hOwner
    fun hBefore => h slot node hBefore hOwner

/-- The node of an entity that is not of the file is touched by an edge of the file: a relation
leads to the entity, as the extraction is linked. -/
lemma Joins.touchedBy_of_foreign {middle final : CodeGraph} {extraction : Extraction}
    {places : List Nat} (hJoins : Joins middle final extraction.relations places)
    (hLinked : extraction.ForeignLinked) {fileModule entity : Entity}
    (hModule : extraction.module? = some fileModule) (hMem : entity ∈ extraction.entities)
    (hForeign : entity.path ≠ fileModule.path) {slot : Nat} {node : GraphNode}
    (hNode : final.nodes.get? slot = some node) (hId : entity.id = node.id) :
    final.TouchedBy places slot := by
  obtain ⟨relation, hRelation, hEnd⟩ := hLinked fileModule entity hModule hMem hForeign
  rw [hId] at hEnd
  obtain ⟨other, hOther, hBy⟩ := hJoins.linked relation hRelation node.id hEnd
  rw [hJoins.sound.index_of_get? hNode] at hOther
  cases hOther
  exact hBy

/-- Ingestion of a linked extraction leaves no node unanchored: an entity that is not of the file is
an end of one of its relations.

**Proof sketch.** A node without an owner is new and an end of a relation, or it is settled by an
entity that is not of the file, to which a relation leads as the extraction is linked, or no entity
names it, and then an edge touched it after the removal and still does. -/
private lemma Anchored.ingest {graph : CodeGraph} (h : graph.Anchored) (hSound : graph.Sound)
    {extraction : Extraction} (hLinked : extraction.ForeignLinked) :
    (graph.ingest extraction).1.Anchored := by
  cases hModule : extraction.module? with
  | none =>
    rw [graph.fst_ingest_of_none hModule]
    exact h
  | some fileModule =>
    obtain ⟨middle, final, slots, places, hSettles, hJoins, hIngest⟩ :=
      hSound.exists_settles_joins hModule
    rw [hIngest]
    intro slot node hNode hOwner
    show final.Touched slot
    rcases hJoins.new slot node hNode with hMiddle | ⟨-, hBy⟩
    · by_cases hNamed : ∃ entity ∈ extraction.entities, entity.id = node.id
      · obtain ⟨entity, hMem, hId⟩ := hNamed
        have hForeign : entity.path ≠ fileModule.path := by
          intro hPath
          rw [hSettles.owner hMiddle, if_pos ⟨entity, hMem, hId, hPath⟩] at hOwner
          cases hOwner
        exact (hJoins.touchedBy_of_foreign hLinked hModule hMem hForeign hNode hId).touched
      · have hDrops := hSound.removeFile_drops fileModule.path
        have hBefore := hSettles.get?_of_forall_ne hDrops.sound hMiddle fun entity hMem hId =>
          hNamed ⟨entity, hMem, hId⟩
        have hTouched := h.removeFile hSound fileModule.path slot node hBefore hOwner
        exact hJoins.touched ((touched_congr hSettles.edges slot).2 hTouched)
    · exact hBy.touched

/-- **Linked extractions leave no node unanchored.** -/
theorem anchored_run_of_foreignLinked {updates : List Update}
    (h : ∀ extraction, .ingest extraction ∈ updates → extraction.ForeignLinked) :
    (run updates).Anchored := by
  induction updates using List.reverseRecOn with
  | nil =>
    intro slot node hNode
    simp [run, Slab.get?] at hNode
  | append_singleton before update ih =>
    have hBefore := ih fun extraction hMem => h extraction (List.mem_append_left _ hMem)
    have hSound := (consistent_run before).toSound
    rw [run, List.foldl_append]
    cases update with
    | ingest extraction => exact hBefore.ingest hSound (h extraction (by simp))
    | remove file => exact hBefore.removeFile hSound file

/-- Grounded extractions leave no node unanchored. -/
theorem anchored_run {updates : List Update}
    (h : ∀ extraction, .ingest extraction ∈ updates → extraction.Grounded) :
    (run updates).Anchored :=
  anchored_run_of_foreignLinked fun extraction hMem => (h extraction hMem).foreign_linked

/-! ## The extractions that count -/

/-- The extraction that counts for each file after a change. -/
def revise (files : String → Option Extraction) : Update → String → Option Extraction
  | .ingest extraction, file =>
    match extraction.module? with
    | none => files file
    | some fileModule => if file = fileModule.path then some extraction else files file
  | .remove removed, file => if file = removed then none else files file

/-- The extraction that counts for each file: the last one ingested, if the file was not removed
since. -/
def current (updates : List Update) : String → Option Extraction :=
  updates.foldl revise fun _ => none

/-- The extraction that counts for each file after an ingestion. -/
lemma revise_ingest (files : String → Option Extraction) {extraction : Extraction}
    {fileModule : Entity} (hModule : extraction.module? = some fileModule) (file : String) :
    revise files (.ingest extraction) file =
      if file = fileModule.path then some extraction else files file := by
  rw [revise, hModule]

/-- An extraction without entities counts for no file. -/
lemma revise_ingest_of_none (files : String → Option Extraction) {extraction : Extraction}
    (hModule : extraction.module? = none) : revise files (.ingest extraction) = files := by
  funext file
  rw [revise, hModule]

/-- **Induction over a run.** What holds of the graph and of the extractions that count holds at the
end, if each change keeps it.

**Proof sketch.** Induction on the changes that have been made, the last one first, as a prefix of
all of them. -/
theorem run_induct {P : CodeGraph → (String → Option Extraction) → Prop} (updates : List Update)
    (hEmpty : P {} fun _ => none)
    (hIngest : ∀ before extraction, before ++ [.ingest extraction] <+: updates →
      P (run before) (current before) →
      P ((run before).ingest extraction).1 (revise (current before) (.ingest extraction)))
    (hRemove : ∀ before file, before ++ [.remove file] <+: updates →
      P (run before) (current before) →
      P ((run before).removeFile file) (revise (current before) (.remove file))) :
    P (run updates) (current updates) := by
  suffices hAll : ∀ before, before <+: updates → P (run before) (current before) from
    hAll updates (List.prefix_refl updates)
  intro before
  induction before using List.reverseRecOn with
  | nil => exact fun _ => hEmpty
  | append_singleton before update ih =>
    intro hPrefix
    have hBefore := ih ((List.prefix_append before [update]).trans hPrefix)
    rw [run, current, List.foldl_append, List.foldl_append]
    cases update with
    | ingest extraction => exact hIngest before extraction hPrefix hBefore
    | remove file => exact hRemove before file hPrefix hBefore

end CodeGraph

namespace Extraction

/-- The file that an extraction is of: that of its module. -/
def file? (extraction : Extraction) : Option String := extraction.module?.map Entity.path

/-- An extraction declares an identifier for a file. -/
def Declares (extraction : Extraction) (file id : String) : Prop :=
  ∃ entity ∈ extraction.entities, entity.path = file ∧ entity.id = id

/-- Two extractions declare no identifier in common, unless they are of one file. -/
def ApartFrom (extraction other : Extraction) : Prop :=
  ∀ file file' id, extraction.file? = some file → other.file? = some file' →
    extraction.Declares file id → other.Declares file' id → file = file'

/-- It is enough to compare the entities of the two extractions. -/
private lemma apartFrom_iff {extraction other : Extraction} : extraction.ApartFrom other ↔
    ∀ entity ∈ extraction.entities, ∀ entity' ∈ other.entities,
      extraction.file? = some entity.path → other.file? = some entity'.path →
      entity.id = entity'.id → entity.path = entity'.path := by
  constructor
  · intro h entity hMem entity' hMem' hFile hFile' hId
    exact h entity.path entity'.path entity.id hFile hFile' ⟨entity, hMem, rfl, rfl⟩
      ⟨entity', hMem', rfl, hId.symm⟩
  · rintro h file file' id hFile hFile' ⟨entity, hMem, rfl, rfl⟩ ⟨entity', hMem', rfl, hId⟩
    exact h entity hMem entity' hMem' hFile hFile' hId.symm

instance (extraction other : Extraction) : Decidable (extraction.ApartFrom other) :=
  decidable_of_iff _ apartFrom_iff.symm

end Extraction

namespace CodeGraph

/-- The extraction that counts for a file was ingested, and is of the file.

**Proof sketch.** Induction on the changes, the last one first: it is the ingestion of the
extraction, or it leaves what counts for the file. -/
lemma mem_of_current {updates : List Update} {file : String} {extraction : Extraction}
    (h : current updates file = some extraction) :
    .ingest extraction ∈ updates ∧ extraction.file? = some file := by
  induction updates using List.reverseRecOn with
  | nil => cases h
  | append_singleton before update ih =>
    rw [current, List.foldl_append] at h
    have h : revise (current before) update file = some extraction := h
    have hBefore : current before file = some extraction →
        .ingest extraction ∈ before ++ [update] ∧ extraction.file? = some file :=
      fun hCurrent => (ih hCurrent).imp_left (List.mem_append_left _)
    cases update with
    | remove removed =>
      rw [revise] at h
      split at h
      · cases h
      · exact hBefore h
    | ingest ingested =>
      cases hModule : ingested.module? with
      | none =>
        rw [revise_ingest_of_none _ hModule] at h
        exact hBefore h
      | some fileModule =>
        rw [revise_ingest _ hModule] at h
        split at h
        · next hFile =>
          cases h
          exact ⟨by simp, by rw [Extraction.file?, hModule, hFile]; rfl⟩
        · exact hBefore h

/-- The owner of a node has an extraction, and the node holds an entity that this declares. -/
def OwnersHold (graph : CodeGraph) (files : String → Option Extraction) : Prop :=
  ∀ slot node owner, graph.nodes.get? slot = some node → node.owner = some owner →
    ∃ extraction entity, files owner = some extraction ∧ entity ∈ extraction.entities ∧
      entity.path = owner ∧ entity.id = node.id ∧ node.entity = some entity

/-- Removal takes the file's own nodes and its extraction. -/
lemma OwnersHold.removeFile {graph : CodeGraph} {files : String → Option Extraction}
    (h : graph.OwnersHold files) (hConsistent : graph.Consistent) (file : String) :
    (graph.removeFile file).OwnersHold (revise files (.remove file)) := by
  intro slot node owner hNode hOwner
  obtain ⟨old, hOld, hEq, -⟩ :=
    ((hConsistent.toSound.removeFile_drops file).nodes slot node).1 hNode
  split at hEq
  · subst hEq
    cases hOwner
  · next hStays =>
    subst hEq
    obtain ⟨-, slots, hSlots, hMem⟩ := hConsistent.owned slot node owner hOld hOwner
    have hNe : owner ≠ file := by
      rintro rfl
      exact hStays (by rw [hSlots]; exact hMem)
    obtain ⟨extraction, entity, hFile, hHeld⟩ := h slot node owner hOld hOwner
    exact ⟨extraction, entity, (if_neg hNe).trans hFile, hHeld⟩

/-- Ingestion gives the file the nodes that its extraction declares.

**Proof sketch.** A node that the relations added has no owner. Any other was settled, so it holds
an entity of the file, which owns it, or it is the node that was there after the removal
(`held_of_settled`), and then its owner is another file, which still has the same extraction. -/
private lemma OwnersHold.ingest {graph : CodeGraph} {files : String → Option Extraction}
    (h : graph.OwnersHold files) (hConsistent : graph.Consistent) (extraction : Extraction) :
    (graph.ingest extraction).1.OwnersHold (revise files (.ingest extraction)) := by
  cases hModule : extraction.module? with
  | none =>
    rw [graph.fst_ingest_of_none hModule, revise_ingest_of_none files hModule]
    exact h
  | some fileModule =>
    have hRemoved := hConsistent.removeFile fileModule.path
    obtain ⟨middle, final, slots, places, hSettles, hJoins, hIngest⟩ :=
      hConsistent.toSound.exists_settles_joins hModule
    rw [hIngest]
    intro slot node owner hNode hOwner
    rw [revise_ingest files hModule]
    rcases hJoins.new slot node hNode with hMiddle | ⟨hNew, -⟩
    · have hSettled := hSettles.nodeOf? node.id
      rw [hSettles.sound.nodeOf?_eq_some_iff.2 ⟨rfl, slot, hMiddle⟩] at hSettled
      have hDeclared : ∀ old, (graph.removeFile fileModule.path).nodeOf? node.id = some old →
          old.owner.isSome → old.entity.isSome := by
        intro old hOld hOwned
        obtain ⟨-, place, hPlace⟩ := hRemoved.toSound.nodeOf?_eq_some_iff.1 hOld
        obtain ⟨file, hFile⟩ := Option.isSome_iff_exists.1 hOwned
        exact (hRemoved.owned place old file hPlace hFile).1
      rcases GraphNode.held_of_settled hDeclared hSettled.symm hOwner with
        ⟨rfl, entity, hMem, hPath, hEntity⟩ | hWas
      · obtain ⟨hMem, hId⟩ := List.mem_filter.1 hMem
        exact ⟨extraction, entity, if_pos rfl, hMem, hPath, of_decide_eq_true hId, hEntity⟩
      · obtain ⟨-, place, hPlace⟩ := hRemoved.toSound.nodeOf?_eq_some_iff.1 hWas
        obtain ⟨found, entity, hFile, hHeld⟩ :=
          h.removeFile hConsistent fileModule.path place node owner hPlace hOwner
        rw [revise] at hFile
        split at hFile
        · cases hFile
        · next hNe => exact ⟨found, entity, (if_neg hNe).trans hFile, hHeld⟩
    · rw [hNew] at hOwner
      cases hOwner

/-- **Owners hold their entities.** A node that a file owns holds an entity that the file declares,
in the extraction that counts for the file.

**Proof sketch.** Induction over the updates (`run_induct`), with one lemma for each kind of update.
-/
theorem ownersHold_run (updates : List Update) : (run updates).OwnersHold (current updates) := by
  refine run_induct updates ?_ ?_ ?_
  · intro slot node owner hNode
    simp [Slab.get?] at hNode
  · exact fun before extraction _ h => h.ingest (consistent_run before) extraction
  · exact fun before file _ h => h.removeFile (consistent_run before) file

/-- The owner of a node has an extraction, and this declares the node. -/
def OwnersDeclare (graph : CodeGraph) (files : String → Option Extraction) : Prop :=
  ∀ slot node owner, graph.nodes.get? slot = some node → node.owner = some owner →
    ∃ extraction, files owner = some extraction ∧ extraction.Declares owner node.id

/-- What an owner holds it declares. -/
lemma OwnersHold.ownersDeclare {graph : CodeGraph} {files : String → Option Extraction}
    (h : graph.OwnersHold files) : graph.OwnersDeclare files := by
  intro slot node owner hNode hOwner
  obtain ⟨extraction, entity, hFile, hMem, hPath, hId, -⟩ := h slot node owner hNode hOwner
  exact ⟨extraction, hFile, entity, hMem, hPath, hId⟩

/-- **Owners declare.** The file that owns a node declares it, in the extraction that counts for the
file. -/
theorem ownersDeclare_run (updates : List Update) :
    (run updates).OwnersDeclare (current updates) :=
  (ownersHold_run updates).ownersDeclare

end CodeGraph

end CodeAtlas
