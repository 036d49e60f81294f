import CodeAtlas.Graph.Basic
import CodeAtlas.Proofs.Slab

/-!
# Steps on code graphs

What each step of an ingestion or a removal does to a graph, slot by slot. The results about whole
runs rest on these descriptions and do not look at how a step is carried out.

## Main definitions

* `CodeAtlas.CodeGraph.Sound` — the index finds the nodes, and edges have ends.
* `CodeAtlas.CodeGraph.nodeOf?` — the node of an identifier.
* `CodeAtlas.CodeGraph.Puts` — one node is put into the graph and all else is left.
* `CodeAtlas.CodeGraph.Connects` — one edge is added, with placeholders at its ends if needed.
* `CodeAtlas.CodeGraph.Drops` — edges go, nodes are disowned, and what nothing holds is pruned.

## Main results

* `CodeAtlas.CodeGraph.Sound.upsert_puts`, `ensure_puts`, `connects`, `removeFile_drops` — the steps
  are what these structures say.
-/

set_option autoImplicit false

namespace CodeAtlas

/-- The node that an entity leaves under its identifier, given what was there before. -/
def GraphNode.upserted (entity : Entity) (owner : Option String) : Option GraphNode → GraphNode
  | none => { id := entity.id, entity := some entity, owner }
  | some node =>
    if owner.isSome then { node with entity := some entity, owner }
    else if node.entity.isNone then { node with entity := some entity }
    else node

/-- An entity leaves a declared node. -/
lemma GraphNode.isSome_entity_upserted (entity : Entity) (owner : Option String)
    (before : Option GraphNode) : (upserted entity owner before).entity.isSome := by
  unfold upserted
  cases before with
  | none => rfl
  | some node =>
    dsimp only
    split
    · rfl
    · split
      · rfl
      · next hSome => simpa [Option.isSome_iff_ne_none] using hSome

/-- An entity leaves a node of its identifier. -/
lemma GraphNode.id_upserted {entity : Entity} (owner : Option String)
    {before : Option GraphNode} (h : ∀ node ∈ before, node.id = entity.id) :
    (upserted entity owner before).id = entity.id := by
  unfold upserted
  cases before with
  | none => rfl
  | some node =>
    have hId := h node rfl
    dsimp only
    split
    · exact hId
    · split <;> exact hId

/-- A node as a placeholder. -/
def GraphNode.disowned (node : GraphNode) : GraphNode :=
  { node with entity := none, owner := none }

/-- A placeholder has nothing more to lose. -/
@[simp] lemma GraphNode.disowned_disowned (node : GraphNode) :
    node.disowned.disowned = node.disowned := rfl

namespace CodeGraph

/-- The index finds the nodes, and the ends of edges are nodes. -/
structure Sound (graph : CodeGraph) : Prop where
  nodes_wf : graph.nodes.Wf
  edges_wf : graph.edges.Wf
  index_iff : ∀ id slot, graph.index.get? id = some slot ↔
    ∃ node, graph.nodes.get? slot = some node ∧ node.id = id
  ends_live : ∀ slot edge, graph.edges.get? slot = some edge →
    (graph.nodes.get? edge.source).isSome ∧ (graph.nodes.get? edge.target).isSome

/-- An edge starts from or leads to a slot. -/
def Touched (graph : CodeGraph) (slot : Nat) : Prop :=
  ∃ place edge, graph.edges.get? place = some edge ∧ (edge.source = slot ∨ edge.target = slot)

/-- The node of an identifier. -/
def nodeOf? (graph : CodeGraph) (id : String) : Option GraphNode :=
  (graph.index.get? id).bind graph.nodes.get?

/-- `isConnected` decides whether an edge touches a slot. -/
private lemma isConnected_iff {graph : CodeGraph} {slot : Nat} :
    graph.isConnected slot = true ↔ graph.Touched slot := by
  unfold isConnected Touched
  rw [List.any_eq_true]
  constructor
  · rintro ⟨edge, hMem, hEnd⟩
    obtain ⟨place, hPlace⟩ := Slab.mem_values.1 hMem
    exact ⟨place, edge, hPlace, by simpa using hEnd⟩
  · rintro ⟨place, edge, hPlace, hEnd⟩
    exact ⟨edge, Slab.mem_values.2 ⟨place, hPlace⟩, by simpa using hEnd⟩

/-- Whether an edge touches a slot depends on the edges alone. -/
lemma touched_congr {graph other : CodeGraph} (h : other.edges = graph.edges) (slot : Nat) :
    other.Touched slot ↔ graph.Touched slot := by
  unfold Touched
  rw [h]

/-! ## Lookup -/

/-- The index leads to the node in a slot. -/
lemma Sound.index_of_get? {graph : CodeGraph} (h : graph.Sound) {slot : Nat} {node : GraphNode}
    (hNode : graph.nodes.get? slot = some node) : graph.index.get? node.id = some slot :=
  (h.index_iff _ _).2 ⟨node, hNode, rfl⟩

/-- Nodes of one identifier are in one slot. -/
lemma Sound.slot_unique {graph : CodeGraph} (h : graph.Sound) {slot other : Nat}
    {node node' : GraphNode} (hNode : graph.nodes.get? slot = some node)
    (hNode' : graph.nodes.get? other = some node') (hId : node.id = node'.id) : slot = other := by
  have hFirst := h.index_of_get? hNode
  rw [hId, h.index_of_get? hNode'] at hFirst
  exact (Option.some.inj hFirst).symm

/-- The node of an identifier is the one that carries it. -/
lemma Sound.nodeOf?_eq_some_iff {graph : CodeGraph} (h : graph.Sound) {id : String}
    {node : GraphNode} :
    graph.nodeOf? id = some node ↔ node.id = id ∧ ∃ slot, graph.nodes.get? slot = some node := by
  unfold nodeOf?
  rw [Option.bind_eq_some_iff]
  constructor
  · rintro ⟨slot, hSlot, hNode⟩
    obtain ⟨node', hNode', hId⟩ := (h.index_iff _ _).1 hSlot
    rw [hNode] at hNode'
    cases hNode'
    exact ⟨hId, slot, hNode⟩
  · rintro ⟨rfl, slot, hNode⟩
    exact ⟨slot, h.index_of_get? hNode, hNode⟩

/-- A graph without nodes and edges is sound. -/
lemma sound_empty : Sound {} where
  nodes_wf := Slab.wf_empty
  edges_wf := Slab.wf_empty
  index_iff id slot := by
    constructor
    · intro h
      cases h
    · rintro ⟨node, hNode, -⟩
      simp [Slab.get?] at hNode
  ends_live slot edge h := by simp [Slab.get?] at h

/-! ## One node -/

/-- One node is put into the graph, in a free slot or in place of one of the same identifier, and
all else is left. -/
structure Puts (graph after : CodeGraph) (slot : Nat) (node : GraphNode) : Prop where
  sound : after.Sound
  edges : after.edges = graph.edges
  fileNodes : after.fileNodes = graph.fileNodes
  fileEdges : after.fileEdges = graph.fileEdges
  nodes : ∀ other, after.nodes.get? other =
    if other = slot then some node else graph.nodes.get? other
  index : ∀ id, after.index.get? id = if id = node.id then some slot else graph.index.get? id

namespace Puts

variable {graph after : CodeGraph} {slot : Nat} {node : GraphNode}

/-- The node that was put. -/
lemma get?_self (h : Puts graph after slot node) : after.nodes.get? slot = some node := by
  rw [h.nodes, if_pos rfl]

/-- The nodes in other slots stay. -/
lemma get?_of_ne (h : Puts graph after slot node) {other : Nat} (hNe : other ≠ slot) :
    after.nodes.get? other = graph.nodes.get? other := by
  rw [h.nodes, if_neg hNe]

/-- What was in the slot had the identifier of the node. -/
lemma id_eq (h : Puts graph after slot node) (hSound : graph.Sound) {old : GraphNode}
    (hOld : graph.nodes.get? slot = some old) : old.id = node.id := by
  by_contra hNe
  have hIndex := h.index old.id
  rw [if_neg hNe, hSound.index_of_get? hOld] at hIndex
  obtain ⟨found, hFound, hId⟩ := (h.sound.index_iff _ _).1 hIndex
  rw [h.get?_self] at hFound
  cases hFound
  exact hNe hId.symm

/-- The node of each identifier afterwards. -/
lemma nodeOf? (h : Puts graph after slot node) (hSound : graph.Sound) (id : String) :
    after.nodeOf? id = if id = node.id then some node else graph.nodeOf? id := by
  unfold CodeGraph.nodeOf?
  rw [h.index]
  split
  · exact h.get?_self
  · next hNe =>
    cases hIndex : graph.index.get? id with
    | none => rfl
    | some other =>
      -- another identifier is in another slot
      obtain ⟨found, hFound, hId⟩ := (hSound.index_iff _ _).1 hIndex
      refine h.get?_of_ne fun hEq => hNe ?_
      rw [← hId]
      exact h.id_eq hSound (hEq ▸ hFound)

/-- If the identifier had a node, it was in the slot. -/
lemma get?_of_nodeOf? (h : Puts graph after slot node) (hSound : graph.Sound) {old : GraphNode}
    (hOld : graph.nodeOf? node.id = some old) : graph.nodes.get? slot = some old := by
  obtain ⟨hId, other, hOther⟩ := hSound.nodeOf?_eq_some_iff.1 hOld
  by_cases hSlot : other = slot
  · rwa [← hSlot]
  · have hAfter := (h.get?_of_ne hSlot).trans hOther
    exact absurd (h.sound.slot_unique hAfter h.get?_self hId) hSlot

/-- The index still leads to the slots that it led to. -/
lemma index_of_index (h : Puts graph after slot node) (hSound : graph.Sound) {id : String}
    {other : Nat} (hOther : graph.index.get? id = some other) :
    after.index.get? id = some other := by
  obtain ⟨old, hOld, rfl⟩ := (hSound.index_iff _ _).1 hOther
  by_cases hSlot : other = slot
  · subst hSlot
    rw [h.index, if_pos (h.id_eq hSound hOld)]
  · exact h.sound.index_of_get? ((h.get?_of_ne hSlot).trans hOld)

end Puts

/-- Putting a node keeps the graph sound, if the index is kept up with it.

**Proof sketch.** The identifier of the node leads to its slot, and to no other since it had no
other; for all other identifiers index and nodes are as before. No slot loses its node, so the edges
keep their ends. -/
lemma Sound.of_put {graph after : CodeGraph} (h : graph.Sound) {slot : Nat} {node : GraphNode}
    (hWf : after.nodes.Wf) (hEdges : after.edges = graph.edges)
    (hNodes : ∀ other, after.nodes.get? other =
      if other = slot then some node else graph.nodes.get? other)
    (hIndex : ∀ id, after.index.get? id = if id = node.id then some slot else graph.index.get? id)
    (hOld : ∀ old, graph.nodes.get? slot = some old → old.id = node.id)
    (hFound : ∀ other, graph.index.get? node.id = some other → other = slot) : after.Sound where
  nodes_wf := hWf
  edges_wf := hEdges ▸ h.edges_wf
  index_iff id other := by
    rw [hIndex]
    simp only [hNodes]
    by_cases hId : id = node.id
    · rw [if_pos hId]
      by_cases hOther : other = slot
      · simp [hOther, hId]
      · rw [if_neg hOther]
        refine ⟨fun hEq => absurd (Option.some.inj hEq).symm hOther, ?_⟩
        rintro ⟨found, hGet, hFoundId⟩
        have := h.index_of_get? hGet
        rw [hFoundId, hId] at this
        exact absurd (hFound other this) hOther
    · rw [if_neg hId, h.index_iff]
      by_cases hOther : other = slot
      · subst hOther
        rw [if_pos rfl]
        constructor
        · rintro ⟨found, hGet, hFoundId⟩
          exact absurd (hFoundId.symm.trans (hOld found hGet)) hId
        · rintro ⟨found, hGet, hFoundId⟩
          cases hGet
          exact absurd hFoundId.symm hId
      · rw [if_neg hOther]
  ends_live place edge hEdge := by
    rw [hEdges] at hEdge
    have hLive : ∀ other, (graph.nodes.get? other).isSome → (after.nodes.get? other).isSome := by
      intro other hSome
      rw [hNodes]
      split
      · rfl
      · exact hSome
    exact (h.ends_live place edge hEdge).imp (hLive _) (hLive _)

/-- A new node is put into the next slot. -/
lemma Sound.addNode_puts {graph : CodeGraph} (h : graph.Sound) {node : GraphNode}
    (hNew : graph.index.get? node.id = none) :
    Puts graph (graph.addNode node) graph.nodes.nextSlot node := by
  have hNodes := Slab.get?_insert h.nodes_wf node
  have hIndex := fun id => Table.get?_insert graph.index node.id id graph.nodes.nextSlot
  have hSound : (graph.addNode node).Sound := by
    refine h.of_put (h.nodes_wf.insert node) rfl hNodes hIndex ?_ ?_
    · intro old hOld
      rw [Slab.get?_nextSlot h.nodes_wf] at hOld
      cases hOld
    · intro other hOther
      rw [hNew] at hOther
      cases hOther
  exact ⟨hSound, rfl, rfl, rfl, hNodes, hIndex⟩

/-- A node in the index is put anew where it is.

**Proof sketch.** The node keeps its identifier, so the index already is what `Sound.of_put` asks
for. -/
private lemma Sound.modify_puts {graph : CodeGraph} (h : graph.Sound) {slot : Nat}
    {node : GraphNode} (hNode : graph.nodes.get? slot = some node) {change : GraphNode → GraphNode}
    (hId : (change node).id = node.id) :
    Puts graph { graph with nodes := graph.nodes.modify slot change } slot (change node) := by
  have hNodes : ∀ other, (graph.nodes.modify slot change).get? other =
      if other = slot then some (change node) else graph.nodes.get? other := by
    intro other
    rw [Slab.get?_modify]
    split
    · next hEq => rw [hEq, hNode]; rfl
    · rfl
  have hSlot : graph.index.get? (change node).id = some slot := by
    rw [hId]
    exact h.index_of_get? hNode
  have hIndex : ∀ id, graph.index.get? id =
      if id = (change node).id then some slot else graph.index.get? id := by
    intro id
    split
    · next hEq => rw [hEq, hSlot]
    · rfl
  have hSound : Sound { graph with nodes := graph.nodes.modify slot change } := by
    refine h.of_put (h.nodes_wf.modify slot change) rfl hNodes hIndex ?_ ?_
    · intro old hOld
      rw [hNode] at hOld
      cases hOld
      exact hId.symm
    · intro other hOther
      rw [hSlot] at hOther
      exact (Option.some.inj hOther).symm
  exact ⟨hSound, rfl, rfl, rfl, hNodes, hIndex⟩

/-- A node that is there already counts as put. -/
private lemma Sound.refl_puts {graph : CodeGraph} (h : graph.Sound) {slot : Nat} {node : GraphNode}
    (hNode : graph.nodes.get? slot = some node) : Puts graph graph slot node where
  sound := h
  edges := rfl
  fileNodes := rfl
  fileEdges := rfl
  nodes other := by
    split
    · next hEq => rw [hEq, hNode]
    · rfl
  index id := by
    split
    · next hEq => rw [hEq, h.index_of_get? hNode]
    · rfl

/-- What an entity does to a graph.

**Proof sketch.** By whether the identifier has a slot: the entity becomes a node of its own
(`Sound.addNode_puts`), or the node in the slot is changed and keeps its identifier
(`Sound.modify_puts`). -/
theorem Sound.upsert_puts {graph : CodeGraph} (h : graph.Sound) (entity : Entity)
    (owner : Option String) :
    Puts graph (graph.upsert entity owner).2 (graph.upsert entity owner).1
      (GraphNode.upserted entity owner (graph.nodeOf? entity.id)) := by
  unfold upsert nodeOf?
  cases hIndex : graph.index.get? entity.id with
  | none => exact h.addNode_puts hIndex
  | some slot =>
    obtain ⟨node, hNode, hId⟩ := (h.index_iff _ _).1 hIndex
    simp only [Option.bind_some, hNode]
    refine h.modify_puts hNode ?_
    split
    · rfl
    · split <;> rfl

/-- The node that an entity leaves has its identifier. -/
lemma Sound.id_upserted {graph : CodeGraph} (h : graph.Sound) (entity : Entity)
    (owner : Option String) :
    (GraphNode.upserted entity owner (graph.nodeOf? entity.id)).id = entity.id :=
  GraphNode.id_upserted owner fun _ hNode => (h.nodeOf?_eq_some_iff.1 hNode).1

/-- What a reference does to a graph. -/
theorem Sound.ensure_puts {graph : CodeGraph} (h : graph.Sound) (id : String) :
    Puts graph (graph.ensure id).2 (graph.ensure id).1 ((graph.nodeOf? id).getD { id }) := by
  unfold ensure nodeOf?
  cases hIndex : graph.index.get? id with
  | none => exact h.addNode_puts hIndex
  | some slot =>
    obtain ⟨node, hNode, hId⟩ := (h.index_iff _ _).1 hIndex
    simp only [Option.bind_some, hNode, Option.getD_some]
    exact h.refl_puts hNode

/-! ## One edge -/

/-- A reference leaves the nodes as they are. -/
private lemma Sound.get?_ensure {graph : CodeGraph} (h : graph.Sound) (id : String) {slot : Nat}
    {node : GraphNode} (hNode : graph.nodes.get? slot = some node) :
    (graph.ensure id).2.nodes.get? slot = some node := by
  unfold ensure
  cases hIndex : graph.index.get? id with
  | some other => exact hNode
  | none =>
    have hPuts : Puts graph (graph.addNode { id }) _ { id } := h.addNode_puts hIndex
    refine (hPuts.get?_of_ne fun hSlot => ?_).trans hNode
    rw [hSlot, Slab.get?_nextSlot h.nodes_wf] at hNode
    cases hNode

/-- A node that is new after a reference is a placeholder in the slot of the reference. -/
private lemma Sound.of_get?_ensure {graph : CodeGraph} (h : graph.Sound) {id : String} {slot : Nat}
    {node : GraphNode} (hNode : (graph.ensure id).2.nodes.get? slot = some node) :
    graph.nodes.get? slot = some node ∨ slot = (graph.ensure id).1 ∧ node = { id := node.id } := by
  unfold ensure at hNode ⊢
  cases hIndex : graph.index.get? id with
  | some other =>
    rw [hIndex] at hNode
    exact Or.inl hNode
  | none =>
    rw [hIndex] at hNode
    have hPuts : Puts graph (graph.addNode { id }) _ { id } := h.addNode_puts hIndex
    dsimp only at hNode ⊢
    rw [hPuts.nodes] at hNode
    split at hNode
    · next hSlot =>
      cases hNode
      exact Or.inr ⟨hSlot, rfl⟩
    · exact Or.inl hNode

/-- After a reference the index leads to its slot. -/
private lemma index_ensure (graph : CodeGraph) (id : String) :
    (graph.ensure id).2.index.get? id = some (graph.ensure id).1 := by
  unfold ensure
  cases hIndex : graph.index.get? id with
  | some other => exact hIndex
  | none => exact Table.get?_insert_self _ _ _

/-- One edge is added in a free slot, and its ends become placeholders if they are new. -/
structure Connects (graph after : CodeGraph) (relation : Relation) (slot : Nat)
    (edge : GraphEdge) : Prop where
  sound : after.Sound
  fileNodes : after.fileNodes = graph.fileNodes
  fileEdges : after.fileEdges = graph.fileEdges
  fresh : graph.edges.get? slot = none
  edges : ∀ other, after.edges.get? other =
    if other = slot then some edge else graph.edges.get? other
  kept : ∀ other node, graph.nodes.get? other = some node → after.nodes.get? other = some node
  new : ∀ other node, after.nodes.get? other = some node →
    graph.nodes.get? other = some node ∨
      (other = edge.source ∨ other = edge.target) ∧ node = { id := node.id }
  source : after.index.get? relation.sourceId = some edge.source
  target : after.index.get? relation.targetId = some edge.target
  kind : edge.kind = relation.kind

/-- An edge between two nodes may be added. -/
private lemma Sound.insertEdge {graph : CodeGraph} (h : graph.Sound) {edge : GraphEdge}
    (hSource : (graph.nodes.get? edge.source).isSome)
    (hTarget : (graph.nodes.get? edge.target).isSome) :
    Sound { graph with edges := graph.edges.insert edge } := by
  refine ⟨h.nodes_wf, h.edges_wf.insert edge, h.index_iff, fun place other hPlace => ?_⟩
  dsimp only at hPlace
  rw [Slab.get?_insert h.edges_wf] at hPlace
  split at hPlace
  · cases hPlace
    exact ⟨hSource, hTarget⟩
  · exact h.ends_live place other hPlace

/-- What a relation does to a graph.

**Proof sketch.** The ends are ensured one after the other, and the second step keeps what the first
has put into the index. Both ends are nodes then, so the edge may be added (`Sound.insertEdge`). A
node is new only if it was added for one of the ends. -/
theorem Sound.connects {graph : CodeGraph} (h : graph.Sound) (relation : Relation) :
    ∃ edge, Connects graph (graph.connect relation).2 relation (graph.connect relation).1 edge := by
  have hFirst := h.ensure_puts relation.sourceId
  have hSecond := hFirst.sound.ensure_puts relation.targetId
  set middle := (graph.ensure relation.sourceId).2
  set last := (middle.ensure relation.targetId).2
  set edge : GraphEdge := ⟨(graph.ensure relation.sourceId).1,
    (middle.ensure relation.targetId).1, relation.kind⟩
  have hConnect : graph.connect relation =
      (last.edges.nextSlot, { last with edges := last.edges.insert edge }) := rfl
  have hSame : last.edges = graph.edges := hSecond.edges.trans hFirst.edges
  have hEdges : ∀ other, (last.edges.insert edge).get? other =
      if other = last.edges.nextSlot then some edge else graph.edges.get? other := by
    intro other
    rw [Slab.get?_insert hSecond.sound.edges_wf, hSame]
  obtain ⟨start, hStart, hStartId⟩ := (hFirst.sound.index_iff _ _).1
    (index_ensure graph relation.sourceId)
  have hSource : last.index.get? relation.sourceId = some edge.source := by
    rw [← hStartId]
    exact hSecond.sound.index_of_get? (hFirst.sound.get?_ensure _ hStart)
  have hTarget : last.index.get? relation.targetId = some edge.target := index_ensure middle _
  obtain ⟨first, hFirstNode, -⟩ := (hSecond.sound.index_iff _ _).1 hSource
  obtain ⟨second, hSecondNode, -⟩ := (hSecond.sound.index_iff _ _).1 hTarget
  have hSound := hSecond.sound.insertEdge (Option.isSome_of_eq_some hFirstNode)
    (Option.isSome_of_eq_some hSecondNode)
  rw [hConnect]
  refine ⟨edge, hSound, hSecond.fileNodes.trans hFirst.fileNodes,
    hSecond.fileEdges.trans hFirst.fileEdges, ?_, hEdges, ?_, ?_, hSource, hTarget, rfl⟩
  · dsimp only
    rw [← hSame]
    exact Slab.get?_nextSlot hSecond.sound.edges_wf
  · intro other node hNode
    exact hFirst.sound.get?_ensure _ (h.get?_ensure _ hNode)
  · intro other node hNode
    rcases hFirst.sound.of_get?_ensure hNode with hNode | ⟨hOther, hNew⟩
    · rcases h.of_get?_ensure hNode with hNode | ⟨hOther, hNew⟩
      · exact Or.inl hNode
      · exact Or.inr ⟨Or.inl hOther, hNew⟩
    · exact Or.inr ⟨Or.inr hOther, hNew⟩

section Connected

variable {graph after : CodeGraph} {relation : Relation} {place : Nat} {edge : GraphEdge}

/-- The edge that is added is there. -/
lemma Connects.get?_self (h : Connects graph after relation place edge) :
    after.edges.get? place = some edge := by
  rw [h.edges, if_pos rfl]

/-- The edges that were there are still there. -/
lemma Connects.get?_of_get? (h : Connects graph after relation place edge) {other : Nat}
    {found : GraphEdge} (hFound : graph.edges.get? other = some found) :
    after.edges.get? other = some found := by
  have hNe : other ≠ place := by
    rintro rfl
    rw [h.fresh] at hFound
    cases hFound
  rw [h.edges, if_neg hNe, hFound]

/-- What an edge touched it still touches, and the edge that is added touches its ends. -/
lemma Connects.touched (h : Connects graph after relation place edge) {slot : Nat}
    (hSlot : graph.Touched slot ∨ slot = edge.source ∨ slot = edge.target) :
    after.Touched slot := by
  rcases hSlot with ⟨other, found, hFound, hEnd⟩ | hEnd
  · exact ⟨other, found, h.get?_of_get? hFound, hEnd⟩
  · exact ⟨place, edge, h.get?_self, hEnd.imp Eq.symm Eq.symm⟩

end Connected

/-! ## Pruning -/

/-- The nodes in some slots go if no file owns them and no edge touches them. -/
structure Prunes (graph after : CodeGraph) (slots : List Nat) : Prop where
  sound : after.Sound
  edges : after.edges = graph.edges
  fileNodes : after.fileNodes = graph.fileNodes
  fileEdges : after.fileEdges = graph.fileEdges
  nodes : ∀ slot node, after.nodes.get? slot = some node ↔
    graph.nodes.get? slot = some node ∧
      (slot ∈ slots → node.owner.isSome ∨ graph.Touched slot)

/-- A node that no edge touches may go.

**Proof sketch.** The identifier of the node loses its slot, and no other slot has a node of that
identifier. An edge with an end in the slot would touch it, so no edge loses an end. -/
private lemma Sound.eraseNode {graph : CodeGraph} (h : graph.Sound) {slot : Nat} {node : GraphNode}
    (hNode : graph.nodes.get? slot = some node) (hLoose : ¬graph.Touched slot) :
    Sound { graph with nodes := graph.nodes.erase slot, index := graph.index.erase node.id } := by
  have hNodes := Slab.get?_erase graph.nodes slot
  have hIndex := Table.get?_erase graph.index node.id
  refine ⟨h.nodes_wf.erase slot, h.edges_wf, fun id other => ?_, fun place edge hEdge => ?_⟩
  · dsimp only
    rw [hIndex]
    simp only [hNodes]
    by_cases hId : id = node.id
    · rw [if_pos hId]
      refine ⟨fun hEq => absurd hEq (by simp), ?_⟩
      rintro ⟨found, hFound, hFoundId⟩
      split at hFound
      · cases hFound
      · next hNe => exact absurd (h.slot_unique hFound hNode (hFoundId.trans hId)) hNe
    · rw [if_neg hId, h.index_iff]
      by_cases hOther : other = slot
      · subst hOther
        rw [if_pos rfl, hNode]
        simp [Ne.symm hId]
      · rw [if_neg hOther]
  · -- an edge that has the slot as an end would touch it
    have hEnd : ∀ other, (edge.source = other ∨ edge.target = other) →
        (graph.nodes.get? other).isSome → ((graph.nodes.erase slot).get? other).isSome := by
      intro other hOther hSome
      have hNe : other ≠ slot := fun hEq => hLoose ⟨place, edge, hEdge, hEq ▸ hOther⟩
      rwa [hNodes, if_neg hNe]
    have hLive := h.ends_live place edge hEdge
    exact ⟨hEnd _ (Or.inl rfl) hLive.1, hEnd _ (Or.inr rfl) hLive.2⟩

/-- What pruning one slot does.

**Proof sketch.** By the cases of `prune`: there is no node, something holds the node, or it goes
(`Sound.eraseNode`). What is in the other slots stays. -/
private lemma Sound.prune_prunes {graph : CodeGraph} (h : graph.Sound) (slot : Nat) :
    Prunes graph (graph.prune slot) [slot] := by
  unfold prune
  cases hNode : graph.nodes.get? slot with
  | none =>
    refine ⟨h, rfl, rfl, rfl, fun other node => ⟨fun hOther => ⟨hOther, fun hMem => ?_⟩, And.left⟩⟩
    rw [List.mem_singleton] at hMem
    rw [hMem, hNode] at hOther
    cases hOther
  | some node =>
    dsimp only
    split
    · next hHeld =>
      rw [Bool.or_eq_true, isConnected_iff] at hHeld
      refine ⟨h, rfl, rfl, rfl, fun other found => ⟨fun hOther => ⟨hOther, fun hMem => ?_⟩,
        And.left⟩⟩
      rw [List.mem_singleton] at hMem
      rw [hMem, hNode] at hOther
      cases hOther
      rwa [hMem]
    · next hLoose =>
      rw [Bool.or_eq_true, isConnected_iff, not_or] at hLoose
      refine ⟨h.eraseNode hNode hLoose.2, rfl, rfl, rfl, fun other found => ?_⟩
      dsimp only
      rw [Slab.get?_erase, List.mem_singleton]
      by_cases hOther : other = slot
      · subst hOther
        rw [if_pos rfl, hNode]
        refine ⟨fun hEq => absurd hEq (by simp), ?_⟩
        rintro ⟨hFound, hHeld⟩
        cases hFound
        exact absurd (hHeld rfl) (not_or.2 hLoose)
      · rw [if_neg hOther]
        exact ⟨fun hFound => ⟨hFound, fun hEq => absurd hEq hOther⟩, And.left⟩

/-- What pruning several slots does. -/
private lemma Sound.foldl_prune_prunes (slots : List Nat) :
    ∀ {graph : CodeGraph}, graph.Sound → Prunes graph (slots.foldl prune graph) slots := by
  induction slots with
  | nil =>
    intro graph h
    exact ⟨h, rfl, rfl, rfl, fun slot node => by simp⟩
  | cons first rest ih =>
    intro graph h
    have hFirst := h.prune_prunes first
    have hRest := ih hFirst.sound
    refine ⟨hRest.sound, hRest.edges.trans hFirst.edges, hRest.fileNodes.trans hFirst.fileNodes,
      hRest.fileEdges.trans hFirst.fileEdges, fun slot node => ?_⟩
    rw [List.foldl_cons, hRest.nodes, hFirst.nodes, touched_congr hFirst.edges, List.mem_singleton,
      List.mem_cons]
    constructor
    · rintro ⟨⟨hNode, hHead⟩, hTail⟩
      exact ⟨hNode, fun hMem => hMem.elim hHead hTail⟩
    · rintro ⟨hNode, hAll⟩
      exact ⟨⟨hNode, fun hMem => hAll (Or.inl hMem)⟩, fun hMem => hAll (Or.inr hMem)⟩

/-! ## Removal -/

/-- An edge in one of the slots has an end in a slot. -/
def TouchedBy (graph : CodeGraph) (places : List Nat) (slot : Nat) : Prop :=
  ∃ place ∈ places, ∃ edge, graph.edges.get? place = some edge ∧
    (edge.source = slot ∨ edge.target = slot)

/-- What listed edges touched they still touch when an edge is added, and if that is listed, too, it
touches its ends. -/
lemma Connects.touchedBy {graph after : CodeGraph} {relation : Relation} {place : Nat}
    {edge : GraphEdge} (h : Connects graph after relation place edge) {places : List Nat}
    {slot : Nat} (hSlot : graph.TouchedBy places slot ∨ slot = edge.source ∨ slot = edge.target) :
    after.TouchedBy (places ++ [place]) slot := by
  rcases hSlot with ⟨other, hMem, found, hFound, hEnd⟩ | hEnd
  · exact ⟨other, List.mem_append_left _ hMem, found, h.get?_of_get? hFound, hEnd⟩
  · exact ⟨place, List.mem_append_right _ (List.mem_singleton_self _), edge, h.get?_self,
      hEnd.imp Eq.symm Eq.symm⟩

/-- The edges in some slots go and the nodes in some slots are disowned; of the nodes that this
concerns, those go that nothing holds. -/
structure Drops (graph after : CodeGraph) (file : String) (places slots : List Nat) : Prop where
  sound : after.Sound
  fileNodes : after.fileNodes = graph.fileNodes.erase file
  fileEdges : after.fileEdges = graph.fileEdges.erase file
  edges : ∀ place, after.edges.get? place = if place ∈ places then none else graph.edges.get? place
  nodes : ∀ slot node, after.nodes.get? slot = some node ↔
    ∃ old, graph.nodes.get? slot = some old ∧
      node = (if slot ∈ slots then old.disowned else old) ∧
      (graph.TouchedBy places slot ∨ slot ∈ slots → node.owner.isSome ∨ after.Touched slot)

/-- The edges after several are removed. -/
private lemma foldl_eraseEdge (places : List Nat) : ∀ graph : CodeGraph,
    places.foldl eraseEdge graph = { graph with edges := places.foldl Slab.erase graph.edges } := by
  induction places with
  | nil => exact fun graph => rfl
  | cons first rest ih =>
    intro graph
    rw [List.foldl_cons, ih]
    rfl

/-- The nodes after several are disowned. -/
private lemma foldl_disown (slots : List Nat) : ∀ graph : CodeGraph,
    slots.foldl disown graph =
      { graph with
        nodes := slots.foldl (fun s slot => s.modify slot GraphNode.disowned) graph.nodes } := by
  induction slots with
  | nil => exact fun graph => rfl
  | cons first rest ih =>
    intro graph
    rw [List.foldl_cons, ih]
    rfl

/-- The ends of edges, as a list. -/
private lemma mem_flatMap_endpoints {graph : CodeGraph} {places : List Nat} {slot : Nat} :
    slot ∈ places.flatMap graph.endpoints ↔ graph.TouchedBy places slot := by
  unfold TouchedBy
  rw [List.mem_flatMap]
  refine exists_congr fun place => and_congr_right fun _ => ?_
  unfold endpoints
  cases graph.edges.get? place with
  | none => simp
  | some edge => simp [eq_comm]

/-- Edges may go and nodes may be disowned without loss of soundness.

**Proof sketch.** A node that is disowned keeps its identifier, so the index still fits. No slot
loses its node, and the edges that stay were there before. -/
private lemma Sound.forget {graph after : CodeGraph} (h : graph.Sound) (places slots : List Nat)
    (hEdges : after.edges = places.foldl Slab.erase graph.edges)
    (hNodes : after.nodes =
      slots.foldl (fun s slot => s.modify slot GraphNode.disowned) graph.nodes)
    (hIndex : after.index = graph.index) : after.Sound := by
  have hGet : ∀ slot, after.nodes.get? slot =
      if slot ∈ slots then (graph.nodes.get? slot).map GraphNode.disowned
      else graph.nodes.get? slot := by
    intro slot
    rw [hNodes]
    exact Slab.get?_foldl_modify GraphNode.disowned_disowned slots slot graph.nodes
  refine ⟨hNodes ▸ h.nodes_wf.foldl_modify _ slots, hEdges ▸ h.edges_wf.foldl_erase places,
    fun id slot => ?_, fun place edge hEdge => ?_⟩
  · rw [hIndex, h.index_iff, hGet]
    split
    · simp [GraphNode.disowned]
    · rfl
  · rw [hEdges, Slab.get?_foldl_erase] at hEdge
    split at hEdge
    · cases hEdge
    · have hLive : ∀ slot, (graph.nodes.get? slot).isSome → (after.nodes.get? slot).isSome := by
        intro slot hSome
        rw [hGet]
        split
        · rwa [Option.isSome_map]
        · exact hSome
      exact (h.ends_live place edge hEdge).imp (hLive _) (hLive _)

/-- What the removal of a file does to a graph.

**Proof sketch.** Without the edges and with the nodes disowned the graph is sound (`Sound.forget`),
and each slot holds what it held, disowned if it is listed. Pruning then concerns the ends of the
edges and the listed slots (`mem_flatMap_endpoints`). -/
theorem Sound.removeFile_drops {graph : CodeGraph} (h : graph.Sound) (file : String) :
    Drops graph (graph.removeFile file) file ((graph.fileEdges.get? file).getD [])
      ((graph.fileNodes.get? file).getD []) := by
  unfold removeFile
  set places := (graph.fileEdges.get? file).getD []
  set slots := (graph.fileNodes.get? file).getD []
  dsimp only
  rw [foldl_eraseEdge, foldl_disown]
  dsimp only
  set middle : CodeGraph :=
    { graph with
      nodes := slots.foldl (fun s slot => s.modify slot GraphNode.disowned) graph.nodes
      edges := places.foldl Slab.erase graph.edges
      fileNodes := graph.fileNodes.erase file
      fileEdges := graph.fileEdges.erase file } with hMiddle
  have hSound : middle.Sound := h.forget places slots rfl rfl rfl
  have hPrunes := hSound.foldl_prune_prunes (places.flatMap graph.endpoints ++ slots)
  refine ⟨hPrunes.sound, hPrunes.fileNodes, hPrunes.fileEdges, fun place => ?_,
    fun slot node => ?_⟩
  · rw [hPrunes.edges]
    exact Slab.get?_foldl_erase places place graph.edges
  · have hGet := Slab.get?_foldl_modify GraphNode.disowned_disowned slots slot graph.nodes
    have hNodes : middle.nodes.get? slot = some node ↔
        ∃ old, graph.nodes.get? slot = some old ∧
          node = if slot ∈ slots then old.disowned else old := by
      rw [hMiddle]
      dsimp only
      rw [hGet]
      split
      · rw [Option.map_eq_some_iff]
        exact exists_congr fun old => and_congr_right fun _ => eq_comm
      · simp
    rw [hPrunes.nodes, hNodes, touched_congr hPrunes.edges, List.mem_append, mem_flatMap_endpoints]
    constructor
    · rintro ⟨⟨old, hOld, hEq⟩, hHeld⟩
      exact ⟨old, hOld, hEq, hHeld⟩
    · rintro ⟨old, hOld, hEq, hHeld⟩
      exact ⟨⟨old, hOld, hEq⟩, hHeld⟩

/-- The removal of a file that is not known changes no node and no edge. -/
lemma removeFile_of_not_knows {graph : CodeGraph} {file : String}
    (h : graph.knows file = false) :
    graph.removeFile file = { graph with
      fileEdges := graph.fileEdges.erase file
      fileNodes := graph.fileNodes.erase file } := by
  unfold knows at h
  rw [Bool.or_eq_false_iff, Option.isSome_eq_false_iff, Option.isNone_iff_eq_none,
    Option.isSome_eq_false_iff, Option.isNone_iff_eq_none] at h
  unfold removeFile
  rw [h.1, h.2]
  rfl

/-- A slot keeps an edge that touches it, unless the edge goes. -/
private lemma Drops.touched {graph after : CodeGraph} {file : String} {places slots : List Nat}
    (h : Drops graph after file places slots) {slot : Nat} (hTouched : graph.Touched slot)
    (hStays : ¬graph.TouchedBy places slot) : after.Touched slot := by
  obtain ⟨place, edge, hEdge, hEnd⟩ := hTouched
  have hPlace : place ∉ places := fun hMem => hStays ⟨place, hMem, edge, hEdge, hEnd⟩
  exact ⟨place, edge, by rw [h.edges, if_neg hPlace, hEdge], hEnd⟩

/-- A node that stays without an owner is touched by an edge, if it was touched in case it is as
before: any other node was pruned unless something holds it. -/
lemma Drops.touched_of_unowned {graph after : CodeGraph} {file : String}
    {places slots : List Nat} (h : Drops graph after file places slots) {slot : Nat}
    {node : GraphNode} (hNode : after.nodes.get? slot = some node) (hOwner : node.owner = none)
    (hBefore : graph.nodes.get? slot = some node → graph.Touched slot) : after.Touched slot := by
  obtain ⟨old, hOld, hEq, hHeld⟩ := (h.nodes slot node).1 hNode
  by_cases hConcerned : graph.TouchedBy places slot ∨ slot ∈ slots
  · exact (hHeld hConcerned).resolve_left (by simp [hOwner])
  · rw [not_or] at hConcerned
    rw [if_neg hConcerned.2] at hEq
    subst hEq
    exact h.touched (hBefore hOld) hConcerned.1

end CodeGraph

end CodeAtlas
