import Mathlib.Data.String.Basic
import CodeAtlas.Graph.Query
import CodeAtlas.Proofs.GraphSteps

/-!
# Answers of code graphs

What a graph answers, in terms of its nodes and edges, and what it shares with a graph that has the
same edges between the same identifiers.

## Main definitions

* `CodeAtlas.CodeGraph.SameAnswers` — two graphs give the same answer to every query.
* `CodeAtlas.CodeGraph.Recasts` — a graph differs from another in what its nodes hold alone.

## Main results

* `CodeAtlas.CodeGraph.Sound.mem_unresolved_iff`, `pairwise_unresolved` — the placeholders are
  listed, each once and in order.
* `CodeAtlas.CodeGraph.Recasts.neighbors`, `entity?`, `unresolved_eq` — which answers stay when
  nodes are recast.
-/

set_option autoImplicit false

namespace CodeAtlas

namespace CodeGraph

/-- Two graphs give the same answer to every query. -/
structure SameAnswers (graph other : CodeGraph) : Prop where
  entity : ∀ id, graph.entity? id = other.entity? id
  callees : ∀ id, graph.callees id = other.callees id
  callers : ∀ id, graph.callers id = other.callers id
  children : ∀ id, graph.children id = other.children id
  unresolved : graph.unresolved = other.unresolved
  nodeCount : graph.nodeCount = other.nodeCount
  edgeCount : graph.edgeCount = other.edgeCount

/-! ## Single answers -/

/-- The entity under an identifier is that of its node. -/
lemma entity?_eq_bind (graph : CodeGraph) (id : String) :
    graph.entity? id = (graph.nodeOf? id).bind GraphNode.entity := by
  unfold entity? nodeOf?
  cases graph.index.get? id <;> rfl

/-- Sorting identifiers puts them in order. -/
lemma pairwise_sorted (ids : List String) : (sorted ids).Pairwise (· ≤ ·) := by
  have hSorted := @List.pairwise_mergeSort String (fun a b => decide (a ≤ b))
    (fun a b c hab hbc => by
      rw [decide_eq_true_eq] at hab hbc ⊢
      exact le_trans hab hbc)
    (fun a b => by
      rw [Bool.or_eq_true, decide_eq_true_eq, decide_eq_true_eq]
      exact le_total a b) ids
  exact hSorted.imp fun h => of_decide_eq_true h

/-- An identifier is listed as unresolved iff its node is a placeholder.

**Proof sketch.** The listed identifiers are those of the nodes without an entity, and each node is
the one of its identifier, as the index is one-to-one. -/
theorem Sound.mem_unresolved_iff {graph : CodeGraph} (h : graph.Sound) {id : String} :
    id ∈ graph.unresolved ↔ ∃ node, graph.nodeOf? id = some node ∧ node.entity = none := by
  unfold unresolved sorted
  rw [List.mem_mergeSort, List.mem_map]
  constructor
  · rintro ⟨node, hMem, rfl⟩
    obtain ⟨hValue, hEntity⟩ := List.mem_filter.1 hMem
    obtain ⟨slot, hNode⟩ := Slab.mem_values.1 hValue
    exact ⟨node, h.nodeOf?_eq_some_iff.2 ⟨rfl, slot, hNode⟩, Option.isNone_iff_eq_none.1 hEntity⟩
  · rintro ⟨node, hFound, hEntity⟩
    obtain ⟨hId, slot, hNode⟩ := h.nodeOf?_eq_some_iff.1 hFound
    refine ⟨node, List.mem_filter.2 ⟨Slab.mem_values.2 ⟨slot, hNode⟩, ?_⟩, hId⟩
    rw [hEntity]
    rfl

/-- The identifiers of the nodes are distinct. -/
lemma Sound.nodup_ids {graph : CodeGraph} (h : graph.Sound) :
    (graph.nodes.values.map GraphNode.id).Nodup := by
  have hApart := Slab.pairwise_values (P := fun a b : GraphNode => a.id ≠ b.id) graph.nodes ?_
  · exact List.pairwise_map.2 hApart
  · intro slot other node node' hNode hNode' hNe hId
    exact hNe (h.slot_unique hNode hNode' hId)

/-- The unresolved identifiers are listed in order and each once. -/
theorem Sound.pairwise_unresolved {graph : CodeGraph} (h : graph.Sound) :
    graph.unresolved.Pairwise (· < ·) := by
  have hOrdered : graph.unresolved.Pairwise (· ≤ ·) := pairwise_sorted _
  have hNodup : graph.unresolved.Nodup := by
    unfold unresolved sorted
    rw [(List.mergeSort_perm _ _).nodup_iff]
    exact h.nodup_ids.sublist (List.filter_sublist.map _)
  exact hOrdered.imp₂ (fun a b hLe hNe => lt_of_le_of_ne hLe hNe) hNodup

/-! ## Recast nodes -/

/-- The graph has the edges of another and its nodes in their slots, recast with their identifiers
kept. -/
structure Recasts (graph after : CodeGraph) (recast : GraphNode → GraphNode) : Prop where
  sound : graph.Sound
  sound' : after.Sound
  edges : ∀ place, after.edges.get? place = graph.edges.get? place
  nodes : ∀ slot, after.nodes.get? slot = (graph.nodes.get? slot).map recast
  id_recast : ∀ node, (recast node).id = node.id

namespace Recasts

variable {graph after : CodeGraph} {recast : GraphNode → GraphNode}

/-- The index leads to the same slots. -/
lemma index (h : Recasts graph after recast) (id : String) :
    after.index.get? id = graph.index.get? id := by
  ext slot
  rw [h.sound'.index_iff, h.sound.index_iff]
  constructor
  · rintro ⟨node, hNode, hId⟩
    rw [h.nodes, Option.map_eq_some_iff] at hNode
    obtain ⟨old, hOld, rfl⟩ := hNode
    exact ⟨old, hOld, by rw [← hId, h.id_recast]⟩
  · rintro ⟨old, hOld, hId⟩
    exact ⟨recast old, by rw [h.nodes, hOld]; rfl, by rw [h.id_recast, hId]⟩

/-- The node of an identifier is the one before, recast. -/
lemma nodeOf? (h : Recasts graph after recast) (id : String) :
    after.nodeOf? id = (graph.nodeOf? id).map recast := by
  unfold CodeGraph.nodeOf?
  rw [h.index]
  cases graph.index.get? id with
  | none => rfl
  | some slot => exact h.nodes slot

/-- The edges are the same. -/
lemma edges_values (h : Recasts graph after recast) :
    after.edges.values = graph.edges.values := by
  have hSame : after.edges.values = graph.edges.values.map id :=
    Slab.values_eq_map fun place => by rw [h.edges, Option.map_id]; rfl
  rw [hSame, List.map_id]

/-- Neighbours stay.

**Proof sketch.** Neighbours are found by the index and the edges, which stay, and told by the
identifiers of the nodes, which a recast keeps. -/
theorem neighbors (h : Recasts graph after recast) (id : String) (kind : RelationKind)
    (direction : Direction) :
    after.neighbors id kind direction = graph.neighbors id kind direction := by
  have hIds : ∀ slot, (after.nodes.get? slot).map GraphNode.id =
      (graph.nodes.get? slot).map GraphNode.id := by
    intro slot
    rw [h.nodes, Option.map_map]
    exact congrArg (fun f => (graph.nodes.get? slot).map f) (funext h.id_recast)
  unfold CodeGraph.neighbors
  simp only [h.index, h.edges_values, hIds]

/-- The number of nodes stays. -/
lemma nodeCount (h : Recasts graph after recast) : after.nodeCount = graph.nodeCount := by
  unfold CodeGraph.nodeCount Slab.size
  rw [Slab.values_eq_map h.nodes, List.length_map]

/-- The number of edges stays. -/
lemma edgeCount (h : Recasts graph after recast) : after.edgeCount = graph.edgeCount := by
  unfold CodeGraph.edgeCount Slab.size
  rw [h.edges_values]

/-- The entity of an identifier is that of its recast node. -/
theorem entity? (h : Recasts graph after recast) (id : String) :
    after.entity? id = (graph.nodeOf? id).bind fun node => (recast node).entity := by
  rw [entity?_eq_bind, h.nodeOf?]
  cases graph.nodeOf? id <;> rfl

/-- If placeholders and declared nodes are not changed into one another, the same identifiers are
unresolved.

**Proof sketch.** The nodes are the recast ones in the same order (`Slab.values_eq_map`), so the
same ones have no entity, and their identifiers are the same. -/
theorem unresolved_eq (h : Recasts graph after recast)
    (hSame : ∀ slot node, graph.nodes.get? slot = some node →
      (recast node).entity.isNone = node.entity.isNone) :
    after.unresolved = graph.unresolved := by
  have hValues : ∀ node ∈ graph.nodes.values,
      (recast node).entity.isNone = node.entity.isNone := by
    intro node hMem
    obtain ⟨slot, hNode⟩ := Slab.mem_values.1 hMem
    exact hSame slot node hNode
  unfold CodeGraph.unresolved
  rw [Slab.values_eq_map h.nodes, List.filter_map, List.map_map]
  have hFilter : graph.nodes.values.filter ((fun node => node.entity.isNone) ∘ recast) =
      graph.nodes.values.filter (·.entity.isNone) :=
    List.filter_congr fun node hMem => hValues node hMem
  rw [hFilter]
  exact congrArg (fun f => sorted (List.map f _)) (funext h.id_recast)

end Recasts

end CodeGraph

end CodeAtlas
