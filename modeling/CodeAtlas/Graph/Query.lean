import CodeAtlas.Extract.Error
import CodeAtlas.Graph.Basic

/-!
# Queries on code graphs

Answers are sorted by code point, which is the order of their UTF-8 bytes.

## Main definitions

* `CodeAtlas.CodeGraph.entity?` — the entity declared under an identifier.
* `CodeAtlas.CodeGraph.callees`, `callers`, `children` — the neighbours of a node.
* `CodeAtlas.CodeGraph.unresolved` — the placeholders.
-/

set_option autoImplicit false

namespace CodeAtlas

namespace CodeGraph

/-- Identifiers in order. -/
def sorted (ids : List String) : List String := ids.mergeSort fun a b => decide (a ≤ b)

/-- The entity declared under an identifier. -/
def entity? (graph : CodeGraph) (id : String) : Option Entity := do
  let slot ← graph.index.get? id
  let node ← graph.nodes.get? slot
  node.entity

/-- Which end of an edge a query starts from. -/
inductive Direction where
  /-- Along the edge, from its source. -/
  | outgoing
  /-- Against the edge, from its target. -/
  | incoming
  deriving DecidableEq, Repr

/-- The other end of an edge at a slot. -/
def Direction.other? : Direction → Nat → GraphEdge → Option Nat
  | outgoing, slot, edge => if edge.source = slot then some edge.target else none
  | incoming, slot, edge => if edge.target = slot then some edge.source else none

/-- The identifiers at the other ends of a node's edges of one sort, each once and in order. -/
def neighbors (graph : CodeGraph) (id : String) (kind : RelationKind) (direction : Direction) :
    Except GraphError (List String) :=
  match graph.index.get? id with
  | none => .error (.nodeNotFound id)
  | some slot =>
    let edges := graph.edges.values.filter (·.kind = kind)
    let others := edges.filterMap (direction.other? slot)
    .ok (sorted (others.filterMap fun other => (graph.nodes.get? other).map GraphNode.id)).eraseReps

/-- What a node calls. -/
def callees (graph : CodeGraph) (id : String) : Except GraphError (List String) :=
  graph.neighbors id .calls .outgoing

/-- What calls a node. -/
def callers (graph : CodeGraph) (id : String) : Except GraphError (List String) :=
  graph.neighbors id .calls .incoming

/-- What a node contains. -/
def children (graph : CodeGraph) (id : String) : Except GraphError (List String) :=
  graph.neighbors id .contains .outgoing

/-- The identifiers that are referred to and not declared, in order. -/
def unresolved (graph : CodeGraph) : List String :=
  sorted ((graph.nodes.values.filter (·.entity.isNone)).map GraphNode.id)

end CodeGraph

end CodeAtlas
