import CodeAtlas.Extract.Entity
import CodeAtlas.Graph.Slab
import CodeAtlas.Graph.Table
import CodeAtlas.Log

/-!
# Code graphs

The extractions of many files are folded into one graph. Each file owns the nodes it declares and
the edges it states, so that its part can be replaced or removed. A node that is only referred to
is a placeholder: it has no entity.

## Main definitions

* `CodeAtlas.GraphNode`, `CodeAtlas.GraphEdge`, `CodeAtlas.CodeGraph` — nodes, edges, and the
  graph.
* `CodeAtlas.CodeGraph.removeFile` — removes what a file contributed.
* `CodeAtlas.CodeGraph.ingest` — replaces what a file contributed.

## Implementation notes

A file remembers the slots of its nodes and edges. If two files declare one identifier, the slot
that the second remembers may be freed when the first is removed, and taken by another node after
that.
-/

set_option autoImplicit false

namespace CodeAtlas

/-- A node of a code graph. -/
structure GraphNode where
  /-- What identifies the node. -/
  id : String
  /-- The declared entity; a placeholder has none. -/
  entity : Option Entity := none
  /-- The file that declares the node. -/
  owner : Option String := none
  deriving DecidableEq, Repr

/-- An edge of a code graph. -/
structure GraphEdge where
  /-- The slot of the node that the edge starts from. -/
  source : Nat
  /-- The slot of the node that it leads to. -/
  target : Nat
  /-- The sort of the relation. -/
  kind : RelationKind
  deriving DecidableEq, Repr

/-- A graph of many files. -/
structure CodeGraph where
  /-- The nodes. -/
  nodes : Slab GraphNode := {}
  /-- The edges. -/
  edges : Slab GraphEdge := {}
  /-- The slot of each identifier. -/
  index : Table Nat := {}
  /-- The slots of the nodes that each file declares. -/
  fileNodes : Table (List Nat) := {}
  /-- The slots of the edges that each file states. -/
  fileEdges : Table (List Nat) := {}

namespace CodeGraph

/-- The number of nodes. -/
def nodeCount (graph : CodeGraph) : Nat := graph.nodes.size

/-- The number of edges. -/
def edgeCount (graph : CodeGraph) : Nat := graph.edges.size

/-- Whether an edge starts from or leads to a slot. -/
def isConnected (graph : CodeGraph) (slot : Nat) : Bool :=
  graph.edges.values.any fun edge => edge.source == slot || edge.target == slot

/-! ## Removal -/

/-- Removes a node that no file owns and no edge touches. -/
def prune (graph : CodeGraph) (slot : Nat) : CodeGraph :=
  match graph.nodes.get? slot with
  | none => graph
  | some node =>
    if node.owner.isSome || graph.isConnected slot then graph
    else { graph with nodes := graph.nodes.erase slot, index := graph.index.erase node.id }

/-- Removes an edge. -/
def eraseEdge (graph : CodeGraph) (slot : Nat) : CodeGraph :=
  { graph with edges := graph.edges.erase slot }

/-- The ends of an edge. -/
def endpoints (graph : CodeGraph) (slot : Nat) : List Nat :=
  match graph.edges.get? slot with
  | some edge => [edge.source, edge.target]
  | none => []

/-- Turns a node into a placeholder. -/
def disown (graph : CodeGraph) (slot : Nat) : CodeGraph :=
  { graph with
    nodes := graph.nodes.modify slot fun node => { node with entity := none, owner := none } }

/-- Whether a file has been ingested and not removed since. -/
def knows (graph : CodeGraph) (file : String) : Bool :=
  (graph.fileEdges.get? file).isSome || (graph.fileNodes.get? file).isSome

/-- Removes what a file contributed. The nodes that it declares become placeholders, and of the
nodes touched those go that nothing else holds. -/
def removeFile (graph : CodeGraph) (file : String) : CodeGraph :=
  let edges := (graph.fileEdges.get? file).getD []
  let nodes := (graph.fileNodes.get? file).getD []
  let touched := edges.flatMap graph.endpoints ++ nodes
  let forgotten :=
    { graph with
      fileEdges := graph.fileEdges.erase file
      fileNodes := graph.fileNodes.erase file }
  touched.foldl prune (nodes.foldl disown (edges.foldl eraseEdge forgotten))

/-! ## Ingestion -/

/-- Adds a node to the next slot. -/
def addNode (graph : CodeGraph) (node : GraphNode) : CodeGraph :=
  { graph with
    nodes := graph.nodes.insert node
    index := graph.index.insert node.id graph.nodes.nextSlot }

/-- Puts an entity into the graph and gives its slot. A file that declares the entity takes over
the node; otherwise a node that is declared already stays as it is. -/
def upsert (graph : CodeGraph) (entity : Entity) (owner : Option String) : Nat × CodeGraph :=
  match graph.index.get? entity.id with
  | none =>
    (graph.nodes.nextSlot, graph.addNode { id := entity.id, entity := some entity, owner })
  | some slot =>
    let change := fun (node : GraphNode) =>
      if owner.isSome then { node with entity := some entity, owner }
      else if node.entity.isNone then { node with entity := some entity }
      else node
    (slot, { graph with nodes := graph.nodes.modify slot change })

/-- The slot of an identifier, which becomes a placeholder if it is new. -/
def ensure (graph : CodeGraph) (id : String) : Nat × CodeGraph :=
  match graph.index.get? id with
  | some slot => (slot, graph)
  | none => (graph.nodes.nextSlot, graph.addNode { id })

/-- Puts the entities of a file into the graph, and gives the slots of those that it declares. -/
def upsertAll (file : String) : CodeGraph → List Entity → List Nat × CodeGraph
  | graph, [] => ([], graph)
  | graph, entity :: rest =>
    if entity.path = file then
      let (slot, graph) := graph.upsert entity (some file)
      let (slots, graph) := upsertAll file graph rest
      (slot :: slots, graph)
    else
      upsertAll file (graph.upsert entity none).2 rest

/-- Adds the edge of a relation, and gives its slot. -/
def connect (graph : CodeGraph) (relation : Relation) : Nat × CodeGraph :=
  let (source, graph) := graph.ensure relation.sourceId
  let (target, graph) := graph.ensure relation.targetId
  (graph.edges.nextSlot,
    { graph with edges := graph.edges.insert { source, target, kind := relation.kind } })

/-- Adds the edges of relations, and gives their slots. -/
def connectAll : CodeGraph → List Relation → List Nat × CodeGraph
  | graph, [] => ([], graph)
  | graph, relation :: rest =>
    let (slot, graph) := graph.connect relation
    let (slots, graph) := connectAll graph rest
    (slot :: slots, graph)

/-- The record of an ingestion. -/
def ingestRecord (graph : CodeGraph) (file : String) : LogRecord :=
  ⟨.debug, "Ingested " ++ file ++ ": " ++ graph.nodeCount.repr ++ " nodes, " ++
    graph.edgeCount.repr ++ " edges in graph"⟩

/-- Replaces what a file contributed by an extraction, whose first entity tells the file. An
extraction without entities changes nothing. -/
def ingest (graph : CodeGraph) (extraction : Extraction) : CodeGraph × List LogRecord :=
  match extraction.module? with
  | none => (graph, [])
  | some fileModule =>
    let file := fileModule.path
    let (nodes, graph) := upsertAll file (graph.removeFile file) extraction.entities
    let (edges, graph) := connectAll graph extraction.relations
    ({ graph with
        fileNodes := graph.fileNodes.insert file nodes
        fileEdges := graph.fileEdges.insert file edges },
      [graph.ingestRecord file])

end CodeGraph

end CodeAtlas
