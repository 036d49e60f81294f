import Mathlib.Data.List.Dedup
import Mathlib.Data.List.Sort
import CodeAtlas.Proofs.Answers
import CodeAtlas.Proofs.Ingestion

/-!
# Links of code graphs

A link is an edge read by identifiers instead of slots. The links of a graph are the relations of
the extractions that count, each as often as it is stated there, whatever else was ingested or
removed before; and the links decide what the neighbours of an identifier are.

## Main definitions

* `CodeAtlas.Link` — what an edge says of identifiers.
* `CodeAtlas.CodeGraph.ids`, `links` — the identifiers of a graph, and its edges as links.
* `CodeAtlas.CodeGraph.Lists` — an answer lists the identifiers that have a property.
* `CodeAtlas.CodeGraph.Says` — edges say what relations say.
* `CodeAtlas.CodeGraph.Tracks` — the edges listed for a file are the relations of its extraction.
* `CodeAtlas.CodeGraph.currentFiles`, `stated` — the files that have an extraction, and what the
  extractions of files state.
* `CodeAtlas.CodeGraph.Mirrors` — a graph answers by what the extractions of its files state.

## Main results

* `CodeAtlas.CodeGraph.Sound.lists_neighbors` — the neighbours of an identifier are read off the
  links.
* `CodeAtlas.CodeGraph.tracks_run` — the edges of each file follow its extraction along every run.
* `CodeAtlas.CodeGraph.mirrors_run` — every graph that changes lead to mirrors the extractions that
  count.
* `CodeAtlas.CodeGraph.SameAnswers.of_nodeOf?` — nodes and links decide all answers.
-/

set_option autoImplicit false

namespace CodeAtlas

/-- What an edge says of identifiers: where it starts, where it leads, and its sort. -/
abbrev Link := String × String × RelationKind

/-- An identifier is an end of one of the relations of an extraction. -/
def Extraction.Mentions (extraction : Extraction) (id : String) : Prop :=
  ∃ relation ∈ extraction.relations, relation.sourceId = id ∨ relation.targetId = id

instance (extraction : Extraction) (id : String) : Decidable (extraction.Mentions id) :=
  inferInstanceAs (Decidable (∃ relation ∈ extraction.relations, _))

/-- Linked extractions, in terms of the file that an extraction is of. -/
lemma Extraction.foreignLinked_iff {extraction : Extraction} : extraction.ForeignLinked ↔
    ∀ entity ∈ extraction.entities, extraction.file? ≠ some entity.path →
      extraction.Mentions entity.id := by
  constructor
  · intro h entity hMem hFile
    cases hModule : extraction.module? with
    | none =>
      rw [List.head?_eq_none_iff.1 hModule] at hMem
      cases hMem
    | some fileModule =>
      refine h fileModule entity hModule hMem fun hPath => hFile ?_
      rw [file?, hModule, hPath]
      rfl
  · intro h fileModule entity hModule hMem hPath
    refine h entity hMem ?_
    rw [file?, hModule]
    exact fun hFile => hPath (Option.some.inj hFile).symm

instance (extraction : Extraction) : Decidable extraction.ForeignLinked :=
  decidable_of_iff _ Extraction.foreignLinked_iff.symm

namespace CodeGraph

/-- The identifiers of the nodes. -/
def ids (graph : CodeGraph) : List String := graph.nodes.values.map GraphNode.id

/-- What an edge says, if there are nodes at its ends. -/
def linkOf? (graph : CodeGraph) (edge : GraphEdge) : Option Link := do
  let source ← graph.nodes.get? edge.source
  let target ← graph.nodes.get? edge.target
  return (source.id, target.id, edge.kind)

/-- The edges as links. -/
def links (graph : CodeGraph) : List Link := graph.edges.values.filterMap graph.linkOf?

/-- The link of the edge in a slot. -/
def linkAt? (graph : CodeGraph) (place : Nat) : Option Link :=
  (graph.edges.get? place).bind graph.linkOf?

/-! ## Identifiers and links -/

/-- What an edge says is what its ends are called. -/
lemma linkOf?_eq_some_iff {graph : CodeGraph} {edge : GraphEdge} {link : Link} :
    graph.linkOf? edge = some link ↔ ∃ source target, graph.nodes.get? edge.source = some source ∧
      graph.nodes.get? edge.target = some target ∧ link = (source.id, target.id, edge.kind) := by
  unfold linkOf?
  cases graph.nodes.get? edge.source <;> cases graph.nodes.get? edge.target <;> simp [eq_comm]

/-- The links are what the edges say. -/
lemma mem_links {graph : CodeGraph} {link : Link} :
    link ∈ graph.links ↔ ∃ place, graph.linkAt? place = some link := by
  unfold links linkAt?
  rw [List.mem_filterMap]
  constructor
  · rintro ⟨edge, hMem, hLink⟩
    obtain ⟨place, hEdge⟩ := Slab.mem_values.1 hMem
    exact ⟨place, by rw [hEdge]; exact hLink⟩
  · rintro ⟨place, hLink⟩
    obtain ⟨edge, hEdge, hLink⟩ := Option.bind_eq_some_iff.1 hLink
    exact ⟨edge, Slab.mem_values.2 ⟨place, hEdge⟩, hLink⟩

/-- The ends of a link are among the identifiers. -/
lemma ends_mem_ids {graph : CodeGraph} {source target : String} {kind : RelationKind}
    (hLink : (source, target, kind) ∈ graph.links) : source ∈ graph.ids ∧ target ∈ graph.ids := by
  obtain ⟨place, hAt⟩ := mem_links.1 hLink
  obtain ⟨edge, -, hAt⟩ := Option.bind_eq_some_iff.1 hAt
  obtain ⟨first, second, hFirst, hSecond, hEq⟩ := linkOf?_eq_some_iff.1 hAt
  cases hEq
  exact ⟨List.mem_map.2 ⟨first, Slab.mem_values.2 ⟨_, hFirst⟩, rfl⟩,
    List.mem_map.2 ⟨second, Slab.mem_values.2 ⟨_, hSecond⟩, rfl⟩⟩

namespace Sound

variable {graph : CodeGraph}

/-- An edge that is in the graph says something. -/
lemma isSome_linkOf? (h : graph.Sound) {place : Nat} {edge : GraphEdge}
    (hEdge : graph.edges.get? place = some edge) : (graph.linkOf? edge).isSome := by
  obtain ⟨hSource, hTarget⟩ := h.ends_live place edge hEdge
  obtain ⟨source, hSource⟩ := Option.isSome_iff_exists.1 hSource
  obtain ⟨target, hTarget⟩ := Option.isSome_iff_exists.1 hTarget
  rw [linkOf?_eq_some_iff.2 ⟨source, target, hSource, hTarget, rfl⟩]
  rfl

/-- No edge is left out of the links. -/
lemma length_links (h : graph.Sound) : graph.links.length = graph.edgeCount := by
  unfold links edgeCount Slab.size
  rw [List.length_filterMap_eq_countP, List.countP_eq_length]
  intro edge hMem
  obtain ⟨place, hEdge⟩ := Slab.mem_values.1 hMem
  exact h.isSome_linkOf? hEdge

/-- The identifiers of the nodes are those under which a node is found. -/
lemma mem_ids_iff (h : graph.Sound) {id : String} :
    id ∈ graph.ids ↔ (graph.nodeOf? id).isSome := by
  unfold ids
  rw [List.mem_map, Option.isSome_iff_exists]
  refine exists_congr fun node => ?_
  rw [Slab.mem_values, h.nodeOf?_eq_some_iff, and_comm]

/-- An identifier is an end of a link iff an edge touches its slot. -/
lemma touched_iff (h : graph.Sound) {slot : Nat} {node : GraphNode}
    (hNode : graph.nodes.get? slot = some node) :
    graph.Touched slot ↔ ∃ link ∈ graph.links, link.1 = node.id ∨ link.2.1 = node.id := by
  constructor
  · rintro ⟨place, edge, hEdge, hEnd⟩
    obtain ⟨link, hLink⟩ := Option.isSome_iff_exists.1 (h.isSome_linkOf? hEdge)
    obtain ⟨source, target, hSource, hTarget, rfl⟩ := linkOf?_eq_some_iff.1 hLink
    refine ⟨_, mem_links.2 ⟨place, by rw [linkAt?, hEdge]; exact hLink⟩, ?_⟩
    rcases hEnd with rfl | rfl
    · cases hSource.symm.trans hNode
      exact Or.inl rfl
    · cases hTarget.symm.trans hNode
      exact Or.inr rfl
  · rintro ⟨link, hMem, hEnd⟩
    obtain ⟨place, hAt⟩ := mem_links.1 hMem
    obtain ⟨edge, hEdge, hAt⟩ := Option.bind_eq_some_iff.1 hAt
    obtain ⟨source, target, hSource, hTarget, rfl⟩ := linkOf?_eq_some_iff.1 hAt
    refine ⟨place, edge, hEdge, hEnd.imp (fun hId => ?_) fun hId => ?_⟩
    · exact h.slot_unique hSource hNode hId
    · exact h.slot_unique hTarget hNode hId

end Sound

/-! ## Neighbours -/

/-- What is left of a list without repetitions has the elements of the list, and is in strict order
if the list is in order.

**Proof sketch.** Induction on the elements ahead; what was kept so far stands in front. -/
lemma exists_eraseReps_loop (rest : List String) : ∀ (first : String) (kept : List String),
    ∃ left, List.eraseRepsBy.loop (· == ·) first rest kept = kept.reverse ++ left ∧
      (∀ id, id ∈ left ↔ id ∈ first :: rest) ∧
      ((first :: rest).Pairwise (· ≤ ·) → left.Pairwise (· < ·)) := by
  induction rest with
  | nil =>
    intro first kept
    exact ⟨[first], by simp [List.eraseRepsBy.loop], fun id => Iff.rfl, fun _ => by simp⟩
  | cons next rest ih =>
    intro first kept
    by_cases hSame : first = next
    · subst hSame
      obtain ⟨left, hLoop, hMem, hOrder⟩ := ih first kept
      refine ⟨left, by simpa [List.eraseRepsBy.loop] using hLoop, fun id => ?_, fun h => ?_⟩
      · rw [hMem]
        simp
      · exact hOrder h.of_cons
    · obtain ⟨left, hLoop, hMem, hOrder⟩ := ih next (first :: kept)
      have hDiffers : (first == next) = false := by simpa using hSame
      refine ⟨first :: left, ?_, fun id => ?_, fun h => ?_⟩
      · rw [List.eraseRepsBy.loop, hDiffers, hLoop, List.reverse_cons, List.append_assoc]
        rfl
      · rw [List.mem_cons, hMem]
        exact List.mem_cons.symm
      · obtain ⟨hFirst, hRest⟩ := List.pairwise_cons.1 h
        have hLt : first < next := lt_of_le_of_ne (hFirst next List.mem_cons_self) hSame
        refine List.pairwise_cons.2 ⟨fun id hId => ?_, hOrder hRest⟩
        rcases List.mem_cons.1 ((hMem id).1 hId) with rfl | hBehind
        · exact hLt
        · exact lt_of_lt_of_le hLt ((List.pairwise_cons.1 hRest).1 id hBehind)

/-- Without repetitions a list has the same elements. -/
private lemma mem_eraseReps {list : List String} {id : String} :
    id ∈ list.eraseReps ↔ id ∈ list := by
  cases list with
  | nil => rfl
  | cons first rest =>
    obtain ⟨left, hLoop, hMem, -⟩ := exists_eraseReps_loop rest first []
    have hEq : (first :: rest).eraseReps = left := hLoop
    rw [hEq, hMem]

/-- Without repetitions a list in order is in strict order. -/
private lemma pairwise_eraseReps {list : List String} (h : list.Pairwise (· ≤ ·)) :
    list.eraseReps.Pairwise (· < ·) := by
  cases list with
  | nil => exact List.Pairwise.nil
  | cons first rest =>
    obtain ⟨left, hLoop, -, hOrder⟩ := exists_eraseReps_loop rest first []
    have hEq : (first :: rest).eraseReps = left := hLoop
    rw [hEq]
    exact hOrder h

/-- An answer lists the identifiers that have a property, each once and in order. -/
def Lists (answer : Except GraphError (List String)) (P : String → Prop) : Prop :=
  ∃ listed, answer = .ok listed ∧ listed.Pairwise (· < ·) ∧ ∀ id, id ∈ listed ↔ P id

/-- Answers that list the same are the same. -/
private lemma Lists.eq {answer other : Except GraphError (List String)} {P Q : String → Prop}
    (h : Lists answer P) (h' : Lists other Q) (hSame : ∀ id, P id ↔ Q id) : answer = other := by
  obtain ⟨listed, rfl, hOrder, hMem⟩ := h
  obtain ⟨listed', rfl, hOrder', hMem'⟩ := h'
  rw [hOrder.eq_of_mem_iff hOrder' fun id => by rw [hMem, hMem', hSame]]

/-- The link between an identifier and another one in a direction. -/
def Direction.link (direction : Direction) (id other : String) (kind : RelationKind) : Link :=
  match direction with
  | outgoing => (id, other, kind)
  | incoming => (other, id, kind)

/-- An edge of a sort leads from a node to another one in a direction iff it says so.

**Proof sketch.** By the direction: the near end of the edge is in the slot of the node, which is
the only one with its identifier, and the far end is in the slot that the query looks up. -/
private lemma Sound.linkOf?_eq_link_iff {graph : CodeGraph} (h : graph.Sound) {slot : Nat}
    {node : GraphNode} (hNode : graph.nodes.get? slot = some node) (direction : Direction)
    (other : String) (kind : RelationKind) (edge : GraphEdge) :
    graph.linkOf? edge = some (direction.link node.id other kind) ↔
      edge.kind = kind ∧ ∃ place, direction.other? slot edge = some place ∧
        (graph.nodes.get? place).map GraphNode.id = some other := by
  rw [linkOf?_eq_some_iff]
  cases direction with
  | outgoing =>
    simp only [Direction.link, Direction.other?, Prod.mk.injEq, Option.map_eq_some_iff]
    constructor
    · rintro ⟨source, target, hSource, hTarget, hId, hOther, hKind⟩
      have hSlot : edge.source = slot := h.slot_unique hSource hNode hId.symm
      exact ⟨hKind.symm, edge.target, if_pos hSlot, target, hTarget, hOther.symm⟩
    · rintro ⟨hKind, place, hPlace, target, hTarget, hOther⟩
      split at hPlace
      · next hSlot =>
        cases hPlace
        exact ⟨node, target, by rw [hSlot, hNode], hTarget, rfl, hOther.symm, hKind.symm⟩
      · cases hPlace
  | incoming =>
    simp only [Direction.link, Direction.other?, Prod.mk.injEq, Option.map_eq_some_iff]
    constructor
    · rintro ⟨source, target, hSource, hTarget, hOther, hId, hKind⟩
      have hSlot : edge.target = slot := h.slot_unique hTarget hNode hId.symm
      exact ⟨hKind.symm, edge.source, if_pos hSlot, source, hSource, hOther.symm⟩
    · rintro ⟨hKind, place, hPlace, source, hSource, hOther⟩
      split at hPlace
      · next hSlot =>
        cases hPlace
        exact ⟨source, node, hSource, by rw [hSlot, hNode], hOther.symm, rfl, hKind.symm⟩
      · cases hPlace

/-- **Neighbours are read off the links.** For an identifier of the graph a query lists the other
ends of its links of one sort in one direction.

**Proof sketch.** The query goes through the edges of the sort that have the slot at the near end,
and lists the identifiers at their far ends, sorted and without repetitions. Which edges these are
is told by `Sound.linkOf?_eq_link_iff`. -/
theorem Sound.lists_neighbors {graph : CodeGraph} (h : graph.Sound) {id : String}
    (hId : id ∈ graph.ids) (kind : RelationKind) (direction : Direction) :
    Lists (graph.neighbors id kind direction) fun other =>
      direction.link id other kind ∈ graph.links := by
  obtain ⟨node, hFound⟩ := Option.isSome_iff_exists.1 (h.mem_ids_iff.1 hId)
  obtain ⟨rfl, slot, hNode⟩ := h.nodeOf?_eq_some_iff.1 hFound
  unfold neighbors
  rw [h.index_of_get? hNode]
  refine ⟨_, rfl, pairwise_eraseReps (pairwise_sorted _), fun other => ?_⟩
  rw [mem_eraseReps, sorted, List.mem_mergeSort]
  simp only [links, h.linkOf?_eq_link_iff hNode, List.mem_filterMap, List.mem_filter,
    decide_eq_true_eq]
  constructor
  · rintro ⟨place, ⟨edge, ⟨hMem, hKind⟩, hPlace⟩, hOther⟩
    exact ⟨edge, hMem, hKind, place, hPlace, hOther⟩
  · rintro ⟨edge, hMem, hKind, place, hPlace, hOther⟩
    exact ⟨place, ⟨edge, ⟨hMem, hKind⟩, hPlace⟩, hOther⟩

/-- An identifier that is not in the graph is not found. -/
lemma Sound.neighbors_of_notMem {graph : CodeGraph} (h : graph.Sound) {id : String}
    (hId : id ∉ graph.ids) (kind : RelationKind) (direction : Direction) :
    graph.neighbors id kind direction = .error (.nodeNotFound id) := by
  unfold neighbors
  cases hIndex : graph.index.get? id with
  | none => rfl
  | some slot =>
    obtain ⟨node, hNode, rfl⟩ := (h.index_iff _ _).1 hIndex
    exact absurd (List.mem_map.2 ⟨node, Slab.mem_values.2 ⟨slot, hNode⟩, rfl⟩) hId

/-! ## Links along a run -/

/-- An edge says the same as long as its ends are called the same. -/
lemma linkAt?_eq {graph after : CodeGraph} (h : graph.Sound) {place : Nat}
    (hEdge : after.edges.get? place = graph.edges.get? place)
    (hIds : ∀ slot node, graph.nodes.get? slot = some node →
      ∃ found, after.nodes.get? slot = some found ∧ found.id = node.id) :
    after.linkAt? place = graph.linkAt? place := by
  unfold linkAt?
  rw [hEdge]
  cases hPlace : graph.edges.get? place with
  | none => rfl
  | some edge =>
    obtain ⟨link, hLink⟩ := Option.isSome_iff_exists.1 (h.isSome_linkOf? hPlace)
    rw [Option.bind_some, Option.bind_some, hLink]
    obtain ⟨source, target, hSource, hTarget, rfl⟩ := linkOf?_eq_some_iff.1 hLink
    obtain ⟨source', hSource', hSourceId⟩ := hIds _ _ hSource
    obtain ⟨target', hTarget', hTargetId⟩ := hIds _ _ hTarget
    exact linkOf?_eq_some_iff.2
      ⟨source', target', hSource', hTarget', by rw [hSourceId, hTargetId]⟩

/-- The edges that stay when a file is removed say what they said. -/
private lemma Drops.linkAt? {graph after : CodeGraph} {file : String} {places slots : List Nat}
    (h : Drops graph after file places slots) {place : Nat} (hPlace : place ∉ places) :
    after.linkAt? place = graph.linkAt? place := by
  refine (linkAt?_eq h.sound ?_ fun slot node hNode => ?_).symm
  · rw [h.edges, if_neg hPlace]
  · obtain ⟨old, hOld, rfl, -⟩ := (h.nodes slot node).1 hNode
    refine ⟨old, hOld, ?_⟩
    split <;> rfl

/-- The entities of a file leave what the edges say. -/
private lemma Settles.linkAt? {graph after : CodeGraph} {file : String} {entities : List Entity}
    {slots : List Nat} (h : Settles graph after file entities slots) (hSound : graph.Sound)
    (place : Nat) : after.linkAt? place = graph.linkAt? place := by
  refine linkAt?_eq hSound (by rw [h.edges]) fun slot node hNode => ?_
  obtain ⟨found, hFound, hId, -⟩ := h.exists_get? hSound hNode
  exact ⟨found, hFound, hId⟩

/-- A new edge leaves what the others say. -/
private lemma Connects.linkAt?_of_ne {graph after : CodeGraph} {relation : Relation} {slot : Nat}
    {edge : GraphEdge} (h : Connects graph after relation slot edge) (hSound : graph.Sound)
    {place : Nat} (hPlace : place ≠ slot) : after.linkAt? place = graph.linkAt? place := by
  refine linkAt?_eq hSound (by rw [h.edges, if_neg hPlace]) fun other node hNode => ?_
  exact ⟨node, h.kept other node hNode, rfl⟩

/-- A new edge says what its relation says. -/
private lemma Connects.linkAt?_self {graph after : CodeGraph} {relation : Relation} {slot : Nat}
    {edge : GraphEdge} (h : Connects graph after relation slot edge) :
    after.linkAt? slot = some relation.key := by
  obtain ⟨source, hSource, hSourceId⟩ := (h.sound.index_iff _ _).1 h.source
  obtain ⟨target, hTarget, hTargetId⟩ := (h.sound.index_iff _ _).1 h.target
  unfold linkAt?
  rw [h.edges, if_pos rfl]
  refine linkOf?_eq_some_iff.2 ⟨source, target, hSource, hTarget, ?_⟩
  rw [hSourceId, hTargetId, h.kind]
  rfl

/-- New edges leave what the others say. -/
private lemma Joins.linkAt? {graph after : CodeGraph} {relations : List Relation}
    {places : List Nat} (h : Joins graph after relations places) (hSound : graph.Sound)
    {place : Nat} (hPlace : place ∉ places) : after.linkAt? place = graph.linkAt? place := by
  refine linkAt?_eq hSound (h.edges place hPlace) fun slot node hNode => ?_
  exact ⟨node, h.kept slot node hNode, rfl⟩

/-- The edges in some slots say what relations say, in their order. -/
def Says (graph : CodeGraph) (places : List Nat) (relations : List Relation) : Prop :=
  places.map graph.linkAt? = relations.map fun relation => some relation.key

/-- A new edge says what its relation says, after the edges that were there. -/
private lemma Says.concat {graph after : CodeGraph} {places : List Nat} {relations : List Relation}
    {relation : Relation} {slot : Nat} {edge : GraphEdge} (h : graph.Says places relations)
    (hConnects : Connects graph after relation slot edge) (hSound : graph.Sound)
    (hNe : ∀ place ∈ places, place ≠ slot) :
    after.Says (places ++ [slot]) (relations ++ [relation]) := by
  unfold Says at h ⊢
  rw [List.map_append, List.map_append, ← h, List.map_singleton, List.map_singleton,
    hConnects.linkAt?_self]
  congr 1
  exact List.map_congr_left fun place hMem => hConnects.linkAt?_of_ne hSound (hNe place hMem)

/-- The edges of a file say what its relations say.

**Proof sketch.** Induction over the relations, together with the fact that the listed edges are in
the graph: a new edge takes a free slot, so none of theirs, and leaves what they say. -/
private lemma Sound.says_connectAll {graph : CodeGraph} (h : graph.Sound)
    (relations : List Relation) :
    (connectAll graph relations).2.Says (connectAll graph relations).1 relations := by
  -- the edges that are listed are in the graph, so a new edge takes another slot
  suffices hAll : (connectAll graph relations).2.Sound ∧
      (∀ place ∈ (connectAll graph relations).1,
        ((connectAll graph relations).2.edges.get? place).isSome) ∧
      (connectAll graph relations).2.Says (connectAll graph relations).1 relations from hAll.2.2
  refine connectAll_induct (P := fun after done places => after.Sound ∧
    (∀ place ∈ places, (after.edges.get? place).isSome) ∧ after.Says places done) relations ?_ ?_
  · rintro middle done places relation - ⟨hSound, hLive, hSays⟩
    obtain ⟨edge, hConnects⟩ := hSound.connects relation
    have hNe : ∀ place ∈ places, place ≠ (middle.connect relation).1 := by
      rintro place hMem rfl
      have hSome := hLive _ hMem
      rw [hConnects.fresh] at hSome
      cases hSome
    refine ⟨hConnects.sound, fun place hMem => ?_, hSays.concat hConnects hSound hNe⟩
    rw [hConnects.edges]
    split
    · rfl
    · next hOther =>
      exact hLive place ((List.mem_append.1 hMem).resolve_right fun hLast =>
        hOther (List.mem_singleton.1 hLast))
  · exact ⟨h, by simp, rfl⟩

/-- **What an ingestion does, with its links.** -/
theorem Sound.exists_settles_joins_says {graph : CodeGraph} (h : graph.Sound)
    {extraction : Extraction} {fileModule : Entity}
    (hModule : extraction.module? = some fileModule) :
    ∃ middle final slots places,
      Settles (graph.removeFile fileModule.path) middle fileModule.path extraction.entities slots ∧
      Joins middle final extraction.relations places ∧
      final.Says places extraction.relations ∧
      (graph.ingest extraction).1 = final.record fileModule.path slots places := by
  have hSettles := (h.removeFile_drops fileModule.path).sound.upsertAll_settles fileModule.path
    extraction.entities
  exact ⟨_, _, _, _, hSettles, hSettles.sound.connectAll_joins extraction.relations,
    hSettles.sound.says_connectAll extraction.relations, graph.ingest_eq_record hModule⟩

/-- The edges that are listed for a file say what the relations of its extraction say, in their
order, and no edges are listed for a file without an extraction. -/
def Tracks (graph : CodeGraph) (files : String → Option Extraction) : Prop :=
  ∀ file, (graph.fileEdges.get? file).map (List.map graph.linkAt?) =
    (files file).map fun extraction => extraction.relations.map fun relation => some relation.key

/-- What is listed for a file stays tracked if its edges say what they said. -/
lemma Tracks.of_linkAt? {graph after : CodeGraph} {files : String → Option Extraction}
    (h : graph.Tracks files) {file : String}
    (hListed : after.fileEdges.get? file = graph.fileEdges.get? file)
    (hSame : ∀ places, graph.fileEdges.get? file = some places →
      ∀ place ∈ places, after.linkAt? place = graph.linkAt? place) :
    (after.fileEdges.get? file).map (List.map after.linkAt?) =
      (files file).map fun extraction =>
        extraction.relations.map fun relation => some relation.key := by
  rw [← h file, hListed]
  cases hPlaces : graph.fileEdges.get? file with
  | none => rfl
  | some places => exact congrArg some (List.map_congr_left (hSame places hPlaces))

/-- Removal takes the file's edges and its extraction. -/
lemma Tracks.removeFile {graph : CodeGraph} {files : String → Option Extraction}
    (h : graph.Tracks files) (hConsistent : graph.Consistent) (file : String) :
    (graph.removeFile file).Tracks (revise files (.remove file)) := by
  have hDrops := hConsistent.toSound.removeFile_drops file
  intro other
  have hListed : (graph.removeFile file).fileEdges.get? other =
      if other = file then none else graph.fileEdges.get? other := by
    rw [hDrops.fileEdges, Table.get?_erase]
  rw [revise]
  by_cases hOther : other = file
  · rw [hListed, if_pos hOther, if_pos hOther]
    rfl
  · rw [if_neg hOther] at hListed ⊢
    refine h.of_linkAt? hListed fun places hPlaces place hMem => hDrops.linkAt? fun hGone => ?_
    -- the lists of two files have no edge in common
    obtain ⟨gone, hFile, hGone⟩ := mem_listed_iff.1 hGone
    exact hConsistent.edges_shared.disjoint other file places gone hPlaces hFile hOther hMem hGone

/-- Ingestion lists the edges of the file's extraction.

**Proof sketch.** The list of the file is the one that was filled, and its edges say what the
relations of the extraction say. The edges of other files are in the graph already, so they are none
of the new ones, and they still say the same. -/
private lemma Tracks.ingest {graph : CodeGraph} {files : String → Option Extraction}
    (h : graph.Tracks files) (hConsistent : graph.Consistent) (extraction : Extraction) :
    (graph.ingest extraction).1.Tracks (revise files (.ingest extraction)) := by
  cases hModule : extraction.module? with
  | none =>
    rw [graph.fst_ingest_of_none hModule, revise_ingest_of_none files hModule]
    exact h
  | some fileModule =>
    obtain ⟨middle, final, slots, places, hSettles, hJoins, hSays, hIngest⟩ :=
      hConsistent.toSound.exists_settles_joins_says hModule
    have hRemoved := hConsistent.removeFile fileModule.path
    have hBefore := h.removeFile hConsistent fileModule.path
    rw [hIngest]
    intro file
    rw [revise_ingest files hModule]
    by_cases hFile : file = fileModule.path
    · rw [if_pos hFile, get?_fileEdges_record, if_pos hFile]
      exact congrArg some hSays
    · rw [if_neg hFile]
      have hListed : (final.record fileModule.path slots places).fileEdges.get? file =
          (graph.removeFile fileModule.path).fileEdges.get? file := by
        rw [get?_fileEdges_record, if_neg hFile, hJoins.fileEdges, hSettles.fileEdges]
      have hFiles : revise files (.remove fileModule.path) file = files file := if_neg hFile
      rw [← hFiles]
      refine hBefore.of_linkAt? hListed fun others hOthers place hMem => ?_
      -- an edge of another file is in the graph already, so it is none of the new ones
      have hLive := (hRemoved.edges_shared.mem_iff place).2 ⟨file, others, hOthers, hMem⟩
      obtain ⟨edge, hEdge⟩ := Option.isSome_iff_exists.1 hLive
      rw [← hSettles.edges] at hEdge
      exact (hJoins.linkAt? hSettles.sound (hJoins.notMem_of_get? hEdge)).trans
        (hSettles.linkAt? hRemoved.toSound place)

/-- **The edges of each file follow its extraction.**

**Proof sketch.** Induction over the updates (`run_induct`), with one lemma for each kind of update.
-/
theorem tracks_run (updates : List Update) : (run updates).Tracks (current updates) :=
  run_induct updates (fun _ => rfl)
    (fun before extraction _ h => h.ingest (consistent_run before) extraction)
    (fun before file _ h => h.removeFile (consistent_run before) file)

/-! ## The extractions of all files -/

/-- What lists of slots share out is what a slab holds, list by list.

**Proof sketch.** The slots that hold a value and the slots in the lists are the same ones, and both
come without repetition. -/
private lemma SharedOut.values_perm {α : Type} {slab : Slab α} {lists : Table (List Nat)}
    (h : SharedOut slab lists) {names : List String} (hNodup : names.Nodup)
    (hNames : ∀ name, name ∈ names ↔ (lists.get? name).isSome) :
    slab.values.Perm
      (names.flatMap fun name => ((lists.get? name).getD []).filterMap slab.get?) := by
  set listed := fun name => (lists.get? name).getD [] with hListed
  have hGet : ∀ name ∈ names, lists.get? name = some (listed name) := by
    intro name hMem
    obtain ⟨places, hPlaces⟩ := Option.isSome_iff_exists.1 ((hNames name).1 hMem)
    simp [hListed, hPlaces]
  have hAll : (names.flatMap listed).Nodup := by
    rw [List.nodup_flatMap]
    refine ⟨fun name hMem => h.nodup name _ (hGet name hMem), ?_⟩
    refine hNodup.imp_of_mem fun hFirst hSecond hNe => ?_
    exact h.disjoint _ _ _ _ (hGet _ hFirst) (hGet _ hSecond) hNe
  have hSlots : (slab.live).Perm (names.flatMap listed) := by
    rw [List.perm_ext_iff_of_nodup slab.nodup_live hAll]
    intro place
    rw [Slab.mem_live, h.mem_iff, List.mem_flatMap]
    constructor
    · rintro ⟨name, places, hPlaces, hMem⟩
      exact ⟨name, (hNames name).2 (by rw [hPlaces]; rfl), mem_listed_iff.2 ⟨places, hPlaces, hMem⟩⟩
    · rintro ⟨name, -, hMem⟩
      exact ⟨name, mem_listed_iff.1 hMem⟩
  rw [slab.values_eq_filterMap_live, ← List.filterMap_flatMap]
  exact hSlots.filterMap slab.get?

/-- The file that a change ingests. -/
def Update.ingested? : Update → Option String
  | .ingest extraction => extraction.file?
  | .remove _ => none

/-- The files that have an extraction, each once. -/
def currentFiles (updates : List Update) : List String :=
  (updates.filterMap Update.ingested?).dedup.filter fun file => (current updates file).isSome

/-- The files are listed once. -/
lemma nodup_currentFiles (updates : List Update) : (currentFiles updates).Nodup :=
  (List.nodup_dedup _).filter _

/-- The files that have an extraction are listed. -/
lemma mem_currentFiles {updates : List Update} {file : String} :
    file ∈ currentFiles updates ↔ (current updates file).isSome := by
  unfold currentFiles
  rw [List.mem_filter, List.mem_dedup, List.mem_filterMap]
  refine ⟨And.right, fun h => ⟨?_, h⟩⟩
  obtain ⟨extraction, hCurrent⟩ := Option.isSome_iff_exists.1 h
  obtain ⟨hMem, hFile⟩ := mem_of_current hCurrent
  exact ⟨_, hMem, hFile⟩

/-- What the extractions of files state, file by file. -/
def stated (files : String → Option Extraction) (names : List String) : List Link :=
  names.flatMap fun file => ((files file).map fun extraction =>
    extraction.relations.map Relation.key).getD []

/-- What the extractions of files state is stated by one of them. -/
lemma mem_stated_iff {files : String → Option Extraction} {names : List String}
    (hNames : ∀ file, file ∈ names ↔ (files file).isSome) {link : Link} :
    link ∈ stated files names ↔ ∃ file extraction, files file = some extraction ∧
      ∃ relation ∈ extraction.relations, relation.key = link := by
  unfold stated
  rw [List.mem_flatMap]
  constructor
  · rintro ⟨file, hFile, hLink⟩
    obtain ⟨extraction, hExtraction⟩ := Option.isSome_iff_exists.1 ((hNames file).1 hFile)
    rw [hExtraction] at hLink
    exact ⟨file, extraction, hExtraction, List.mem_map.1 hLink⟩
  · rintro ⟨file, extraction, hExtraction, hRelation⟩
    refine ⟨file, (hNames file).2 (by rw [hExtraction]; rfl), ?_⟩
    rw [hExtraction]
    exact List.mem_map.2 hRelation

/-- The edges that are listed for a file say what its extraction states.

**Proof sketch.** By whether the file has a list of edges and an extraction; it has either both or
none of them. -/
private lemma Tracks.filterMap_linkAt? {graph : CodeGraph} {files : String → Option Extraction}
    (h : graph.Tracks files) (file : String) :
    ((graph.fileEdges.get? file).getD []).filterMap graph.linkAt? =
      ((files file).map fun extraction => extraction.relations.map Relation.key).getD [] := by
  have hFile := h file
  cases hPlaces : graph.fileEdges.get? file with
  | none =>
    rw [hPlaces] at hFile
    cases hExtraction : files file with
    | none => rfl
    | some extraction =>
      rw [hExtraction] at hFile
      cases hFile
  | some places =>
    rw [hPlaces] at hFile
    cases hExtraction : files file with
    | none =>
      rw [hExtraction] at hFile
      cases hFile
    | some extraction =>
      rw [hExtraction] at hFile
      have hLinks := congrArg (List.filterMap id) (Option.some.inj hFile)
      rw [List.filterMap_map, List.filterMap_map] at hLinks
      rw [Option.getD_some, Option.map_some, Option.getD_some, ← List.filterMap_eq_map]
      exact hLinks

/-- The links of a graph whose edges are tracked are what the extractions state. -/
lemma Tracks.links_perm {graph : CodeGraph} {files : String → Option Extraction}
    (h : graph.Tracks files) (hConsistent : graph.Consistent) {names : List String}
    (hNodup : names.Nodup) (hNames : ∀ file, file ∈ names ↔ (files file).isSome) :
    graph.links.Perm (stated files names) := by
  have hListed : ∀ file, file ∈ names ↔ (graph.fileEdges.get? file).isSome := by
    intro file
    have hSome := congrArg Option.isSome (h file)
    rw [Option.isSome_map, Option.isSome_map] at hSome
    rw [hNames, hSome]
  have hLinks := (hConsistent.edges_shared.values_perm hNodup hListed).filterMap graph.linkOf?
  rw [List.filterMap_flatMap] at hLinks
  have hStated : stated files names = names.flatMap fun file =>
      (((graph.fileEdges.get? file).getD []).filterMap graph.edges.get?).filterMap
        graph.linkOf? := by
    refine List.flatMap_congr fun file _ => ?_
    rw [← h.filterMap_linkAt?, List.filterMap_filterMap]
    rfl
  rw [hStated]
  exact hLinks

/-- A file is known iff it has an extraction. -/
lemma Tracks.knows_eq {graph : CodeGraph} {files : String → Option Extraction}
    (h : graph.Tracks files) (hConsistent : graph.Consistent) (file : String) :
    graph.knows file = (files file).isSome := by
  have hSame := hConsistent.same_files file
  have hFile := congrArg Option.isSome (h file)
  rw [Option.isSome_map, Option.isSome_map] at hFile
  unfold knows
  rw [← hFile, Bool.eq_iff_iff.2 hSame, Bool.or_self]

/-- A graph answers by what the extractions of files state: its edges are their relations, each as
often as it is stated, the files are those that it knows, and a query about neighbours lists what
these relations say of an identifier in the graph and finds no other identifier. -/
structure Mirrors (graph : CodeGraph) (files : String → Option Extraction)
    (names : List String) : Prop where
  names_nodup : names.Nodup
  mem_names : ∀ file, file ∈ names ↔ (files file).isSome
  edgeCount : graph.edgeCount = graph.links.length
  links : graph.links.Perm (stated files names)
  knows : ∀ file, graph.knows file = (files file).isSome
  callees : ∀ id ∈ graph.ids, Lists (graph.callees id) fun other =>
    (id, other, .calls) ∈ stated files names
  callers : ∀ id ∈ graph.ids, Lists (graph.callers id) fun other =>
    (other, id, .calls) ∈ stated files names
  children : ∀ id ∈ graph.ids, Lists (graph.children id) fun other =>
    (id, other, .contains) ∈ stated files names
  calls_iff : ∀ id other, (∃ listed, graph.callees id = .ok listed ∧ other ∈ listed) ↔
    ∃ listed, graph.callers other = .ok listed ∧ id ∈ listed
  not_found : ∀ id, id ∉ graph.ids → graph.callees id = .error (.nodeNotFound id) ∧
    graph.callers id = .error (.nodeNotFound id) ∧ graph.children id = .error (.nodeNotFound id)

/-- A neighbour is listed iff there is a link to it. -/
private lemma Sound.exists_neighbors_iff {graph : CodeGraph} (h : graph.Sound) (id other : String)
    (kind : RelationKind) (direction : Direction) :
    (∃ listed, graph.neighbors id kind direction = .ok listed ∧ other ∈ listed) ↔
      direction.link id other kind ∈ graph.links := by
  by_cases hId : id ∈ graph.ids
  · obtain ⟨listed, hListed, -, hMem⟩ := h.lists_neighbors hId kind direction
    rw [hListed]
    refine ⟨fun ⟨found, hFound, hOther⟩ => ?_, fun hLink => ⟨listed, rfl, (hMem other).2 hLink⟩⟩
    cases hFound
    exact (hMem other).1 hOther
  · rw [h.neighbors_of_notMem hId]
    refine ⟨fun ⟨found, hFound, _⟩ => absurd hFound (by simp), fun hLink => absurd ?_ hId⟩
    cases direction with
    | outgoing => exact (ends_mem_ids hLink).1
    | incoming => exact (ends_mem_ids hLink).2

/-- **Graphs mirror the extractions that count.** However files are ingested and removed, the graph
answers by the last extraction of each file that was not removed since.

**Proof sketch.** The edges that are listed for a file say what its extraction states, by
`tracks_run`, and the lists share out all edges. So the links are what is stated, and neighbours
are read off the links. -/
theorem mirrors_run (updates : List Update) :
    Mirrors (run updates) (current updates) (currentFiles updates) := by
  have hConsistent := consistent_run updates
  have hSound := hConsistent.toSound
  have hTracks := tracks_run updates
  have hLinks := hTracks.links_perm hConsistent (nodup_currentFiles updates) fun _ =>
    mem_currentFiles
  have hLists : ∀ id ∈ (run updates).ids, ∀ (kind : RelationKind) (direction : Direction),
      Lists ((run updates).neighbors id kind direction) fun other =>
        direction.link id other kind ∈ stated (current updates) (currentFiles updates) := by
    intro id hId kind direction
    obtain ⟨listed, hListed, hOrder, hMem⟩ := hSound.lists_neighbors hId kind direction
    exact ⟨listed, hListed, hOrder, fun other => (hMem other).trans hLinks.mem_iff⟩
  refine ⟨nodup_currentFiles updates, fun _ => mem_currentFiles, hSound.length_links.symm, hLinks,
    hTracks.knows_eq hConsistent, fun id hId => hLists id hId .calls .outgoing,
    fun id hId => hLists id hId .calls .incoming,
    fun id hId => hLists id hId .contains .outgoing, fun id other => ?_, fun id hId => ?_⟩
  · exact (hSound.exists_neighbors_iff id other .calls .outgoing).trans
      (hSound.exists_neighbors_iff other id .calls .incoming).symm
  · exact ⟨hSound.neighbors_of_notMem hId _ _, hSound.neighbors_of_notMem hId _ _,
      hSound.neighbors_of_notMem hId _ _⟩

/-! ## Graphs with the same links -/

/-- **Nodes and links decide all answers.** Two graphs that find the same node under each identifier
and have the same links answer every query alike, whatever slots they use.

**Proof sketch.** Both graphs know the same identifiers. Neighbours are listed by the links alone
(`Sound.lists_neighbors`), and unresolved identifiers by the nodes alone, in increasing order in
both graphs. The sizes are those of the lists of identifiers and of links. -/
theorem SameAnswers.of_nodeOf? {graph other : CodeGraph} (h : graph.Sound) (h' : other.Sound)
    (hNodes : ∀ id, graph.nodeOf? id = other.nodeOf? id) (hLinks : graph.links.Perm other.links) :
    SameAnswers graph other := by
  have hIds : ∀ id, id ∈ graph.ids ↔ id ∈ other.ids := by
    intro id
    rw [h.mem_ids_iff, h'.mem_ids_iff, hNodes]
  have hNeighbors : ∀ id kind direction,
      graph.neighbors id kind direction = other.neighbors id kind direction := by
    intro id kind direction
    by_cases hId : id ∈ graph.ids
    · exact (h.lists_neighbors hId kind direction).eq
        (h'.lists_neighbors ((hIds id).1 hId) kind direction) fun _ => hLinks.mem_iff
    · rw [h.neighbors_of_notMem hId, h'.neighbors_of_notMem (mt (hIds id).2 hId)]
  refine ⟨fun id => ?_, fun id => hNeighbors id _ _, fun id => hNeighbors id _ _,
    fun id => hNeighbors id _ _, ?_, ?_, ?_⟩
  · rw [entity?_eq_bind, entity?_eq_bind, hNodes]
  · refine h.pairwise_unresolved.eq_of_mem_iff h'.pairwise_unresolved fun id => ?_
    rw [h.mem_unresolved_iff, h'.mem_unresolved_iff, hNodes]
  · have hLength := ((List.perm_ext_iff_of_nodup h.nodup_ids h'.nodup_ids).2 hIds).length_eq
    rwa [List.length_map, List.length_map] at hLength
  · rw [← h.length_links, ← h'.length_links, hLinks.length_eq]

end CodeGraph

end CodeAtlas
