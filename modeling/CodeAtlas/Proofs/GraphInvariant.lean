import Mathlib.Data.List.Induction
import Mathlib.Data.List.Nodup
import CodeAtlas.Proofs.GraphSteps

/-!
# The invariant of code graphs

However files are ingested and removed, the parts of a graph agree with each other: the index and
the nodes, the edges and the lists of the files that state them, the owners of nodes and the lists
of the files that declare them. Slots are used again, and a file may remember the slot of a node
that is no longer its own, so the lists of nodes are only known to hold at least what is owned.

## Main definitions

* `CodeAtlas.CodeGraph.Update`, `CodeAtlas.CodeGraph.run` — changes of a graph, and the graph after
  several of them.
* `CodeAtlas.CodeGraph.SharedOut` — lists of slots share out what a slab holds.
* `CodeAtlas.CodeGraph.Consistent` — the invariant.
* `CodeAtlas.CodeGraph.record` — a graph whose lists for one file are still being filled.

## Main results

* `CodeAtlas.CodeGraph.upsertAll_induct`, `connectAll_induct` — what each step of an ingestion
  keeps, the ingestion keeps.
* `CodeAtlas.CodeGraph.Consistent.removeFile`, `Consistent.ingest` — every change keeps the
  invariant.
* `CodeAtlas.CodeGraph.consistent_run` — every graph that changes lead to is consistent.
-/

set_option autoImplicit false

namespace CodeAtlas

namespace CodeGraph

/-! ## Runs -/

/-- A change of a graph. -/
inductive Update where
  /-- Replaces what a file contributed. -/
  | ingest (extraction : Extraction)
  /-- Removes what a file contributed. -/
  | remove (file : String)

/-- The graph after a change. -/
def apply (graph : CodeGraph) : Update → CodeGraph
  | .ingest extraction => (graph.ingest extraction).1
  | .remove file => graph.removeFile file

/-- The graph that changes lead to, from the empty one. -/
def run (updates : List Update) : CodeGraph := updates.foldl apply {}

/-- Lists of slots under names share out the slots that hold a value: each of these is in one list,
and there once. -/
structure SharedOut {α : Type} (slab : Slab α) (lists : Table (List Nat)) : Prop where
  nodup : ∀ name places, lists.get? name = some places → places.Nodup
  disjoint : ∀ name other places others, lists.get? name = some places →
    lists.get? other = some others → name ≠ other → places.Disjoint others
  mem_iff : ∀ place, (slab.get? place).isSome ↔
    ∃ name places, lists.get? name = some places ∧ place ∈ places

/-- The invariant: the index is one-to-one between identifiers and nodes, the files' lists of edges
share out the edges, nodes and edges are listed for the same files, what a file owns is declared
and listed for it, and a placeholder has no owner and an edge. -/
structure Consistent (graph : CodeGraph) : Prop extends Sound graph where
  edges_shared : SharedOut graph.edges graph.fileEdges
  same_files : ∀ file, (graph.fileNodes.get? file).isSome ↔ (graph.fileEdges.get? file).isSome
  owned : ∀ slot node file, graph.nodes.get? slot = some node → node.owner = some file →
    node.entity.isSome ∧ ∃ slots, graph.fileNodes.get? file = some slots ∧ slot ∈ slots
  placeholder : ∀ slot node, graph.nodes.get? slot = some node → node.entity = none →
    node.owner = none ∧ graph.Touched slot

/-! ## Lists of slots -/

/-- Nothing is shared out without lists. -/
private lemma sharedOut_empty {α : Type} : SharedOut ({} : Slab α) {} where
  nodup name places h := by cases h
  disjoint name other places others h := by cases h
  mem_iff place := by
    constructor
    · intro h
      simp [Slab.get?] at h
    · rintro ⟨name, places, h, -⟩
      cases h

/-- A slot is listed under a name iff there is a list and it is in the list. -/
lemma mem_listed_iff {lists : Table (List Nat)} {name : String} {place : Nat} :
    place ∈ (lists.get? name).getD [] ↔
      ∃ places, lists.get? name = some places ∧ place ∈ places := by
  cases lists.get? name <;> simp

namespace SharedOut

variable {α : Type} {slab after : Slab α} {lists : Table (List Nat)} {name : String}

/-- A list may go together with what is in its slots.

**Proof sketch.** The other lists are as before. A slot of one of them is in no other list, so it is
not among those that go; a slot that is still filled was in a list before, and in another one. -/
private lemma erase (h : SharedOut slab lists)
    (hAfter : ∀ place, after.get? place =
      if place ∈ (lists.get? name).getD [] then none else slab.get? place) :
    SharedOut after (lists.erase name) := by
  have hOther : ∀ {other places}, (lists.erase name).get? other = some places →
      other ≠ name ∧ lists.get? other = some places := by
    intro other places hPlaces
    rw [Table.get?_erase] at hPlaces
    split at hPlaces
    · cases hPlaces
    · next hNe => exact ⟨hNe, hPlaces⟩
  refine ⟨?_, ?_, fun place => ⟨fun hLive => ?_, ?_⟩⟩
  · intro other places hPlaces
    exact h.nodup other places (hOther hPlaces).2
  · intro first second places others hPlaces hOthers
    exact h.disjoint first second places others (hOther hPlaces).2 (hOther hOthers).2
  · rw [hAfter] at hLive
    split at hLive
    · cases hLive
    · next hStays =>
      obtain ⟨other, places, hPlaces, hMem⟩ := (h.mem_iff place).1 hLive
      have hNe : other ≠ name := by
        rintro rfl
        exact hStays (by rw [hPlaces]; exact hMem)
      exact ⟨other, places, by rw [Table.get?_erase, if_neg hNe, hPlaces], hMem⟩
  · rintro ⟨other, places, hPlaces, hMem⟩
    obtain ⟨hNe, hPlaces⟩ := hOther hPlaces
    have hStays : place ∉ (lists.get? name).getD [] := by
      intro hGone
      obtain ⟨gone, hName, hGone⟩ := mem_listed_iff.1 hGone
      exact h.disjoint other name places gone hPlaces hName hNe hMem hGone
    rw [hAfter, if_neg hStays]
    exact (h.mem_iff place).2 ⟨other, places, hPlaces, hMem⟩

/-- A name without a list may be given an empty one. -/
private lemma insert_nil (h : SharedOut slab lists) (hNone : lists.get? name = none) :
    SharedOut slab (lists.insert name []) := by
  have hOther : ∀ {other places}, lists.get? other = some places → other ≠ name := by
    rintro other places hPlaces rfl
    cases hNone.symm.trans hPlaces
  refine ⟨?_, ?_, fun place => (h.mem_iff place).trans ⟨?_, ?_⟩⟩
  · intro other places hPlaces
    rcases Table.get?_insert_eq_some_iff.1 hPlaces with ⟨-, rfl⟩ | ⟨-, hPlaces⟩
    · exact List.nodup_nil
    · exact h.nodup other places hPlaces
  · intro first second places others hPlaces hOthers hNe
    rcases Table.get?_insert_eq_some_iff.1 hPlaces with ⟨-, rfl⟩ | ⟨-, hPlaces⟩
    · exact List.disjoint_nil_left _
    · rcases Table.get?_insert_eq_some_iff.1 hOthers with ⟨-, rfl⟩ | ⟨-, hOthers⟩
      · exact List.disjoint_nil_right _
      · exact h.disjoint first second places others hPlaces hOthers hNe
  · rintro ⟨other, places, hPlaces, hMem⟩
    exact ⟨other, places, Table.get?_insert_eq_some_iff.2 (Or.inr ⟨hOther hPlaces, hPlaces⟩), hMem⟩
  · rintro ⟨other, places, hPlaces, hMem⟩
    rcases Table.get?_insert_eq_some_iff.1 hPlaces with ⟨-, rfl⟩ | ⟨-, hPlaces⟩
    · cases hMem
    · exact ⟨other, places, hPlaces, hMem⟩

section Push

variable {places : List Nat} {place : Nat}

/-- A free slot is in no list. -/
lemma notMem_of_free (h : SharedOut slab lists) (hFree : slab.get? place = none)
    (hListed : lists.get? name = some places) : place ∉ places := by
  intro hMem
  have hLive := (h.mem_iff place).2 ⟨name, places, hListed, hMem⟩
  rw [hFree] at hLive
  cases hLive

/-- A list to which a free slot is added is still apart from the others. -/
private lemma disjoint_concat (h : SharedOut slab (lists.insert name places))
    (hFree : slab.get? place = none) {other : String} {listed : List Nat} (hNe : other ≠ name)
    (hListed : lists.get? other = some listed) : (places ++ [place]).Disjoint listed := by
  have hBefore : (lists.insert name places).get? other = some listed :=
    Table.get?_insert_eq_some_iff.2 (Or.inr ⟨hNe, hListed⟩)
  rw [List.disjoint_append_left, List.singleton_disjoint]
  exact ⟨h.disjoint name other places listed (lists.get?_insert_self name places) hBefore hNe.symm,
    h.notMem_of_free hFree hBefore⟩

/-- What is listed when a slot is added to a list: the slot and what was listed before. -/
private lemma exists_mem_insert_concat_iff {found : Nat} :
    (∃ other listed, (lists.insert name (places ++ [place])).get? other = some listed ∧
      found ∈ listed) ↔
    found = place ∨
      ∃ other listed, (lists.insert name places).get? other = some listed ∧ found ∈ listed := by
  constructor
  · rintro ⟨other, listed, hListed, hMem⟩
    rcases Table.get?_insert_eq_some_iff.1 hListed with ⟨rfl, rfl⟩ | hListed
    · rcases List.mem_append.1 hMem with hMem | hMem
      · exact Or.inr ⟨other, places, lists.get?_insert_self other places, hMem⟩
      · exact Or.inl (List.mem_singleton.1 hMem)
    · exact Or.inr ⟨other, listed, Table.get?_insert_eq_some_iff.2 (Or.inr hListed), hMem⟩
  · have hSelf := lists.get?_insert_self name (places ++ [place])
    rintro (rfl | ⟨other, listed, hListed, hMem⟩)
    · exact ⟨name, _, hSelf, List.mem_append_right _ (List.mem_singleton_self _)⟩
    · rcases Table.get?_insert_eq_some_iff.1 hListed with ⟨rfl, rfl⟩ | hListed
      · exact ⟨other, _, hSelf, List.mem_append_left _ hMem⟩
      · exact ⟨other, listed, Table.get?_insert_eq_some_iff.2 (Or.inr hListed), hMem⟩

/-- A free slot may be filled and added to a list. -/
private lemma push {value : α} (h : SharedOut slab (lists.insert name places))
    (hFree : slab.get? place = none)
    (hAfter : ∀ other, after.get? other = if other = place then some value else slab.get? other) :
    SharedOut after (lists.insert name (places ++ [place])) := by
  have hSelf := lists.get?_insert_self name places
  refine ⟨?_, ?_, fun other => ?_⟩
  · intro other listed hListed
    rcases Table.get?_insert_eq_some_iff.1 hListed with ⟨-, rfl⟩ | hListed
    · rw [← List.concat_eq_append]
      exact List.Nodup.concat (h.notMem_of_free hFree hSelf) (h.nodup name places hSelf)
    · exact h.nodup other listed (Table.get?_insert_eq_some_iff.2 (Or.inr hListed))
  · intro first second listed listed' hListed hListed' hNe
    rcases Table.get?_insert_eq_some_iff.1 hListed with ⟨rfl, rfl⟩ | hFirst
    · rcases Table.get?_insert_eq_some_iff.1 hListed' with ⟨rfl, -⟩ | ⟨hSecond, hListed'⟩
      · exact absurd rfl hNe
      · exact h.disjoint_concat hFree hSecond hListed'
    · rcases Table.get?_insert_eq_some_iff.1 hListed' with ⟨rfl, rfl⟩ | hSecond
      · exact List.disjoint_symm (h.disjoint_concat hFree hFirst.1 hFirst.2)
      · exact h.disjoint first second listed listed'
          (Table.get?_insert_eq_some_iff.2 (Or.inr hFirst))
          (Table.get?_insert_eq_some_iff.2 (Or.inr hSecond)) hNe
  · rw [hAfter, exists_mem_insert_concat_iff, ← h.mem_iff]
    by_cases hPlace : other = place <;> simp [hPlace]

end Push

end SharedOut

/-- The empty graph is consistent. -/
private lemma consistent_empty : Consistent {} where
  toSound := sound_empty
  edges_shared := sharedOut_empty
  same_files file := Iff.rfl
  owned slot node file h := by simp [Slab.get?] at h
  placeholder slot node h := by simp [Slab.get?] at h

/-! ## Removal -/

/-- **Removal keeps the invariant.**

**Proof sketch.** What is listed for other files is not among the edges that go. A node that stays
and has lost its entity or an edge was pruned unless something holds it, and a placeholder among
the rest still has the edge that it had. -/
theorem Consistent.removeFile {graph : CodeGraph} (h : graph.Consistent) (file : String) :
    (graph.removeFile file).Consistent := by
  have hDrops := h.toSound.removeFile_drops file
  have hFileEdges : ∀ other, (graph.removeFile file).fileEdges.get? other =
      if other = file then none else graph.fileEdges.get? other := by
    intro other
    rw [hDrops.fileEdges, Table.get?_erase]
  have hFileNodes : ∀ other, (graph.removeFile file).fileNodes.get? other =
      if other = file then none else graph.fileNodes.get? other := by
    intro other
    rw [hDrops.fileNodes, Table.get?_erase]
  refine ⟨hDrops.sound, ?_, ?_, ?_, ?_⟩
  · rw [hDrops.fileEdges]
    exact h.edges_shared.erase hDrops.edges
  · intro other
    rw [hFileNodes, hFileEdges]
    split
    · rfl
    · exact h.same_files other
  · intro slot node other hNode hOwner
    obtain ⟨old, hOld, hEq, -⟩ := (hDrops.nodes slot node).1 hNode
    split at hEq
    · subst hEq
      cases hOwner
    · next hMem =>
      subst hEq
      obtain ⟨hEntity, slots, hSlots, hListed⟩ := h.owned slot node other hOld hOwner
      have hNe : other ≠ file := by
        rintro rfl
        exact hMem (by rw [hSlots]; exact hListed)
      exact ⟨hEntity, slots, by rw [hFileNodes, if_neg hNe, hSlots], hListed⟩
  · intro slot node hNode hEntity
    obtain ⟨old, hOld, hEq, -⟩ := (hDrops.nodes slot node).1 hNode
    have hOwner : node.owner = none := by
      split at hEq
      · rw [hEq]
        rfl
      · subst hEq
        exact (h.placeholder slot node hOld hEntity).1
    exact ⟨hOwner, hDrops.touched_of_unowned hNode hOwner
      fun hBefore => (h.placeholder slot node hBefore hEntity).2⟩

/-! ## Ingestion -/

/-- The graph with lists of slots for one file. -/
def record (graph : CodeGraph) (file : String) (slots places : List Nat) : CodeGraph :=
  { graph with
    fileNodes := graph.fileNodes.insert file slots
    fileEdges := graph.fileEdges.insert file places }

/-- The nodes that are listed for each file. -/
lemma get?_fileNodes_record (graph : CodeGraph) (file other : String) (slots places : List Nat) :
    (graph.record file slots places).fileNodes.get? other =
      if other = file then some slots else graph.fileNodes.get? other :=
  Table.get?_insert _ _ _ _

/-- The edges that are listed for each file. -/
lemma get?_fileEdges_record (graph : CodeGraph) (file other : String) (slots places : List Nat) :
    (graph.record file slots places).fileEdges.get? other =
      if other = file then some places else graph.fileEdges.get? other :=
  Table.get?_insert _ _ _ _

/-- Nodes and edges are listed for the same files whatever is listed for one file. -/
lemma same_files_record {graph after : CodeGraph} {file : String}
    {slots places slots' places' : List Nat}
    (h : ∀ other, ((graph.record file slots places).fileNodes.get? other).isSome ↔
      ((graph.record file slots places).fileEdges.get? other).isSome)
    (hNodes : after.fileNodes = graph.fileNodes) (hEdges : after.fileEdges = graph.fileEdges)
    (other : String) : ((after.record file slots' places').fileNodes.get? other).isSome ↔
      ((after.record file slots' places').fileEdges.get? other).isSome := by
  have hSame := h other
  rw [get?_fileNodes_record, get?_fileEdges_record] at hSame ⊢
  rw [hNodes, hEdges]
  split
  · exact ⟨fun _ => rfl, fun _ => rfl⟩
  · next hNe => rwa [if_neg hNe, if_neg hNe] at hSame

/-- An extraction without entities changes nothing. -/
lemma fst_ingest_of_none (graph : CodeGraph) {extraction : Extraction}
    (h : extraction.module? = none) : (graph.ingest extraction).1 = graph := by
  unfold ingest
  rw [h]

/-- An ingestion ends with a record of what it put into the graph. -/
lemma ingest_eq_record (graph : CodeGraph) {extraction : Extraction} {fileModule : Entity}
    (hModule : extraction.module? = some fileModule) :
    (graph.ingest extraction).1 =
      let upserted := upsertAll fileModule.path (graph.removeFile fileModule.path)
        extraction.entities
      let connected := connectAll upserted.2 extraction.relations
      connected.2.record fileModule.path upserted.1 connected.1 := by
  unfold ingest
  rw [hModule]
  rfl

/-- **Induction over the entities of a file.** What holds of the graph, the entities put into it and
the slots listed so far holds at the end, if each entity keeps it.

**Proof sketch.** Induction on the entities ahead, for every graph: those that have been put are in
front of them in the list, and their slots in front of those still to be listed. -/
theorem upsertAll_induct {file : String} {P : CodeGraph → List Entity → List Nat → Prop}
    (entities : List Entity)
    (hOwned : ∀ graph done slots entity, done ++ [entity] <+: entities → entity.path = file →
      P graph done slots → P (graph.upsert entity (some file)).2 (done ++ [entity])
        (slots ++ [(graph.upsert entity (some file)).1]))
    (hForeign : ∀ graph done slots entity, done ++ [entity] <+: entities → entity.path ≠ file →
      P graph done slots → P (graph.upsert entity none).2 (done ++ [entity]) slots)
    {graph : CodeGraph} (hStart : P graph [] []) :
    P (upsertAll file graph entities).2 entities (upsertAll file graph entities).1 := by
  suffices hRest : ∀ (rest done : List Entity) (graph : CodeGraph) (slots : List Nat),
      done ++ rest = entities → P graph done slots →
      P (upsertAll file graph rest).2 entities (slots ++ (upsertAll file graph rest).1) by
    exact hRest entities [] graph [] rfl hStart
  intro rest
  induction rest with
  | nil =>
    intro done graph slots hDone hP
    rw [List.append_nil] at hDone
    rw [upsertAll, List.append_nil, ← hDone]
    exact hP
  | cons entity rest ih =>
    intro done graph slots hDone hP
    have hNext : done ++ [entity] ++ rest = entities := by rw [← hDone]; simp
    rw [upsertAll]
    by_cases hPath : entity.path = file
    · rw [if_pos hPath]
      have hStep := ih _ _ _ hNext (hOwned graph done slots entity ⟨rest, hNext⟩ hPath hP)
      rw [List.append_assoc, List.singleton_append] at hStep
      exact hStep
    · rw [if_neg hPath]
      exact ih _ _ _ hNext (hForeign graph done slots entity ⟨rest, hNext⟩ hPath hP)

/-- **Induction over the relations of a file.** What holds of the graph, the relations put into it
and the slots listed so far holds at the end, if each relation keeps it.

**Proof sketch.** Induction on the relations ahead, as for entities. -/
theorem connectAll_induct {P : CodeGraph → List Relation → List Nat → Prop}
    (relations : List Relation)
    (hStep : ∀ graph done places relation, done ++ [relation] <+: relations →
      P graph done places → P (graph.connect relation).2 (done ++ [relation])
        (places ++ [(graph.connect relation).1]))
    {graph : CodeGraph} (hStart : P graph [] []) :
    P (connectAll graph relations).2 relations (connectAll graph relations).1 := by
  suffices hRest : ∀ (rest done : List Relation) (graph : CodeGraph) (places : List Nat),
      done ++ rest = relations → P graph done places →
      P (connectAll graph rest).2 relations (places ++ (connectAll graph rest).1) by
    exact hRest relations [] graph [] rfl hStart
  intro rest
  induction rest with
  | nil =>
    intro done graph places hDone hP
    rw [List.append_nil] at hDone
    rw [connectAll, List.append_nil, ← hDone]
    exact hP
  | cons relation rest ih =>
    intro done graph places hDone hP
    have hNext : done ++ [relation] ++ rest = relations := by rw [← hDone]; simp
    rw [connectAll]
    have hTail := ih _ _ _ hNext (hStep graph done places relation ⟨rest, hNext⟩ hP)
    rw [List.append_assoc, List.singleton_append] at hTail
    exact hTail

namespace Consistent

/-- A file that is not known may be given empty lists. -/
private lemma record_nil {graph : CodeGraph} (h : graph.Consistent) {file : String}
    (hNodes : graph.fileNodes.get? file = none) (hEdges : graph.fileEdges.get? file = none) :
    (graph.record file [] []).Consistent := by
  refine ⟨⟨h.nodes_wf, h.edges_wf, h.index_iff, h.ends_live⟩, ?_, ?_, ?_, h.placeholder⟩
  · exact h.edges_shared.insert_nil hEdges
  · intro other
    rw [get?_fileNodes_record, get?_fileEdges_record]
    split
    · rfl
    · exact h.same_files other
  · intro slot node other hNode hOwner
    obtain ⟨hEntity, slots, hSlots, hListed⟩ := h.owned slot node other hNode hOwner
    have hNe : other ≠ file := by
      rintro rfl
      rw [hNodes] at hSlots
      cases hSlots
    exact ⟨hEntity, slots, by rw [get?_fileNodes_record, if_neg hNe, hSlots], hListed⟩

/-- A declared node may be put, if it is listed for the file when this becomes its owner.

**Proof sketch.** The edges and their lists stay. The node that is put is declared, and whoever owns
it has it listed, or owned it before; every other node is as before. So no declared node is left out
of a list, and no placeholder is new. -/
private lemma puts {graph after : CodeGraph} {file : String} {slots more places : List Nat}
    {slot : Nat} {node : GraphNode} (h : (graph.record file slots places).Consistent)
    (hPuts : Puts graph after slot node) (hEntity : node.entity.isSome) (hMore : slots ⊆ more)
    (hOwner : ∀ owner, node.owner = some owner → owner = file ∧ slot ∈ more ∨
      ∃ old, graph.nodes.get? slot = some old ∧ old.owner = some owner) :
    (after.record file more places).Consistent := by
  -- what was listed for a file is still listed for it
  have hListed : ∀ other listed place, (graph.record file slots places).fileNodes.get? other =
      some listed → place ∈ listed →
      ∃ listed', (after.record file more places).fileNodes.get? other = some listed' ∧
        place ∈ listed' := by
    intro other listed place hGet hMem
    rw [get?_fileNodes_record] at hGet ⊢
    split at hGet
    · next hEq =>
      cases hGet
      exact ⟨more, if_pos hEq, hMore hMem⟩
    · next hNe => exact ⟨listed, by rw [if_neg hNe, hPuts.fileNodes, hGet], hMem⟩
  have hSound := hPuts.sound
  refine ⟨⟨hSound.nodes_wf, hSound.edges_wf, hSound.index_iff, hSound.ends_live⟩, ?_, ?_, ?_, ?_⟩
  · show SharedOut after.edges (after.fileEdges.insert file places)
    rw [hPuts.edges, hPuts.fileEdges]
    exact h.edges_shared
  · exact same_files_record h.same_files hPuts.fileNodes hPuts.fileEdges
  · intro other found owner hFound hOwned
    by_cases hOther : other = slot
    · subst hOther
      cases hFound.symm.trans hPuts.get?_self
      refine ⟨hEntity, ?_⟩
      rcases hOwner owner hOwned with ⟨rfl, hMem⟩ | ⟨old, hOld, hOldOwner⟩
      · exact ⟨more, by rw [get?_fileNodes_record, if_pos rfl], hMem⟩
      · obtain ⟨-, listed, hGet, hMem⟩ := h.owned other old owner hOld hOldOwner
        exact hListed owner listed other hGet hMem
    · have hBefore := (hPuts.get?_of_ne hOther).symm.trans hFound
      obtain ⟨hSome, listed, hGet, hMem⟩ := h.owned other found owner hBefore hOwned
      exact ⟨hSome, hListed owner listed other hGet hMem⟩
  · intro other found hFound hNone
    by_cases hOther : other = slot
    · subst hOther
      cases hFound.symm.trans hPuts.get?_self
      rw [hNone] at hEntity
      cases hEntity
    · have hBefore := (hPuts.get?_of_ne hOther).symm.trans hFound
      obtain ⟨hFree, hTouched⟩ := h.placeholder other found hBefore hNone
      exact ⟨hFree, (touched_congr hPuts.edges other).2 hTouched⟩

/-- An edge may be added, if it is listed for the file.

**Proof sketch.** The new edge takes a free slot, which joins the list of the file
(`SharedOut.push`). A node that is new has no owner and is an end of the edge; every other node
keeps its edges. -/
private lemma connects {graph after : CodeGraph} {file : String} {slots places : List Nat}
    {relation : Relation} {place : Nat} {edge : GraphEdge}
    (h : (graph.record file slots places).Consistent)
    (hConnects : Connects graph after relation place edge) :
    (after.record file slots (places ++ [place])).Consistent := by
  have hSound := hConnects.sound
  refine ⟨⟨hSound.nodes_wf, hSound.edges_wf, hSound.index_iff, hSound.ends_live⟩, ?_, ?_, ?_, ?_⟩
  · show SharedOut after.edges (after.fileEdges.insert file (places ++ [place]))
    rw [hConnects.fileEdges]
    exact h.edges_shared.push hConnects.fresh hConnects.edges
  · exact same_files_record h.same_files hConnects.fileNodes hConnects.fileEdges
  · intro slot node owner hNode hOwner
    rcases hConnects.new slot node hNode with hBefore | ⟨-, hNew⟩
    · obtain ⟨hSome, listed, hGet, hMem⟩ := h.owned slot node owner hBefore hOwner
      refine ⟨hSome, listed, ?_, hMem⟩
      rw [get?_fileNodes_record] at hGet ⊢
      rw [hConnects.fileNodes, hGet]
    · rw [hNew] at hOwner
      cases hOwner
  · intro slot node hNode hNone
    rcases hConnects.new slot node hNode with hBefore | ⟨hEnd, hNew⟩
    · obtain ⟨hFreeNode, hBeforeTouched⟩ := h.placeholder slot node hBefore hNone
      exact ⟨hFreeNode, hConnects.touched (Or.inl hBeforeTouched)⟩
    · exact ⟨by rw [hNew], hConnects.touched (Or.inr hEnd)⟩

/-- Without its lists for a file the graph is still sound. -/
lemma sound_of_record {graph : CodeGraph} {file : String} {slots places : List Nat}
    (h : (graph.record file slots places).Consistent) : graph.Sound :=
  ⟨h.nodes_wf, h.edges_wf, h.index_iff, h.ends_live⟩

/-- The entities of a file keep the invariant, the file's own ones if they are listed.

**Proof sketch.** Induction over the entities. An entity of the file makes the file the owner of its
node, and the slot is listed. Any other entity leaves the owner, if there is one, so the node was
there before. -/
private lemma upsertAll {graph : CodeGraph} {file : String}
    (h : (graph.record file [] []).Consistent) (entities : List Entity) :
    ((CodeGraph.upsertAll file graph entities).2.record file
      (CodeGraph.upsertAll file graph entities).1 []).Consistent := by
  refine upsertAll_induct (P := fun graph _ slots => (graph.record file slots []).Consistent)
    entities ?_ ?_ h
  · intro graph done slots entity _ _ hBefore
    have hPuts := hBefore.sound_of_record.upsert_puts entity (some file)
    refine hBefore.puts hPuts (GraphNode.isSome_entity_upserted _ _ _)
      (List.subset_append_left _ _) ?_
    intro owner hOwner
    refine Or.inl ⟨?_, List.mem_append_right _ (List.mem_singleton_self _)⟩
    unfold GraphNode.upserted at hOwner
    split at hOwner <;> simpa [eq_comm] using hOwner
  · intro graph done slots entity _ _ hBefore
    have hSound := hBefore.sound_of_record
    have hPuts := hSound.upsert_puts entity none
    refine hBefore.puts hPuts (GraphNode.isSome_entity_upserted _ _ _) (List.Subset.refl _) ?_
    intro owner hOwner
    -- an owner was there before, and so the node was
    cases hNode : graph.nodeOf? entity.id with
    | none =>
      rw [hNode] at hOwner
      cases hOwner
    | some old =>
      refine Or.inr ⟨old, hPuts.get?_of_nodeOf? hSound ?_, ?_⟩
      · rw [hSound.id_upserted, hNode]
      · rw [hNode, GraphNode.upserted, if_neg (by simp)] at hOwner
        split at hOwner <;> exact hOwner

/-- The relations of a file keep the invariant, if they are listed. -/
private lemma connectAll {graph : CodeGraph} {file : String} {slots : List Nat}
    (h : (graph.record file slots []).Consistent) (relations : List Relation) :
    ((CodeGraph.connectAll graph relations).2.record file slots
      (CodeGraph.connectAll graph relations).1).Consistent := by
  refine connectAll_induct (P := fun graph _ places => (graph.record file slots places).Consistent)
    relations ?_ h
  intro graph done places relation _ hBefore
  obtain ⟨edge, hConnects⟩ := hBefore.sound_of_record.connects relation
  exact hBefore.connects hConnects

/-- **Ingestion keeps the invariant.**

**Proof sketch.** After the removal the file has no lists, so it may be given empty ones. The
entities and then the relations of the extraction keep the invariant while the lists are filled. -/
theorem ingest {graph : CodeGraph} (h : graph.Consistent) (extraction : Extraction) :
    (graph.ingest extraction).1.Consistent := by
  cases hModule : extraction.module? with
  | none =>
    rw [graph.fst_ingest_of_none hModule]
    exact h
  | some fileModule =>
    rw [graph.ingest_eq_record hModule]
    have hRemoved := h.removeFile fileModule.path
    have hDrops := h.toSound.removeFile_drops fileModule.path
    have hNodes : (graph.removeFile fileModule.path).fileNodes.get? fileModule.path = none := by
      rw [hDrops.fileNodes, Table.get?_erase, if_pos rfl]
    have hEdges : (graph.removeFile fileModule.path).fileEdges.get? fileModule.path = none := by
      rw [hDrops.fileEdges, Table.get?_erase, if_pos rfl]
    have hStart := hRemoved.record_nil hNodes hEdges
    exact (hStart.upsertAll extraction.entities).connectAll extraction.relations

/-- Every change keeps the invariant. -/
private lemma apply {graph : CodeGraph} (h : graph.Consistent) (update : Update) :
    (graph.apply update).Consistent := by
  cases update with
  | ingest extraction => exact h.ingest extraction
  | remove file => exact h.removeFile file

end Consistent

/-- **The invariant of code graphs.** Every graph that ingestions and removals lead to is
consistent, whatever the extractions hold and however many files declare one identifier.

**Proof sketch.** Induction on the changes, the last one first. -/
theorem consistent_run (updates : List Update) : (run updates).Consistent := by
  induction updates using List.reverseRecOn with
  | nil => exact consistent_empty
  | append_singleton before update ih =>
    rw [run, List.foldl_append]
    exact ih.apply update

end CodeGraph

end CodeAtlas
