import CodeAtlas.Proofs.Isolation
import CodeAtlas.Proofs.Links

/-!
# The nodes of a code graph

If extractions are grounded and no two files declare one identifier, the nodes of a graph follow
from the extractions that count: there is a node for each identifier that one of them declares or
mentions, and no other; and what a file declares is found as the file has it. So nothing is left
when all files are removed.

## Main definitions

* `CodeAtlas.CodeGraph.HoldsExactly` — a graph has the nodes that the extractions of files call for.

## Main results

* `CodeAtlas.CodeGraph.holdsExactly_run` — graphs hold exactly what the extractions that count call
  for.
-/

set_option autoImplicit false

namespace CodeAtlas

/-- Grounded extractions, in terms of the file that an extraction is of. -/
private lemma Extraction.grounded_iff {extraction : Extraction} : extraction.Grounded ↔
    (extraction.entities.map Entity.id).Nodup ∧
    ∀ entity ∈ extraction.entities, extraction.file? ≠ some entity.path →
      extraction.Mentions entity.id := by
  rw [← foreignLinked_iff]
  exact ⟨fun h => ⟨h.ids_nodup, h.foreign_linked⟩, fun h => ⟨h.1, h.2⟩⟩

instance (extraction : Extraction) : Decidable extraction.Grounded :=
  decidable_of_iff _ Extraction.grounded_iff.symm

namespace CodeGraph

/-- A graph has nodes for what the extractions of files declare or mention and for nothing else,
finds what they declare, and is empty if there are no extractions. -/
structure HoldsExactly (graph : CodeGraph) (files : String → Option Extraction) : Prop where
  mem_ids : ∀ id, id ∈ graph.ids ↔ ∃ file extraction, files file = some extraction ∧
    (extraction.Declares file id ∨ extraction.Mentions id)
  entity : ∀ file extraction entity, files file = some extraction →
    entity ∈ extraction.entities → entity.path = file → graph.entity? entity.id = some entity
  empty : (∀ file, files file = none) → graph.nodeCount = 0 ∧ graph.edgeCount = 0

/-- The ends of links are what extractions mention. -/
private lemma exists_link_iff_mentions {links : List Link} {files : String → Option Extraction}
    {names : List String} (hLinks : links.Perm (stated files names))
    (hNames : ∀ file, file ∈ names ↔ (files file).isSome) {id : String} :
    (∃ link ∈ links, link.1 = id ∨ link.2.1 = id) ↔
      ∃ file extraction, files file = some extraction ∧ extraction.Mentions id := by
  constructor
  · rintro ⟨link, hLink, hEnd⟩
    obtain ⟨file, extraction, hFile, relation, hRelation, rfl⟩ :=
      (mem_stated_iff hNames).1 (hLinks.mem_iff.1 hLink)
    exact ⟨file, extraction, hFile, relation, hRelation, hEnd⟩
  · rintro ⟨file, extraction, hFile, relation, hRelation, hEnd⟩
    refine ⟨relation.key, hLinks.mem_iff.2 ((mem_stated_iff hNames).2 ?_), hEnd⟩
    exact ⟨file, extraction, hFile, relation, hRelation, rfl⟩

/-- A node is owned by a file that declares it, or is an end of a link. -/
private lemma Anchored.mem_ids_iff {graph : CodeGraph} {files : String → Option Extraction}
    (h : graph.Anchored) (hSound : graph.Sound) (hHold : graph.OwnersHold files)
    (hOrderly : graph.Orderly files) {id : String} :
    id ∈ graph.ids ↔
      (∃ file extraction, files file = some extraction ∧ extraction.Declares file id) ∨
      ∃ link ∈ graph.links, link.1 = id ∨ link.2.1 = id := by
  constructor
  · intro hId
    obtain ⟨node, hMem, rfl⟩ := List.mem_map.1 hId
    obtain ⟨slot, hNode⟩ := Slab.mem_values.1 hMem
    cases hOwner : node.owner with
    | none => exact Or.inr ((hSound.touched_iff hNode).1 (h slot node hNode hOwner))
    | some owner => exact Or.inl ⟨owner, hHold.ownersDeclare slot node owner hNode hOwner⟩
  · rintro (⟨file, extraction, hFile, hDeclares⟩ | ⟨⟨source, target, kind⟩, hLink, hEnd⟩)
    · obtain ⟨slot, node, hNode, rfl, -⟩ := hOrderly.declared file extraction id hFile hDeclares
      exact List.mem_map.2 ⟨node, Slab.mem_values.2 ⟨slot, hNode⟩, rfl⟩
    · obtain ⟨hSource, hTarget⟩ := ends_mem_ids hLink
      rcases hEnd with rfl | rfl
      · exact hSource
      · exact hTarget

/-- What a file declares is found, if the file declares no identifier twice.

**Proof sketch.** The file owns the node and holds an entity of this identifier, and it has only
one. -/
private lemma Orderly.entity?_eq {graph : CodeGraph} {files : String → Option Extraction}
    (h : graph.Orderly files) (hSound : graph.Sound) (hHold : graph.OwnersHold files)
    {extraction : Extraction} {entity : Entity} (hFile : files entity.path = some extraction)
    (hNodup : (extraction.entities.map Entity.id).Nodup) (hMem : entity ∈ extraction.entities) :
    graph.entity? entity.id = some entity := by
  obtain ⟨slot, node, hNode, hId, hOwner⟩ :=
    h.declared entity.path extraction entity.id hFile ⟨entity, hMem, rfl, rfl⟩
  obtain ⟨result, held, hResult, hHeld, -, hHeldId, hEntity⟩ := hHold slot node _ hNode hOwner
  cases hFile.symm.trans hResult
  have hSame : held = entity := List.inj_on_of_nodup_map hNodup hHeld hMem (hHeldId.trans hId)
  rw [entity?_eq_bind, hSound.nodeOf?_eq_some_iff.2 ⟨hId, slot, hNode⟩, Option.bind_some, hEntity,
    hSame]

/-- **Graphs hold exactly what the extractions that count call for.** Let files be ingested and
removed in any way, with grounded extractions of which no two of different files declare one
identifier. Then the identifiers of the graph are those that the extractions that count declare or
mention; what a file declares is found as its extraction has it; and the graph is empty once all
files are removed.

**Proof sketch.** A node that no file owns is anchored by an edge, and edges are stated by the
extractions that count. What is declared is owned, since the graph is orderly. -/
theorem holdsExactly_run {updates : List Update}
    (hGrounded : ∀ extraction, .ingest extraction ∈ updates → extraction.Grounded)
    (hApart : ∀ extraction other, .ingest extraction ∈ updates → .ingest other ∈ updates →
      extraction.ApartFrom other) : HoldsExactly (run updates) (current updates) := by
  have hConsistent := consistent_run updates
  have hSound := hConsistent.toSound
  have hHold := ownersHold_run updates
  have hOrderly := orderly_run (neverShared_of_apartFrom hApart)
  have hNames : ∀ file, file ∈ currentFiles updates ↔ (current updates file).isSome :=
    fun _ => mem_currentFiles
  have hLinks := (tracks_run updates).links_perm hConsistent (nodup_currentFiles updates) hNames
  have hIds : ∀ id, id ∈ (run updates).ids ↔ ∃ file extraction,
      current updates file = some extraction ∧
        (extraction.Declares file id ∨ extraction.Mentions id) := by
    intro id
    rw [(anchored_run hGrounded).mem_ids_iff hSound hHold hOrderly,
      exists_link_iff_mentions hLinks hNames]
    simp only [and_or_left, exists_or]
  refine ⟨hIds, ?_, fun hNone => ⟨?_, ?_⟩⟩
  · rintro file extraction entity hFile hMem rfl
    exact hOrderly.entity?_eq hSound hHold hFile
      (hGrounded extraction (mem_of_current hFile).1).ids_nodup hMem
  · -- no extraction calls for an identifier
    have hNil : (run updates).ids = [] := by
      refine List.eq_nil_iff_forall_not_mem.2 fun id hId => ?_
      obtain ⟨file, extraction, hFile, -⟩ := (hIds id).1 hId
      rw [hNone] at hFile
      cases hFile
    rw [nodeCount, Slab.size, ← List.length_map (f := GraphNode.id)]
    exact congrArg List.length hNil
  · have hNil : (run updates).links = [] := by
      refine List.eq_nil_iff_forall_not_mem.2 fun link hLink => ?_
      obtain ⟨file, extraction, hFile, -⟩ := (mem_stated_iff hNames).1 (hLinks.mem_iff.1 hLink)
      rw [hNone] at hFile
      cases hFile
    rw [← hSound.length_links, hNil]
    rfl

end CodeGraph

/-! ## A history of two files -/

namespace History

open CodeGraph Rivals

/-- The first file imports a package and calls the second one. -/
def caller : Extraction where
  entities := [.ofFile "a" "" none, .external "react", declared "a" "a#run"]
  relations := [⟨"a", "react", .imports, none⟩, ⟨"a", "a#run", .contains, none⟩,
    ⟨"a#run", "b#help", .calls, none⟩]

/-- The second file declares what the first one calls. -/
def callee : Extraction where
  entities := [.ofFile "b" "" none, declared "b" "b#help"]
  relations := [⟨"b", "b#help", .contains, none⟩]

/-- The first file no longer imports the package. -/
def revised : Extraction where
  entities := [.ofFile "a" "" none, declared "a" "a#run"]
  relations := [⟨"a", "a#run", .contains, none⟩, ⟨"a#run", "b#help", .calls, none⟩]

/-- Both files are ingested, the first one twice, and the second one is removed. -/
def history : List Update := [.ingest caller, .ingest callee, .ingest revised, .remove "b"]

/-- The files, and all of them removed. -/
theorem holdsExactly_history :
    HoldsExactly (run history) (current history) ∧
    (run history).nodeCount = 3 ∧ (run history).entity? "b#help" = none ∧
    (run (history ++ [.remove "a"])).nodeCount = 0 ∧
    (run (history ++ [.remove "a"])).edgeCount = 0 := by
  have hMem : ∀ extraction, .ingest extraction ∈ history ++ [.remove "a"] →
      extraction ∈ [caller, callee, revised] := by
    intro extraction h
    simpa [history] using h
  have hGrounded : ∀ extraction ∈ [caller, callee, revised], extraction.Grounded := by
    decide +kernel
  have hApart : ∀ extraction ∈ [caller, callee, revised], ∀ other ∈ [caller, callee, revised],
      extraction.ApartFrom other := by
    decide +kernel
  have hSome : ∀ extraction, .ingest extraction ∈ history →
      extraction ∈ [caller, callee, revised] :=
    fun extraction h => hMem extraction (List.mem_append_left _ h)
  refine ⟨holdsExactly_run (fun extraction h => hGrounded _ (hSome _ h))
    (fun extraction other h h' => hApart _ (hSome _ h) _ (hSome _ h')), by decide +kernel,
    by decide +kernel, ?_⟩
  refine (holdsExactly_run (fun extraction h => hGrounded _ (hMem _ h))
    (fun extraction other h h' => hApart _ (hMem _ h) _ (hMem _ h'))).empty fun file => ?_
  have hCurrent : current (history ++ [.remove "a"]) file =
      if file = "a" then none else if file = "b" then none else if file = "a" then some revised
        else if file = "b" then some callee else if file = "a" then some caller else none := rfl
  rw [hCurrent]
  grind

end History

end CodeAtlas
