import Mathlib.Data.List.Pairwise
import CodeAtlas.Proofs.Links

/-!
# Order of ingestion

Files may be ingested in any order. One identifier can be mentioned by one file, named as a module
from outside by another and declared by a third; whichever of them comes first, a declaration wins
over a module from outside and that wins over a mention. So the node of each identifier comes out
the same, and so do the links, which are what the files state.

## Main definitions

* `CodeAtlas.Extraction.nodeAfter` — the node of an identifier after an ingestion.
* `CodeAtlas.Extraction.OtherFile` — two extractions are of different files.
* `CodeAtlas.CodeGraph.Mergeable` — extractions of different files that agree with each other.

## Main results

* `CodeAtlas.CodeGraph.Sound.nodeOf?_ingest` — an ingestion acts on each identifier by itself.
* `CodeAtlas.Extraction.nodeAfter_comm` — two extractions that agree may be exchanged.
* `CodeAtlas.CodeGraph.sameAnswers_run_of_perm` — the order of ingestion does not matter.
-/

set_option autoImplicit false

namespace CodeAtlas

/-! ## One identifier -/

namespace GraphNode

/-- An entity makes of a placeholder what it makes of nothing. -/
private lemma upserted_getD {entity : Entity} {id : String} (hId : entity.id = id)
    (owner : Option String) (before : Option GraphNode) :
    upserted entity owner (some (before.getD { id })) = upserted entity owner before := by
  cases before with
  | none =>
    subst hId
    cases owner <;> rfl
  | some node => rfl

/-- Two entities of one identifier may be exchanged if at most one of them is declared, and if they
are equal when none is. -/
private lemma upserted_comm {entity entity' : Entity} {owner owner' : Option String}
    (hId : entity.id = entity'.id) (hOwner : owner = none ∨ owner' = none)
    (hSame : owner = none → owner' = none → entity = entity') (before : Option GraphNode) :
    upserted entity' owner' (some (upserted entity owner before)) =
      upserted entity owner (some (upserted entity' owner' before)) := by
  cases owner with
  | none =>
    cases owner' with
    | none => rw [hSame rfl rfl]
    | some file =>
      cases before with
      | none => simp [upserted, hId]
      | some node =>
        -- the declaration displaces what the other entity leaves, and is not displaced by it
        cases hEntity : node.entity <;> simp [upserted, hEntity]
  | some file =>
    obtain rfl := hOwner.resolve_left (by simp)
    cases before with
    | none => simp [upserted, hId]
    | some node => cases hEntity : node.entity <;> simp [upserted, hEntity]

end GraphNode

namespace Extraction

/-- The node of an identifier after the ingestion of an extraction, given the one before: the
entities of the identifier are put, and it becomes a placeholder if it is mentioned and new. -/
def nodeAfter (extraction : Extraction) (id : String) (before : Option GraphNode) :
    Option GraphNode :=
  match extraction.file? with
  | none => before
  | some file =>
    let settled := GraphNode.settled file (extraction.entities.filter (·.id = id)) before
    if extraction.Mentions id then some (settled.getD { id }) else settled

/-- An extraction without a file does nothing. -/
lemma nodeAfter_of_none {extraction : Extraction} (hFile : extraction.file? = none) (id : String)
    (before : Option GraphNode) : extraction.nodeAfter id before = before := by
  rw [nodeAfter, hFile]

/-- An identifier that no entity carries is found or becomes a placeholder if it is mentioned. -/
private lemma nodeAfter_of_forall_ne {extraction : Extraction} {file id : String}
    (hFile : extraction.file? = some file) (hNone : ∀ entity ∈ extraction.entities, entity.id ≠ id)
    (before : Option GraphNode) : extraction.nodeAfter id before =
      if extraction.Mentions id then some (before.getD { id }) else before := by
  have hFilter : extraction.entities.filter (·.id = id) = [] := by
    rw [List.filter_eq_nil_iff]
    intro entity hMem
    simpa using hNone entity hMem
  rw [nodeAfter, hFile, hFilter]
  rfl

/-- An identifier that one entity carries holds what this leaves, mentioned or not. -/
lemma nodeAfter_of_mem {extraction : Extraction} {file : String}
    (hFile : extraction.file? = some file)
    (hNodup : (extraction.entities.map Entity.id).Nodup) {entity : Entity}
    (hMem : entity ∈ extraction.entities) (before : Option GraphNode) :
    extraction.nodeAfter entity.id before =
      some (GraphNode.upserted entity (entity.ownerIn file) before) := by
  rw [nodeAfter, hFile, Entity.filter_id_of_nodup hNodup hMem]
  exact ite_self _

/-! ## Two extractions -/

/-- Two extractions are of different files. -/
def OtherFile (extraction other : Extraction) : Prop :=
  ∀ file, extraction.file? = some file → other.file? ≠ some file

instance : Std.Symm OtherFile :=
  ⟨fun _ _ h file hOther hFile => h file hFile hOther⟩

/-- Different files, if there are files. -/
private lemma otherFile_iff {extraction other : Extraction} : extraction.OtherFile other ↔
    extraction.file? = none ∨ extraction.file? ≠ other.file? := by
  unfold OtherFile
  cases extraction.file? with
  | none => simp
  | some file => simp [eq_comm]

instance (extraction other : Extraction) : Decidable (extraction.OtherFile other) :=
  decidable_of_iff _ otherFile_iff.symm

/-- Two extractions name the same entity under an identifier that neither of them declares. -/
def ForeignAgree (extraction other : Extraction) : Prop :=
  ∀ entity ∈ extraction.entities, ∀ entity' ∈ other.entities,
    extraction.file? ≠ some entity.path → other.file? ≠ some entity'.path →
    entity.id = entity'.id → entity = entity'

instance (extraction other : Extraction) : Decidable (extraction.ForeignAgree other) :=
  inferInstanceAs (Decidable (∀ entity ∈ extraction.entities, ∀ entity' ∈ other.entities, _))

/-- An extraction that names no entity of an identifier may be exchanged with any other one. -/
private lemma nodeAfter_comm_of_forall_ne {extraction other : Extraction}
    (hNodup : (extraction.entities.map Entity.id).Nodup) {id : String}
    (hNone : ∀ entity ∈ other.entities, entity.id ≠ id) (before : Option GraphNode) :
    other.nodeAfter id (extraction.nodeAfter id before) =
      extraction.nodeAfter id (other.nodeAfter id before) := by
  cases hFile' : other.file? with
  | none => rw [nodeAfter_of_none hFile', nodeAfter_of_none hFile']
  | some file' =>
    simp only [nodeAfter_of_forall_ne hFile' hNone]
    cases hFile : extraction.file? with
    | none => simp only [nodeAfter_of_none hFile]
    | some file =>
      by_cases hNamed : ∃ entity ∈ extraction.entities, entity.id = id
      · obtain ⟨entity, hMem, rfl⟩ := hNamed
        simp only [nodeAfter_of_mem hFile hNodup hMem]
        split
        · rw [GraphNode.upserted_getD rfl]
          rfl
        · rfl
      · have hNone' : ∀ entity ∈ extraction.entities, entity.id ≠ id :=
          fun entity hMem hId => hNamed ⟨entity, hMem, hId⟩
        simp only [nodeAfter_of_forall_ne hFile hNone']
        split <;> split <;> rfl

/-- **Extractions that agree may be exchanged.** The node of an identifier is the same after two
extractions of different files in either order, if they do not both declare it and name the same
entity if none does.

**Proof sketch.** An entity overrides a mention. Of two entities at most one is declared, and this
one stays; if none is, they are equal. -/
theorem nodeAfter_comm {extraction other : Extraction}
    (hNodup : (extraction.entities.map Entity.id).Nodup)
    (hNodup' : (other.entities.map Entity.id).Nodup) (hOther : extraction.OtherFile other)
    (hApart : extraction.ApartFrom other) (hAgree : extraction.ForeignAgree other) (id : String)
    (before : Option GraphNode) :
    other.nodeAfter id (extraction.nodeAfter id before) =
      extraction.nodeAfter id (other.nodeAfter id before) := by
  cases hFile : extraction.file? with
  | none => rw [nodeAfter_of_none hFile, nodeAfter_of_none hFile]
  | some file =>
    cases hFile' : other.file? with
    | none => rw [nodeAfter_of_none hFile', nodeAfter_of_none hFile']
    | some file' =>
      by_cases hNamed : ∃ entity ∈ extraction.entities, entity.id = id
      · by_cases hNamed' : ∃ entity' ∈ other.entities, entity'.id = id
        · obtain ⟨entity, hMem, rfl⟩ := hNamed
          obtain ⟨entity', hMem', hId⟩ := hNamed'
          simp only [nodeAfter_of_mem hFile hNodup hMem]
          rw [← hId]
          simp only [nodeAfter_of_mem hFile' hNodup' hMem']
          refine congrArg some (GraphNode.upserted_comm hId.symm ?_ ?_ before)
          · -- if both were declared, the files would be the same
            by_contra hBoth
            rw [not_or, ← ne_eq, ← ne_eq, Entity.ownerIn_ne_none_iff,
              Entity.ownerIn_ne_none_iff] at hBoth
            have hSame := hApart file file' entity.id hFile hFile' ⟨entity, hMem, hBoth.1, rfl⟩
              ⟨entity', hMem', hBoth.2, hId⟩
            exact hOther file hFile (hSame ▸ hFile')
          · intro hForeign hForeign'
            rw [Entity.ownerIn_eq_none_iff] at hForeign hForeign'
            refine hAgree entity hMem entity' hMem' ?_ ?_ hId.symm
            · rw [hFile]
              exact fun hPath => hForeign (Option.some.inj hPath).symm
            · rw [hFile']
              exact fun hPath => hForeign' (Option.some.inj hPath).symm
        · exact nodeAfter_comm_of_forall_ne hNodup
            (fun entity' hMem' hId => hNamed' ⟨entity', hMem', hId⟩) before
      · exact (nodeAfter_comm_of_forall_ne hNodup'
          (fun entity hMem hId => hNamed ⟨entity, hMem, hId⟩) before).symm

end Extraction

namespace CodeGraph

/-! ## An ingestion -/

/-- The ends of edges that say what the relations of an extraction say are mentioned by it. -/
private lemma mentions_of_touchedBy {graph : CodeGraph} {extraction : Extraction}
    {places : List Nat} (hSays : graph.Says places extraction.relations) {slot : Nat}
    {node : GraphNode} (hNode : graph.nodes.get? slot = some node)
    (hTouched : graph.TouchedBy places slot) : extraction.Mentions node.id := by
  obtain ⟨place, hPlace, edge, hEdge, hEnd⟩ := hTouched
  have hLink : graph.linkAt? place ∈ places.map graph.linkAt? := List.mem_map_of_mem hPlace
  rw [hSays] at hLink
  obtain ⟨relation, hRelation, hKey⟩ := List.mem_map.1 hLink
  rw [linkAt?, hEdge] at hKey
  obtain ⟨source, target, hSource, hTarget, hEq⟩ := linkOf?_eq_some_iff.1 hKey.symm
  refine ⟨relation, hRelation, ?_⟩
  rcases hEnd with rfl | rfl
  · cases hNode.symm.trans hSource
    exact Or.inl (congrArg Prod.fst hEq)
  · cases hNode.symm.trans hTarget
    exact Or.inr (congrArg (fun link => link.2.1) hEq)

/-- The relations of a file leave the nodes and add placeholders for what they mention.

**Proof sketch.** A node that was there is kept. A node that is new is a placeholder that an edge of
the file touches, so a relation mentions its identifier; and the ends of all relations are in the
index. -/
private lemma Joins.nodeOf? {graph after : CodeGraph} {extraction : Extraction} {places : List Nat}
    (h : Joins graph after extraction.relations places) (hSound : graph.Sound)
    (hSays : after.Says places extraction.relations) (id : String) :
    after.nodeOf? id =
      if extraction.Mentions id then some ((graph.nodeOf? id).getD { id })
      else graph.nodeOf? id := by
  cases hBefore : graph.nodeOf? id with
  | some node =>
    obtain ⟨hId, slot, hNode⟩ := hSound.nodeOf?_eq_some_iff.1 hBefore
    rw [h.sound.nodeOf?_eq_some_iff.2 ⟨hId, slot, h.kept slot node hNode⟩, Option.getD_some,
      ite_self]
  | none =>
    -- a node that is found now is new
    have hNew : ∀ {slot node}, after.nodes.get? slot = some node → node.id = id →
        node = { id } ∧ extraction.Mentions id := by
      rintro slot node hNode rfl
      rcases h.new slot node hNode with hOld | ⟨hEq, hTouched⟩
      · rw [hSound.nodeOf?_eq_some_iff.2 ⟨rfl, slot, hOld⟩] at hBefore
        cases hBefore
      · exact ⟨hEq, mentions_of_touchedBy hSays hNode hTouched⟩
    split
    · next hMentions =>
      obtain ⟨relation, hRelation, hEnd⟩ := hMentions
      obtain ⟨slot, hSlot, -⟩ := h.linked relation hRelation id hEnd
      obtain ⟨node, hNode, hId⟩ := (h.sound.index_iff _ _).1 hSlot
      rw [h.sound.nodeOf?_eq_some_iff.2 ⟨hId, slot, hNode⟩, (hNew hNode hId).1]
      rfl
    · next hMentions =>
      by_contra hSome
      obtain ⟨node, hFound⟩ := Option.ne_none_iff_exists'.1 hSome
      obtain ⟨hId, slot, hNode⟩ := h.sound.nodeOf?_eq_some_iff.1 hFound
      exact hMentions (hNew hNode hId).2

/-- **An ingestion acts on each identifier by itself.**

**Proof sketch.** The entities settle the node of the identifier from those that carry it, and the
relations add a placeholder if they mention it and there is none (`Joins.nodeOf?`). -/
theorem Sound.nodeOf?_ingest {graph : CodeGraph} (h : graph.Sound) {extraction : Extraction}
    {file : String} (hFile : extraction.file? = some file) (id : String) :
    (graph.ingest extraction).1.nodeOf? id =
      extraction.nodeAfter id ((graph.removeFile file).nodeOf? id) := by
  obtain ⟨fileModule, hModule, rfl⟩ := Option.map_eq_some_iff.1 hFile
  obtain ⟨middle, final, slots, places, hSettles, hJoins, hSays, hIngest⟩ :=
    h.exists_settles_joins_says hModule
  rw [hIngest, Extraction.nodeAfter, hFile]
  have hFinal := hJoins.nodeOf? hSettles.sound hSays id
  rw [hSettles.nodeOf?] at hFinal
  exact hFinal

/-! ## All orders -/

/-- Extractions of different files that agree: none names an identifier twice, no two declare one,
and an identifier that two of them name and do not declare stands for the same entity. -/
structure Mergeable (extractions : List Extraction) : Prop where
  files_differ : extractions.Pairwise Extraction.OtherFile
  ids_nodup : ∀ extraction ∈ extractions, (extraction.entities.map Entity.id).Nodup
  apart : ∀ extraction ∈ extractions, ∀ other ∈ extractions, extraction.ApartFrom other
  foreign_agree : ∀ extraction ∈ extractions, ∀ other ∈ extractions, extraction.ForeignAgree other

/-- Two extractions in the list are the same or of different files. -/
lemma Mergeable.eq_or_otherFile {extractions : List Extraction} (h : Mergeable extractions)
    {extraction other : Extraction} (hMem : extraction ∈ extractions)
    (hMem' : other ∈ extractions) : extraction = other ∨ extraction.OtherFile other := by
  by_cases hEq : extraction = other
  · exact Or.inl hEq
  · exact Or.inr (h.files_differ.forall hMem hMem' hEq)

/-- A file is not known before its extraction comes. -/
private lemma knows_run_eq_false {extractions : List Extraction} {extraction : Extraction}
    (hOther : ∀ before ∈ extractions, before.OtherFile extraction) {file : String}
    (hFile : extraction.file? = some file) :
    (run (extractions.map .ingest)).knows file = false := by
  rw [(tracks_run _).knows_eq (consistent_run _)]
  by_contra hSome
  rw [Bool.not_eq_false] at hSome
  obtain ⟨found, hFound⟩ := Option.isSome_iff_exists.1 hSome
  obtain ⟨hMem, hFoundFile⟩ := mem_of_current hFound
  obtain ⟨before, hBefore, hEq⟩ := List.mem_map.1 hMem
  cases hEq
  exact hOther _ hBefore file hFoundFile hFile

/-- The node of an identifier after extractions of different files, from one to the next. -/
private lemma nodeOf?_run_ingest (extractions : List Extraction)
    (hFiles : extractions.Pairwise Extraction.OtherFile) (id : String) :
    (run (extractions.map .ingest)).nodeOf? id =
      extractions.foldl (fun before extraction => extraction.nodeAfter id before) none := by
  induction extractions using List.reverseRecOn with
  | nil => rfl
  | append_singleton before extraction ih =>
    obtain ⟨hBefore, -, hOther⟩ := List.pairwise_append.1 hFiles
    have hRun : run ((before ++ [extraction]).map .ingest) =
        ((run (before.map .ingest)).ingest extraction).1 := by
      rw [run, List.map_append, List.foldl_append]
      rfl
    rw [hRun, List.foldl_append, List.foldl_cons, List.foldl_nil, ← ih hBefore]
    cases hFile : extraction.file? with
    | none =>
      have hModule : extraction.module? = none := Option.map_eq_none_iff.1 hFile
      rw [fst_ingest_of_none _ hModule, Extraction.nodeAfter_of_none hFile]
    | some file =>
      have hUnknown := knows_run_eq_false (fun found hMem =>
        hOther found hMem extraction (List.mem_singleton_self _)) hFile
      rw [(consistent_run _).toSound.nodeOf?_ingest hFile, removeFile_of_not_knows hUnknown]
      rfl

/-- The extractions that count are the same in any order.

**Proof sketch.** It is enough to exchange two neighbours. They are the same extraction, or of
different files, and then each decides what counts for its own file only. -/
private lemma Mergeable.current_eq {extractions others : List Extraction}
    (h : Mergeable extractions) (hPerm : extractions.Perm others) :
    current (extractions.map .ingest) = current (others.map .ingest) := by
  unfold current
  rw [List.foldl_map, List.foldl_map]
  refine hPerm.foldl_eq' (fun first hFirst second hSecond files => ?_) _
  rcases h.eq_or_otherFile hFirst hSecond with rfl | hOther
  · rfl
  · funext file
    cases hModule : first.module? with
    | none => simp only [revise, hModule]
    | some fileModule =>
      cases hModule' : second.module? with
      | none => simp only [revise, hModule, hModule']
      | some fileModule' =>
        simp only [revise, hModule, hModule']
        -- the two files are different, so at most one of them is this one
        have hNe : fileModule'.path ≠ fileModule.path := by
          refine fun hEq => hOther fileModule.path ?_ ?_
          · rw [Extraction.file?, hModule]
            rfl
          · rw [Extraction.file?, hModule', ← hEq]
            rfl
        split
        · next hFile => rw [hFile, if_neg hNe]
        · rfl

/-- The node of an identifier is the same in any order. -/
private lemma Mergeable.nodeOf?_eq {extractions others : List Extraction}
    (h : Mergeable extractions) (hPerm : extractions.Perm others) (id : String) :
    (run (extractions.map .ingest)).nodeOf? id = (run (others.map .ingest)).nodeOf? id := by
  have hFiles : others.Pairwise Extraction.OtherFile :=
    (hPerm.pairwise_iff fun hOther => Std.Symm.symm _ _ hOther).1 h.files_differ
  rw [nodeOf?_run_ingest extractions h.files_differ, nodeOf?_run_ingest others hFiles]
  refine hPerm.foldl_eq' (fun first hFirst second hSecond before => ?_) none
  rcases h.eq_or_otherFile hFirst hSecond with rfl | hOther
  · rfl
  · exact Extraction.nodeAfter_comm (h.ids_nodup first hFirst) (h.ids_nodup second hSecond) hOther
      (h.apart first hFirst second hSecond) (h.foreign_agree first hFirst second hSecond) id before

/-- The links are the same if the same extractions count. -/
lemma links_perm_of_current_eq {updates others : List Update}
    (h : current updates = current others) : (run updates).links.Perm (run others).links := by
  have hNames : (currentFiles updates).Perm (currentFiles others) := by
    rw [List.perm_ext_iff_of_nodup (nodup_currentFiles _) (nodup_currentFiles _)]
    intro file
    rw [mem_currentFiles, mem_currentFiles, h]
  have hLinks := (tracks_run updates).links_perm (consistent_run updates)
    (nodup_currentFiles updates) fun _ => mem_currentFiles
  have hLinks' := (tracks_run others).links_perm (consistent_run others)
    (nodup_currentFiles others) fun _ => mem_currentFiles
  rw [h] at hLinks
  exact (hLinks.trans (hNames.flatMap_right _)).trans hLinks'.symm

/-- **The order of ingestion does not matter.** Extractions of different files that agree with each
other give graphs that answer every query alike, in whatever order they are ingested.

**Proof sketch.** Two neighbours in the order may be exchanged as far as the node of an identifier
is concerned, and the extractions that count are the same in any order; so the nodes and the links
are the same, and they decide all answers. -/
theorem sameAnswers_run_of_perm {extractions others : List Extraction}
    (h : Mergeable extractions) (hPerm : extractions.Perm others) :
    SameAnswers (run (extractions.map .ingest)) (run (others.map .ingest)) := by
  refine SameAnswers.of_nodeOf? (consistent_run _).toSound (consistent_run _).toSound
    (h.nodeOf?_eq hPerm) ?_
  exact links_perm_of_current_eq (h.current_eq hPerm)

end CodeGraph

/-! ## Three roles of one identifier -/

namespace Roles

open CodeGraph

/-- A file that calls `lib`. -/
def calls : Extraction := ⟨[.ofFile "a" "" none], [⟨"a", "lib", .calls, none⟩]⟩

/-- A file that imports `lib` from outside. -/
def imports : Extraction :=
  ⟨[.ofFile "b" "" none, .external "lib"], [⟨"b", "lib", .imports, none⟩]⟩

/-- The file `lib`. -/
def declares : Extraction := .ofModule (.ofFile "lib" "" none)

/-- The file `lib` may come first or last. -/
theorem sameAnswers_roles :
    SameAnswers (run ([calls, imports, declares].map .ingest))
      (run ([declares, calls, imports].map .ingest)) ∧
    (run ([declares, calls, imports].map .ingest)).entity? "lib" =
      some (.ofFile "lib" "" none) := by
  refine ⟨sameAnswers_run_of_perm ⟨?_, ?_, ?_, ?_⟩ ?_, by decide +kernel⟩
  · decide +kernel
  · decide +kernel
  · decide +kernel
  · decide +kernel
  · show ([calls, imports] ++ [declares]).Perm ([declares] ++ [calls, imports])
    exact List.perm_append_comm

end Roles

end CodeAtlas
