import CodeAtlas.Proofs.Convergence
import CodeAtlas.Proofs.Isolation
import CodeAtlas.Proofs.Removal

/-!
# Ingestion of the same file again

To ingest an extraction a second time is to take its file out and to put it back. The slots are
permuted by this, and what another file declares as well may be pruned in between; but the graph
answers as it did.

## Main results

* `CodeAtlas.Extraction.nodeAfter_nodeAfter` — an extraction acts twice on a node as it acts once.
* `CodeAtlas.CodeGraph.nodeOf?_removeFile_ingest` — which nodes go when an extraction is taken out.
* `CodeAtlas.CodeGraph.sameAnswers_ingest_ingest` — to ingest twice is to ingest once.

## Design

Files may declare identifiers in common, and an extraction may name an identifier more than once.
An identifier that the file declares comes out as the file has it, whatever was there before; any
other is a node that stays when the file is taken out, or one that was not there before it came.
-/

set_option autoImplicit false

namespace CodeAtlas

/-! ## Settled nodes -/

namespace GraphNode

/-- Entities of an identifier leave a node of this identifier. -/
private lemma id_of_settled {file id : String} {entities : List Entity}
    (hIds : ∀ entity ∈ entities, entity.id = id) {before : Option GraphNode}
    (hBefore : ∀ node ∈ before, node.id = id) :
    ∀ node ∈ settled file entities before, node.id = id := by
  induction entities using List.reverseRecOn with
  | nil => exact hBefore
  | append_singleton entities entity ih =>
    intro node hNode
    have hLast : entity.id = id := hIds entity (by simp)
    have hFound := ih fun other hMem => hIds other (List.mem_append_left _ hMem)
    rw [settled_concat, Option.mem_some_iff] at hNode
    rw [← hNode, id_upserted _ fun found hMem => (hFound found hMem).trans hLast.symm, hLast]

/-- A declaration leaves the same node, whatever was there before. -/
private lemma upserted_declared {entity : Entity} {before : Option GraphNode}
    (hBefore : ∀ node ∈ before, node.id = entity.id) (file : String) :
    upserted entity (some file) before = ⟨entity.id, some entity, some file⟩ := by
  cases before with
  | none => rfl
  | some node =>
    rw [upserted, if_pos (by rfl), hBefore node rfl]

/-- If one of the entities is of the file, what was there before does not matter.

**Proof sketch.** Induction on the entities, the last one first. If it is of the file, the node is
declared by it and nothing else matters; otherwise an earlier one is of the file. -/
private lemma settled_eq_of_exists_path {file id : String} {entities : List Entity}
    (hIds : ∀ entity ∈ entities, entity.id = id) (hOwn : ∃ entity ∈ entities, entity.path = file)
    {before other : Option GraphNode} (hBefore : ∀ node ∈ before, node.id = id)
    (hOther : ∀ node ∈ other, node.id = id) :
    settled file entities before = settled file entities other := by
  induction entities using List.reverseRecOn with
  | nil =>
    obtain ⟨entity, hMem, -⟩ := hOwn
    cases hMem
  | append_singleton entities entity ih =>
    have hRest : ∀ found ∈ entities, found.id = id := fun found hMem =>
      hIds found (List.mem_append_left _ hMem)
    rw [settled_concat, settled_concat]
    by_cases hPath : entity.path = file
    · have hLast : entity.id = id := hIds entity (by simp)
      rw [Entity.ownerIn, if_pos hPath,
        upserted_declared fun node hNode =>
          (id_of_settled hRest hBefore node hNode).trans hLast.symm,
        upserted_declared fun node hNode =>
          (id_of_settled hRest hOther node hNode).trans hLast.symm]
    · -- the entity of the file is one of the earlier ones
      obtain ⟨found, hMem, hFound⟩ := hOwn
      have hEarlier : found ∈ entities := by
        rcases List.mem_append.1 hMem with hMem | hMem
        · exact hMem
        · exact absurd (List.mem_singleton.1 hMem ▸ hFound) hPath
      rw [ih hRest ⟨found, hEarlier, hFound⟩]

/-- Entities from elsewhere leave a declared node as it is. -/
private lemma settled_of_isSome {file : String} {entities : List Entity}
    (hForeign : ∀ entity ∈ entities, entity.path ≠ file) {node : GraphNode}
    (hEntity : node.entity.isSome) : settled file entities (some node) = some node := by
  induction entities using List.reverseRecOn with
  | nil => rfl
  | append_singleton entities entity ih =>
    have hPath : entity.path ≠ file := hForeign entity (by simp)
    rw [settled_concat, ih fun found hMem => hForeign found (List.mem_append_left _ hMem),
      Entity.ownerIn_eq_none_iff.2 hPath, upserted, if_neg (by simp),
      if_neg (by simpa [Option.isSome_iff_ne_none] using hEntity)]

/-- Entities from elsewhere act twice as they act once. -/
private lemma settled_settled {file : String} {entities : List Entity}
    (hForeign : ∀ entity ∈ entities, entity.path ≠ file) (before : Option GraphNode) :
    settled file entities (settled file entities before) = settled file entities before := by
  rcases List.eq_nil_or_concat' entities with rfl | ⟨rest, entity, rfl⟩
  · rfl
  · rw [settled_concat file rest entity before]
    exact settled_of_isSome hForeign (isSome_entity_upserted _ _ _)

end GraphNode

/-! ## One identifier -/

namespace Extraction

/-- The entities of an identifier carry it. -/
lemma id_of_mem_filter {extraction : Extraction} {id : String} :
    ∀ entity ∈ extraction.entities.filter (·.id = id), entity.id = id := by
  intro entity hMem
  exact of_decide_eq_true (List.mem_filter.1 hMem).2

/-- A node of an identifier that the file declares does not depend on what was there before. -/
private lemma nodeAfter_eq_of_declares {extraction : Extraction} {file id : String}
    (hFile : extraction.file? = some file) (hDeclares : extraction.Declares file id)
    {before other : Option GraphNode} (hBefore : ∀ node ∈ before, node.id = id)
    (hOther : ∀ node ∈ other, node.id = id) :
    extraction.nodeAfter id before = extraction.nodeAfter id other := by
  obtain ⟨entity, hMem, hPath, hId⟩ := hDeclares
  have hOwn : ∃ entity ∈ extraction.entities.filter (·.id = id), entity.path = file :=
    ⟨entity, List.mem_filter.2 ⟨hMem, decide_eq_true hId⟩, hPath⟩
  rw [nodeAfter, nodeAfter, hFile]
  dsimp only
  rw [GraphNode.settled_eq_of_exists_path id_of_mem_filter hOwn hBefore hOther]

/-- **An extraction acts twice on a node as it acts once**, if it does not declare it.

**Proof sketch.** The entities with the identifier are all from elsewhere, and such entities settle
a node that is there as they did before (`GraphNode.settled_settled`). If no entity carries it and
nothing was there, a mention makes it a placeholder, which the second mention finds. -/
theorem nodeAfter_nodeAfter {extraction : Extraction} {file id : String}
    (hFile : extraction.file? = some file) (hNot : ¬extraction.Declares file id)
    (before : Option GraphNode) :
    extraction.nodeAfter id (extraction.nodeAfter id before) = extraction.nodeAfter id before := by
  have hForeign : ∀ entity ∈ extraction.entities.filter (·.id = id), entity.path ≠ file := by
    intro entity hMem hPath
    exact hNot ⟨entity, (List.mem_filter.1 hMem).1, hPath, id_of_mem_filter entity hMem⟩
  simp only [nodeAfter, hFile]
  split
  · cases hSettled : GraphNode.settled file (extraction.entities.filter (·.id = id)) before with
    | some node =>
      rw [Option.getD_some, ← hSettled, GraphNode.settled_settled hForeign, hSettled]
      rfl
    | none =>
      -- nothing was there and no entity carries the identifier, so it is a placeholder
      have hNil : extraction.entities.filter (·.id = id) = [] := by
        rcases List.eq_nil_or_concat' (extraction.entities.filter (·.id = id)) with
          hNil | ⟨rest, entity, hConcat⟩
        · exact hNil
        · rw [hConcat, GraphNode.settled_concat] at hSettled
          cases hSettled
      rw [hNil]
      rfl
  · exact GraphNode.settled_settled hForeign before

end Extraction

/-! ## Taking a file out -/

namespace CodeGraph

/-- A node of an identifier has this identifier. -/
private lemma Sound.id_of_nodeOf? {graph : CodeGraph} (h : graph.Sound) {id : String} :
    ∀ node ∈ graph.nodeOf? id, node.id = id :=
  fun _ hNode => (h.nodeOf?_eq_some_iff.1 hNode).1

/-- A node that is not disowned stays if a file owns it or an edge still touches it. -/
private lemma Drops.get?_of_held {graph after : CodeGraph} {file : String} {places slots : List Nat}
    (h : Drops graph after file places slots) {slot : Nat} {node : GraphNode}
    (hNode : graph.nodes.get? slot = some node) (hSlot : slot ∉ slots)
    (hHeld : node.owner.isSome ∨ after.Touched slot) : after.nodes.get? slot = some node :=
  (h.nodes slot node).2 ⟨node, hNode, (if_neg hSlot).symm, fun _ => hHeld⟩

section

variable {graph middle final after : CodeGraph} {file : String} {extraction : Extraction}
  {slots places : List Nat}

/-- The slot of a node that the extraction does not declare is not listed for the file. -/
private lemma notMem_slots_of_not_declares
    (hSettles : Settles graph middle file extraction.entities slots)
    (hJoins : Joins middle final extraction.relations places) {slot : Nat} {node : GraphNode}
    (hNode : final.nodes.get? slot = some node) (hNot : ¬extraction.Declares file node.id) :
    slot ∉ slots := by
  intro hMem
  obtain ⟨entity, hEntity, hPath, hIndex⟩ := (hSettles.mem_slots slot).1 hMem
  obtain ⟨found, hFound, hId⟩ := (hSettles.sound.index_iff _ _).1 hIndex
  cases (hJoins.kept slot found hFound).symm.trans hNode
  exact hNot ⟨entity, hEntity, hPath, hId.symm⟩

/-- A node that the extraction does not declare and that was there before is held when the
extraction is taken out: by its owner, or by an edge that was there before.

**Proof sketch.** The node is in the slot where it was, and as the file does not declare it, it has
the owner that it had. If it had none, an edge touched it, and that edge is there again. -/
private lemma held_of_nodeOf? (hSound : graph.Sound) (hAnchored : graph.Anchored)
    (hSettles : Settles graph middle file extraction.entities slots)
    (hJoins : Joins middle final extraction.relations places)
    (hDrops : Drops (final.record file slots places) after file places slots)
    {slot : Nat} {node old : GraphNode} (hNode : final.nodes.get? slot = some node)
    (hNot : ¬extraction.Declares file node.id) (hOld : graph.nodeOf? node.id = some old) :
    node.owner.isSome ∨ after.Touched slot := by
  obtain ⟨hId, place, hPlace⟩ := hSound.nodeOf?_eq_some_iff.1 hOld
  obtain ⟨found, hFound, hFoundId, -⟩ := hSettles.exists_get? hSound hPlace
  have hKept := hJoins.kept place found hFound
  obtain rfl := hJoins.sound.slot_unique hKept hNode (hFoundId.trans hId)
  cases hKept.symm.trans hNode
  have hSame := hSettles.owner hFound
  have hForeign : ¬∃ entity ∈ extraction.entities, entity.id = node.id ∧ entity.path = file :=
    fun ⟨entity, hMem, hEntity, hPath⟩ => hNot ⟨entity, hMem, hPath, hEntity⟩
  rw [if_neg hForeign, hOld, Option.bind_some] at hSame
  cases hOwner : old.owner with
  | some owner =>
    rw [hSame, hOwner]
    exact Or.inl rfl
  | none =>
    obtain ⟨mark, edge, hEdge, hEnd⟩ := hAnchored place old hPlace hOwner
    have hStays := get?_edges_of_drops hSettles hJoins hDrops mark
    exact Or.inr ⟨mark, edge, hStays.trans hEdge, hEnd⟩

end

/-- **Which nodes go when an extraction is taken out.** A node that the extraction does not declare
stays, or it was not there before the extraction came.

**Proof sketch.** A node that was there before is held by its owner or by an edge of another
file. -/
theorem nodeOf?_removeFile_ingest {graph : CodeGraph} (hConsistent : graph.Consistent)
    (hAnchored : graph.Anchored) {extraction : Extraction} {file : String}
    (hFile : extraction.file? = some file) {id : String} (hNot : ¬extraction.Declares file id) :
    ((graph.ingest extraction).1.removeFile file).nodeOf? id =
        (graph.ingest extraction).1.nodeOf? id ∨
      ((graph.ingest extraction).1.removeFile file).nodeOf? id = none ∧
        (graph.removeFile file).nodeOf? id = none := by
  obtain ⟨fileModule, hModule, rfl⟩ := Option.map_eq_some_iff.1 hFile
  have hSound := (hConsistent.toSound.removeFile_drops fileModule.path).sound
  have hRemoved := hAnchored.removeFile hConsistent.toSound fileModule.path
  have hIngested := (hConsistent.ingest extraction).toSound
  obtain ⟨middle, final, slots, places, hSettles, hJoins, hIngest⟩ :=
    hConsistent.toSound.exists_settles_joins hModule
  have hDrops := hIngested.removeFile_drops fileModule.path
  rw [hIngest] at hDrops hIngested ⊢
  rw [get?_fileEdges_record, get?_fileNodes_record, if_pos rfl, if_pos rfl, Option.getD_some,
    Option.getD_some] at hDrops
  set after := (final.record fileModule.path slots places).removeFile fileModule.path
  cases hAfter : after.nodeOf? id with
  | some node =>
    -- a node that is found afterwards was not disowned
    obtain ⟨hId, slot, hNode⟩ := hDrops.sound.nodeOf?_eq_some_iff.1 hAfter
    obtain ⟨old, hOld, hEq, -⟩ := (hDrops.nodes slot node).1 hNode
    have hOldId : old.id = id := by
      rw [← hId, hEq]
      split <;> rfl
    rw [if_neg (notMem_slots_of_not_declares hSettles hJoins hOld (hOldId ▸ hNot))] at hEq
    exact Or.inl (hIngested.nodeOf?_eq_some_iff.2 ⟨hId, slot, hEq ▸ hOld⟩).symm
  | none =>
    cases hFound : (final.record fileModule.path slots places).nodeOf? id with
    | none => exact Or.inl rfl
    | some node =>
      refine Or.inr ⟨rfl, ?_⟩
      obtain ⟨rfl, slot, hNode⟩ := hIngested.nodeOf?_eq_some_iff.1 hFound
      by_contra hSome
      obtain ⟨old, hOld⟩ := Option.ne_none_iff_exists'.1 hSome
      have hHeld := held_of_nodeOf? hSound hRemoved hSettles hJoins hDrops hNode hNot hOld
      have hKept := hDrops.get?_of_held hNode
        (notMem_slots_of_not_declares hSettles hJoins hNode hNot) hHeld
      rw [hDrops.sound.nodeOf?_eq_some_iff.2 ⟨rfl, slot, hKept⟩] at hAfter
      cases hAfter

/-! ## Twice and once -/

/-- The node of an identifier is the same after an extraction is ingested again. -/
private lemma nodeOf?_ingest_ingest {graph : CodeGraph} (hConsistent : graph.Consistent)
    (hAnchored : graph.Anchored) {extraction : Extraction} {file : String}
    (hFile : extraction.file? = some file) (id : String) :
    ((graph.ingest extraction).1.ingest extraction).1.nodeOf? id =
      (graph.ingest extraction).1.nodeOf? id := by
  have hIngested := hConsistent.ingest extraction
  have hOnce := hConsistent.toSound.nodeOf?_ingest hFile id
  rw [hIngested.toSound.nodeOf?_ingest hFile]
  by_cases hDeclares : extraction.Declares file id
  · rw [hOnce]
    exact Extraction.nodeAfter_eq_of_declares hFile hDeclares
      (hIngested.removeFile file).toSound.id_of_nodeOf?
      (hConsistent.removeFile file).toSound.id_of_nodeOf?
  · rcases nodeOf?_removeFile_ingest hConsistent hAnchored hFile hDeclares with
      hStays | ⟨hGone, hNew⟩
    · rw [hStays, hOnce, Extraction.nodeAfter_nodeAfter hFile hDeclares]
    · rw [hOnce, hGone, hNew]

/-- The last change is the last to be applied. -/
private lemma run_concat (updates : List Update) (update : Update) :
    run (updates ++ [update]) = (run updates).apply update := by
  unfold run
  exact List.foldl_concat _ _ _ _

/-- The last change is the last to be counted. -/
private lemma current_concat (updates : List Update) (update : Update) :
    current (updates ++ [update]) = revise (current updates) update := by
  unfold current
  exact List.foldl_concat _ _ _ _

/-- The extractions that count are the same after one is ingested again. -/
private lemma revise_revise (files : String → Option Extraction) (extraction : Extraction) :
    revise (revise files (.ingest extraction)) (.ingest extraction) =
      revise files (.ingest extraction) := by
  funext file
  cases hModule : extraction.module? with
  | none => rw [revise_ingest_of_none _ hModule]
  | some fileModule =>
    rw [revise_ingest _ hModule, revise_ingest _ hModule]
    split <;> rfl

/-- **To ingest twice is to ingest once.** Let a graph come from extractions in which every entity
that is not of the file is an end of a relation. Whatever identifiers the files share, and whatever
extraction comes next, a second ingestion of it in a row changes no answer.

**Proof sketch.** The links are what the extractions that count state, and these stay the same. The
node of an identifier that the file declares is what the file makes of it. Any other node stays when
the file is taken out, or it is as new as it was at first. -/
theorem sameAnswers_ingest_ingest {updates : List Update}
    (hRun : ∀ ingested, .ingest ingested ∈ updates → ingested.ForeignLinked)
    (extraction : Extraction) :
    SameAnswers (((run updates).ingest extraction).1.ingest extraction).1
      ((run updates).ingest extraction).1 := by
  cases hFile : extraction.file? with
  | none =>
    have hSame := fun graph : CodeGraph =>
      graph.fst_ingest_of_none (Option.map_eq_none_iff.1 hFile)
    rw [hSame, hSame]
    exact .of_nodeOf? (consistent_run updates).toSound (consistent_run updates).toSound
      (fun _ => rfl) (.refl _)
  | some file =>
    have hOnce : ((run updates).ingest extraction).1 = run (updates ++ [.ingest extraction]) :=
      (run_concat updates (.ingest extraction)).symm
    have hTwice : (((run updates).ingest extraction).1.ingest extraction).1 =
        run (updates ++ [.ingest extraction] ++ [.ingest extraction]) := by
      rw [hOnce]
      exact (run_concat _ (.ingest extraction)).symm
    have hNodes := nodeOf?_ingest_ingest (consistent_run updates)
      (anchored_run_of_foreignLinked hRun) hFile
    rw [hTwice, hOnce] at hNodes ⊢
    refine .of_nodeOf? (consistent_run _).toSound (consistent_run _).toSound hNodes
      (links_perm_of_current_eq ?_)
    rw [current_concat, current_concat, revise_revise]

end CodeGraph

/-! ## A file that is ingested again -/

namespace Rivals

open CodeGraph

/-- A file that declares `shared` and imports a package. -/
def first : Extraction where
  entities := [.ofFile "a" "" none, .external "react", declared "a" "shared"]
  relations := [⟨"a", "react", .imports, none⟩, ⟨"a", "shared", .contains, none⟩]

/-- Another file that declares `shared` and imports the package, and that calls what no file
declares. -/
def second : Extraction where
  entities := [.ofFile "b" "" none, .external "react", declared "b" "shared"]
  relations := [⟨"b", "react", .imports, none⟩, ⟨"b", "shared", .contains, none⟩,
    ⟨"shared", "help", .calls, none⟩]

/-- The first file takes `shared` over from the second one, and keeps it when it comes again. -/
theorem sameAnswers_ingest_first :
    SameAnswers (run [.ingest first, .ingest second, .ingest first, .ingest first])
      (run [.ingest first, .ingest second, .ingest first]) ∧
    (run [.ingest first, .ingest second, .ingest first]).entity? "shared" =
      some (declared "a" "shared") ∧
    (run [.ingest first, .ingest second, .ingest first]).entity? "react" =
      some (.external "react") ∧
    (run [.ingest first, .ingest second, .ingest first]).nodeCount = 5 := by
  have hRun : ∀ ingested, .ingest ingested ∈ [Update.ingest first, .ingest second] →
      ingested.ForeignLinked := by
    have hBoth : ∀ ingested ∈ [first, second], ingested.ForeignLinked := by decide +kernel
    intro ingested hMem
    exact hBoth ingested (by simpa using hMem)
  exact ⟨sameAnswers_ingest_ingest hRun first, by decide +kernel, by decide +kernel,
    by decide +kernel⟩

end Rivals

end CodeAtlas
