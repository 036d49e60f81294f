import Mathlib.Data.List.Induction
import Mathlib.Data.List.Nodup
import CodeAtlas.Extract.Extractor
import CodeAtlas.Proofs.Chunking

/-!
# Extractions are grounded

What the extractor gives for a file starts with the file's module, names each identifier once, and
ties every entity that is not of the file to a relation. So an entity from outside of the file set
comes with the import that named it.

## Main definitions

* `CodeAtlas.Extraction.Produced` — an extraction is what the extractor gives for some file.
* `CodeAtlas.Extraction.Grounded` — identifiers are named once, and foreign entities are tied.
* `CodeAtlas.Subject.contribution` — the facts that a node adds.

## Main results

* `CodeAtlas.Subject.walk_induct` — what each node and each exported name keeps, a walk keeps.
* `CodeAtlas.Extraction.Produced.grounded` — what the extractor gives is grounded.
-/

set_option autoImplicit false

namespace CodeAtlas

namespace Extraction

/-- An extraction that some extractor gives for some file. -/
def Produced (extraction : Extraction) : Prop :=
  ∃ (extractor : Extractor) (grammars : Grammars) (file : SourceFile) (chunkId : Option String),
    extraction = (extractor.extract grammars file chunkId).extraction

/-- Each identifier is named once, and an entity that is not of the module's file is an end of a
relation. -/
structure Grounded (extraction : Extraction) : Prop where
  ids_nodup : (extraction.entities.map Entity.id).Nodup
  foreign_linked : ∀ fileModule entity, extraction.module? = some fileModule →
    entity ∈ extraction.entities → entity.path ≠ fileModule.path →
    ∃ relation ∈ extraction.relations,
      relation.sourceId = entity.id ∨ relation.targetId = entity.id

end Extraction

/-! ## The facts of a walk -/

namespace Subject

/-- The facts that a step records. -/
def factsOf (subject : Subject) : Step → List Fact
  | .record fact => [fact]
  | .scan caller scope =>
    (subject.callees scope).map fun callee => .relation caller callee .calls

/-- The facts that a node adds. -/
def contribution (subject : Subject) (cursor : Cursor) : List Fact :=
  (subject.steps cursor).flatMap subject.factsOf

/-- Recording facts one after the other puts the last one first. -/
lemma foldl_record {α : Type} (fact : α → Fact) (items : List α) : ∀ progress : Progress,
    items.foldl (fun p item => p.record (fact item)) progress =
      { progress with facts := (items.map fact).reverse ++ progress.facts } := by
  induction items with
  | nil => exact fun progress => rfl
  | cons first rest ih =>
    intro progress
    rw [List.foldl_cons, ih, List.map_cons, List.reverse_cons, List.append_assoc]
    rfl

/-- Counting nodes records nothing. -/
lemma facts_of_count {progress after : Progress} {limit nodes : Nat}
    (h : progress.count limit nodes = .ok after) : after.facts = progress.facts := by
  unfold Progress.count at h
  split at h
  · cases h
    rfl
  · cases h

/-- A step adds its facts. -/
private lemma facts_of_perform {subject : Subject} {limit : Nat} {progress after : Progress}
    {step : Step} (h : subject.perform limit progress step = .ok after) :
    after.facts = (subject.factsOf step).reverse ++ progress.facts := by
  cases step with
  | record fact =>
    cases h
    rfl
  | scan caller scope =>
    obtain ⟨counted, hCount, h⟩ := bind_eq_ok_iff.1 h
    cases h
    rw [foldl_record fun callee => Fact.relation caller callee .calls]
    show _ ++ counted.facts = _
    rw [facts_of_count hCount]
    rfl

/-- Several steps add their facts. -/
private lemma facts_of_foldlM {subject : Subject} {limit : Nat} (steps : List Step) :
    ∀ {progress after : Progress}, steps.foldlM (subject.perform limit) progress = .ok after →
      after.facts = (steps.flatMap subject.factsOf).reverse ++ progress.facts := by
  induction steps with
  | nil =>
    intro progress after h
    cases h
    rfl
  | cons step rest ih =>
    intro progress after h
    rw [List.foldlM_cons] at h
    obtain ⟨middle, hStep, hRest⟩ := bind_eq_ok_iff.1 h
    rw [ih hRest, facts_of_perform hStep, List.flatMap_cons, List.reverse_append,
      List.append_assoc]

/-- A visit that stays within the limit makes way for the visits below it. -/
lemma walk_visit {subject : Subject} {limit : Nat} {cursor : Cursor} {rest : List Frame}
    {progress performed : Progress} (hCount : progress.visited + 1 ≤ limit)
    (hSteps : (subject.steps cursor).foldlM (subject.perform limit)
      { progress with visited := progress.visited + 1 } = .ok performed) :
    subject.walk limit (.visit cursor :: rest) progress = subject.walk limit
      (subject.visitsBelow cursor ++ subject.announcement cursor ++ rest) performed := by
  rw [walk, Progress.count, if_pos hCount]
  show (subject.steps cursor).foldlM (subject.perform limit)
    { progress with visited := progress.visited + 1 } >>= _ = _
  rw [hSteps]
  rfl

/-- **Induction over a walk.** What holds of the facts at the start holds at the end, if the
announcement of a name and the contribution of a node keep it.

**Proof sketch.** Induction along the recursion of the walk: it stops, announces a name, or visits a
node and adds what the node contributes. -/
theorem walk_induct {subject : Subject} {limit : Nat} {P : List Fact → Prop}
    (hAnnounce : ∀ name facts, P facts → P (subject.exportFact name :: facts))
    (hVisit : ∀ cursor facts, P facts → P ((subject.contribution cursor).reverse ++ facts))
    {frames : List Frame} {progress after : Progress}
    (h : subject.walk limit frames progress = .ok after) (hStart : P progress.facts) :
    P after.facts := by
  induction frames, progress using Subject.walk.induct subject with
  | case1 progress =>
    rw [walk] at h
    cases h
    exact hStart
  | case2 name rest progress ih =>
    rw [walk] at h
    exact ih h (hAnnounce name progress.facts hStart)
  | case3 cursor rest progress ih =>
    rw [walk] at h
    obtain ⟨counted, hCount, h⟩ := bind_eq_ok_iff.1 h
    obtain ⟨performed, hPerformed, h⟩ := bind_eq_ok_iff.1 h
    refine ih performed h ?_
    rw [facts_of_foldlM _ hPerformed, facts_of_count hCount]
    exact hVisit cursor progress.facts hStart

end Subject

/-! ## Entities and their relations -/

/-- Every entity among the facts is of the file, or a relation leads to it. -/
def Fact.Linked (path : String) (facts : List Fact) : Prop :=
  ∀ entity, .entity entity ∈ facts →
    entity.path = path ∨ ∃ source kind, .relation source entity.id kind ∈ facts

/-- More facts do no harm. -/
private lemma Fact.Linked.append {path : String} {facts more : List Fact} (h : Linked path facts)
    (hMore : Linked path more) : Linked path (facts ++ more) := by
  intro entity hMem
  rcases List.mem_append.1 hMem with hMem | hMem
  · exact (h entity hMem).imp_right fun ⟨source, kind, hRelation⟩ =>
      ⟨source, kind, List.mem_append_left _ hRelation⟩
  · exact (hMore entity hMem).imp_right fun ⟨source, kind, hRelation⟩ =>
      ⟨source, kind, List.mem_append_right _ hRelation⟩

/-- The order of the facts does not matter. -/
private lemma Fact.linked_reverse {path : String} {facts : List Fact} :
    Linked path facts.reverse ↔ Linked path facts := by
  simp only [Linked, List.mem_reverse]

/-- The step records no entity but of the file. -/
def Step.IsOf (path : String) : Step → Prop
  | .record (.entity entity) => entity.path = path
  | _ => True

namespace Subject

variable (subject : Subject)

/-- A declared entity is of the file. -/
lemma isOf_of_mem_declare {ownerId id name : String} {kind : EntityKind} {node : ParseTree} :
    ∀ step ∈ subject.declare ownerId id name kind node, step.IsOf subject.path := by
  simp [declare, Step.IsOf, entityOf]

/-- A member is of the file. -/
private lemma isOf_of_mem_member {ownerId owner : String} {node : ParseTree} :
    ∀ step ∈ subject.member ownerId owner node, step.IsOf subject.path := by
  unfold member
  split
  · simp
  · rw [List.forall_mem_append]
    exact ⟨subject.isOf_of_mem_declare, by simp [Step.IsOf]⟩

/-- A function is of the file. -/
lemma isOf_of_mem_function {name : String} {node value : ParseTree} :
    ∀ step ∈ subject.function name node value, step.IsOf subject.path := by
  unfold function
  rw [List.forall_mem_append]
  exact ⟨subject.isOf_of_mem_declare, by simp [Step.IsOf]⟩

/-- Members are of the file. -/
lemma isOf_of_mem_members {ownerId owner : String} {nodes : List ParseTree} :
    ∀ step ∈ nodes.flatMap (subject.member ownerId owner), step.IsOf subject.path := by
  intro step hStep
  obtain ⟨node, -, hStep⟩ := List.mem_flatMap.1 hStep
  exact subject.isOf_of_mem_member step hStep

/-- A function that is no member is of the file. -/
private lemma isOf_of_mem_functionSteps {cursor : Cursor} :
    ∀ step ∈ subject.functionSteps cursor, step.IsOf subject.path := by
  unfold functionSteps
  split
  · simp
  · split
    · simp
    · exact subject.isOf_of_mem_function

/-- Functions that are bound to names are of the file. -/
private lemma isOf_of_mem_bindingSteps {statement : ParseTree} :
    ∀ step ∈ subject.bindingSteps statement, step.IsOf subject.path := by
  intro step hStep
  obtain ⟨declarator, -, hStep⟩ := List.mem_flatMap.1 hStep
  unfold declaratorSteps at hStep
  split at hStep
  · split at hStep
    · exact subject.isOf_of_mem_function step hStep
    · cases hStep
  · cases hStep

/-- A class and its members are of the file. -/
private lemma isOf_of_mem_classSteps {node : ParseTree} :
    ∀ step ∈ subject.classSteps node, step.IsOf subject.path := by
  unfold classSteps
  split
  · simp
  · rw [List.forall_mem_append, List.forall_mem_append]
    refine ⟨⟨subject.isOf_of_mem_declare, fun step hStep => ?_⟩, subject.isOf_of_mem_members⟩
    obtain ⟨⟨base, kind⟩, -, rfl⟩ := List.mem_map.1 hStep
    trivial

/-- An interface and its members are of the file. -/
private lemma isOf_of_mem_interfaceSteps {node : ParseTree} :
    ∀ step ∈ subject.interfaceSteps node, step.IsOf subject.path := by
  unfold interfaceSteps
  split
  · simp
  · dsimp only
    rw [List.forall_mem_append, List.forall_mem_append]
    refine ⟨⟨subject.isOf_of_mem_declare, by simp [Step.IsOf]⟩, ?_⟩
    split
    · exact subject.isOf_of_mem_members
    · simp

/-- A type alias is of the file. -/
private lemma isOf_of_mem_aliasSteps {node : ParseTree} :
    ∀ step ∈ subject.aliasSteps node, step.IsOf subject.path := by
  unfold aliasSteps
  split
  · simp
  · exact subject.isOf_of_mem_declare

/-- The methods that a block gives to a type are of the file. -/
private lemma isOf_of_mem_implementationSteps {node : ParseTree} :
    ∀ step ∈ subject.implementationSteps node, step.IsOf subject.path := by
  unfold implementationSteps
  split
  · simp
  · dsimp only
    rw [List.forall_mem_append]
    exact ⟨by simp [Step.IsOf], subject.isOf_of_mem_members⟩

/-- What a node other than an import records is of the file. -/
private lemma isOf_of_mem_steps {cursor : Cursor}
    (hCategory : subject.category? cursor ≠ some .importing) :
    ∀ step ∈ subject.steps cursor, step.IsOf subject.path := by
  unfold steps
  split
  · simp
  · next hImport => exact absurd hImport hCategory
  · exact subject.isOf_of_mem_functionSteps
  · exact subject.isOf_of_mem_bindingSteps
  · exact subject.isOf_of_mem_classSteps
  · exact subject.isOf_of_mem_interfaceSteps
  · exact subject.isOf_of_mem_aliasSteps
  · exact subject.isOf_of_mem_implementationSteps
  · simp

/-- An entity among the contributions of a node was recorded by one of its steps. -/
private lemma mem_steps_of_entity_mem_contribution {cursor : Cursor} {entity : Entity}
    (h : Fact.entity entity ∈ subject.contribution cursor) :
    Step.record (.entity entity) ∈ subject.steps cursor := by
  obtain ⟨step, hStep, hMem⟩ := List.mem_flatMap.1 h
  cases step with
  | record fact =>
    rw [List.mem_singleton.1 hMem]
    exact hStep
  | scan caller scope => simp [factsOf] at hMem

/-- The relation of an import follows the entity that it names. -/
private lemma exists_relation_of_mem_importSteps {specifier : String} {entity : Entity}
    (h : Step.record (.entity entity) ∈ subject.importSteps specifier) :
    Step.record (.relation subject.path entity.id .imports) ∈ subject.importSteps specifier := by
  unfold importSteps at h ⊢
  dsimp only at h ⊢
  split at h
  · simp at h
  · next hBare =>
    have hEntity : entity = .external (Path.resolveImport subject.path specifier) := by
      simpa using h
    rw [hEntity, if_neg hBare]
    simp [Entity.external]

/-- **A node links what it names.** An entity that a node contributes is of the file, or the node
contributes an import of it. -/
theorem linked_contribution (cursor : Cursor) :
    Fact.Linked subject.path (subject.contribution cursor) := by
  intro entity hMem
  have hStep := subject.mem_steps_of_entity_mem_contribution hMem
  by_cases hCategory : subject.category? cursor = some .importing
  · refine Or.inr ⟨subject.path, .imports, ?_⟩
    have hSteps : subject.steps cursor =
        (subject.specifiers cursor.tree).flatMap subject.importSteps := by
      rw [steps, hCategory]
    rw [hSteps] at hStep
    obtain ⟨specifier, hSpecifier, hStep⟩ := List.mem_flatMap.1 hStep
    refine List.mem_flatMap.2
      ⟨.record (.relation subject.path entity.id .imports), ?_, List.mem_singleton_self _⟩
    rw [hSteps]
    exact List.mem_flatMap.2
      ⟨specifier, hSpecifier, subject.exists_relation_of_mem_importSteps hStep⟩
  · exact Or.inl (subject.isOf_of_mem_steps hCategory _ hStep)

end Subject

/-! ## Facts without repetition -/

namespace Extraction

/-- The last fact is the last to be put in. -/
lemma ofFacts_concat (facts : List Fact) (fact : Fact) :
    ofFacts (facts ++ [fact]) = (ofFacts facts).insert fact := by
  unfold ofFacts
  rw [List.foldl_append]
  rfl

/-- A fact adds an entity of a new identifier, or no entity. -/
lemma entities_insert (extraction : Extraction) (fact : Fact) :
    (extraction.insert fact).entities = extraction.entities ∨
      ∃ entity, fact = .entity entity ∧ entity.id ∉ extraction.entities.map Entity.id ∧
        (extraction.insert fact).entities = extraction.entities ++ [entity] := by
  cases fact with
  | entity entity =>
    unfold insert
    dsimp only
    split
    · exact Or.inl rfl
    · next hNew => exact Or.inr ⟨entity, rfl, by simpa using hNew, rfl⟩
  | relation source target kind =>
    unfold insert
    dsimp only
    split <;> exact Or.inl rfl

/-- A relation that is there stays. -/
private lemma mem_relations_insert {extraction : Extraction} {relation : Relation} (fact : Fact)
    (h : relation ∈ extraction.relations) : relation ∈ (extraction.insert fact).relations := by
  cases fact with
  | entity entity =>
    unfold insert
    dsimp only
    split <;> exact h
  | relation source target kind =>
    unfold insert
    dsimp only
    split
    · exact h
    · exact List.mem_append_left _ h

/-- The identifiers are named once. -/
lemma nodup_ids_ofFacts (facts : List Fact) :
    ((ofFacts facts).entities.map Entity.id).Nodup := by
  induction facts using List.reverseRecOn with
  | nil => exact List.nodup_nil
  | append_singleton facts fact ih =>
    rw [ofFacts_concat]
    rcases entities_insert (ofFacts facts) fact with hSame | ⟨entity, -, hNew, hMore⟩
    · rwa [hSame]
    · rw [hMore, List.map_append, List.map_singleton, ← List.concat_eq_append]
      exact List.Nodup.concat hNew ih

/-- Every entity is a fact. -/
lemma mem_facts_of_mem_entities {facts : List Fact} {entity : Entity} :
    entity ∈ (ofFacts facts).entities → .entity entity ∈ facts := by
  induction facts using List.reverseRecOn with
  | nil =>
    intro h
    cases h
  | append_singleton facts fact ih =>
    intro h
    rw [ofFacts_concat] at h
    rcases entities_insert (ofFacts facts) fact with hSame | ⟨added, rfl, -, hMore⟩
    · rw [hSame] at h
      exact List.mem_append_left _ (ih h)
    · rw [hMore, List.mem_append, List.mem_singleton] at h
      rcases h with h | rfl
      · exact List.mem_append_left _ (ih h)
      · exact List.mem_append_right _ (List.mem_singleton_self _)

/-- Every relation among the facts is there. -/
lemma exists_relation_of_mem_facts {facts : List Fact} {source target : String}
    {kind : RelationKind} : .relation source target kind ∈ facts →
      ∃ relation ∈ (ofFacts facts).relations, relation.key = (source, target, kind) := by
  induction facts using List.reverseRecOn with
  | nil =>
    intro h
    cases h
  | append_singleton facts fact ih =>
    intro h
    rw [ofFacts_concat]
    rcases List.mem_append.1 h with h | h
    · obtain ⟨relation, hMem, hKey⟩ := ih h
      exact ⟨relation, mem_relations_insert fact hMem, hKey⟩
    · obtain rfl := List.mem_singleton.1 h
      unfold insert
      dsimp only
      split
      · next hThere =>
        obtain ⟨relation, hMem, hKey⟩ := List.any_eq_true.1 hThere
        exact ⟨relation, hMem, eq_of_beq hKey⟩
      · exact ⟨_, List.mem_append_right _ (List.mem_singleton_self _), rfl⟩

/-- The first entity is the one that is recorded first. -/
lemma module?_ofFacts_cons (entity : Entity) (facts : List Fact) :
    (ofFacts (.entity entity :: facts)).module? = some entity := by
  induction facts using List.reverseRecOn with
  | nil => rfl
  | append_singleton facts fact ih =>
    rw [← List.cons_append, ofFacts_concat]
    unfold module? at ih ⊢
    rcases entities_insert (ofFacts (.entity entity :: facts)) fact with
      hSame | ⟨added, -, -, hMore⟩
    · rwa [hSame]
    · rw [hMore, List.head?_append, ih]
      rfl

/-- Linked facts of a file, its module first, give a grounded extraction. -/
private lemma grounded_ofFacts {fileModule : Entity} {facts : List Fact}
    (h : Fact.Linked fileModule.path (.entity fileModule :: facts)) :
    (ofFacts (.entity fileModule :: facts)).Grounded := by
  refine ⟨nodup_ids_ofFacts _, fun first entity hFirst hMem hPath => ?_⟩
  rw [module?_ofFacts_cons] at hFirst
  cases hFirst
  rcases h entity (mem_facts_of_mem_entities hMem) with hOwn | ⟨source, kind, hRelation⟩
  · exact absurd hOwn hPath
  · obtain ⟨relation, hThere, hKey⟩ := exists_relation_of_mem_facts hRelation
    exact ⟨relation, hThere, Or.inr (congrArg (fun key => key.2.1) hKey)⟩

/-- A module alone is grounded. -/
private lemma grounded_ofModule (fileModule : Entity) : (ofModule fileModule).Grounded := by
  refine ⟨List.nodup_singleton _, fun first entity hFirst hMem hPath => ?_⟩
  cases hFirst
  exact absurd (congrArg Entity.path (List.mem_singleton.1 hMem)) hPath

end Extraction

namespace Subject

/-- What a walk gives is grounded.

**Proof sketch.** Induction over the walk (`walk_induct`) with the module as the first fact and all
facts linked. What is announced is an export and names no entity, and the contribution of a node is
linked in itself; putting linked facts together gives a grounded extraction
(`Extraction.grounded_ofFacts`). -/
private lemma grounded_of_extraction_eq_ok {subject : Subject} {limits : ExtractionLimits}
    {fileModule : Entity} {root : ParseTree} {extraction : Extraction}
    (hPath : fileModule.path = subject.path)
    (h : subject.extraction limits fileModule root = .ok extraction) :
    extraction.module? = some fileModule ∧ extraction.Grounded := by
  unfold Subject.extraction at h
  split at h
  · cases h
  · obtain ⟨progress, hWalk, h⟩ := bind_eq_ok_iff.1 h
    cases h
    -- the module stays the first fact, and every later entity is linked
    have hFacts : ∃ later, progress.facts = later ++ [.entity fileModule] ∧
        Fact.Linked subject.path progress.facts := by
      refine walk_induct (P := fun facts => ∃ later, facts = later ++ [.entity fileModule] ∧
        Fact.Linked subject.path facts) ?_ ?_ hWalk ?_
      · rintro name facts ⟨later, hLater, hLinked⟩
        refine ⟨subject.exportFact name :: later, by rw [hLater, List.cons_append], ?_⟩
        have hExport : Fact.Linked subject.path [subject.exportFact name] := by
          simp [Fact.Linked, exportFact]
        exact hExport.append hLinked
      · rintro cursor facts ⟨later, hLater, hLinked⟩
        refine ⟨(subject.contribution cursor).reverse ++ later,
          by rw [hLater, List.append_assoc], ?_⟩
        exact (Fact.linked_reverse.2 (subject.linked_contribution cursor)).append hLinked
      · refine ⟨[], rfl, fun entity hMem => ?_⟩
        cases List.mem_singleton.1 hMem
        exact Or.inl hPath
    obtain ⟨later, hLater, hLinked⟩ := hFacts
    have hReverse : progress.facts.reverse = .entity fileModule :: later.reverse := by
      rw [hLater, List.reverse_append]
      rfl
    rw [← Fact.linked_reverse, hReverse, ← hPath] at hLinked
    rw [hReverse]
    exact ⟨Extraction.module?_ofFacts_cons _ _, Extraction.grounded_ofFacts hLinked⟩

end Subject

/-- **What the extractor gives is grounded.** Its first entity is the module of the file. -/
theorem Extractor.grounded_extract (extractor : Extractor) (grammars : Grammars)
    (file : SourceFile) (chunkId : Option String) :
    (extractor.extract grammars file chunkId).extraction.module? =
        some (Entity.ofFile file.path file.content chunkId) ∧
      (extractor.extract grammars file chunkId).extraction.Grounded := by
  have hAlone := Extraction.grounded_ofModule (Entity.ofFile file.path file.content chunkId)
  unfold extract
  dsimp only
  split
  · exact ⟨rfl, hAlone⟩
  · split
    · exact ⟨rfl, hAlone⟩
    · split
      · exact ⟨rfl, hAlone⟩
      · next language hDetect =>
        split
        · next extraction hTree =>
          unfold ofTree at hTree
          split at hTree
          · cases hTree
          · exact Subject.grounded_of_extraction_eq_ok rfl hTree
        · exact ⟨rfl, hAlone⟩

/-- What the extractor gives is grounded. -/
theorem Extraction.Produced.grounded {extraction : Extraction} (h : extraction.Produced) :
    extraction.Grounded := by
  obtain ⟨extractor, grammars, file, chunkId, rfl⟩ := h
  exact (extractor.grounded_extract grammars file chunkId).2

end CodeAtlas
