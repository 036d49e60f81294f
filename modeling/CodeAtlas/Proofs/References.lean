import CodeAtlas.Proofs.Recursion

/-!
# The references of an extraction

What the extractor gives for a file holds together. Apart from the module of the file, every entity
is a declaration that something contains, or a module from outside of the file set that the file
imports. And a relation starts and ends where it should: what is contained, and what calls or
extends, is an entity, and what imports or exports is the file.

## Main definitions

* `CodeAtlas.Fact.Tied` — a fact refers to what other facts name.
* `CodeAtlas.Extraction.Coherent` — an extraction holds together.

## Main results

* `CodeAtlas.Subject.tied_contribution` — a node ties every fact that it contributes.
* `CodeAtlas.Subject.tied_visit` — so does a tree.
* `CodeAtlas.Extractor.coherent_extract` — what the extractor gives holds together.

## Design

The facts of a tree come with repetitions, and of two entities of one identifier only the first
counts. So what is shown of the facts is what survives this: that there is an entity of the
identifier, and not which one.
-/

set_option autoImplicit false

namespace CodeAtlas

/-! ## Facts that refer to facts -/

namespace Fact

/-- Some entity among the facts has the identifier. -/
def Names (facts : List Fact) (id : String) : Prop :=
  ∃ found : Entity, Fact.entity found ∈ facts ∧ found.id = id

/-- A fact refers to what the facts name: a declaration is contained in something, and a module from
outside is imported by the file; what is contained is an entity; what calls or extends is an entity;
what imports or exports is the file. Only in Rust may what contains or implements be known by name
alone. -/
def Tied (subject : Subject) (facts : List Fact) : Fact → Prop
  | .entity found =>
    (found.path = subject.path ∧ found.chunkId = subject.chunkId ∧
      ∃ owner, Fact.relation owner found.id .contains ∈ facts) ∨
    (found = .external found.id ∧ Fact.relation subject.path found.id .imports ∈ facts)
  | .relation source target .contains =>
    Names facts target ∧
      (subject.language = .rust ∨ source = subject.path ∨ Names facts source)
  | .relation source _ .imports => source = subject.path
  | .relation source _ .exports => source = subject.path
  | .relation source _ .calls => Names facts source
  | .relation source _ .inherits => Names facts source
  | .relation source _ .implements => subject.language = .rust ∨ Names facts source

/-- More facts name more. -/
private lemma Names.mono {facts more : List Fact} {id : String} (hSubset : facts ⊆ more)
    (h : Names facts id) : Names more id := by
  obtain ⟨found, hMem, hId⟩ := h
  exact ⟨found, hSubset hMem, hId⟩

/-- A fact stays tied among more facts. -/
lemma Tied.mono {subject : Subject} {facts more : List Fact} {fact : Fact}
    (hSubset : facts ⊆ more) (h : Tied subject facts fact) : Tied subject more fact := by
  cases fact with
  | entity found =>
    rcases h with ⟨hPath, hChunk, owner, hOwner⟩ | ⟨hExternal, hImport⟩
    · exact Or.inl ⟨hPath, hChunk, owner, hSubset hOwner⟩
    · exact Or.inr ⟨hExternal, hSubset hImport⟩
  | relation source target kind =>
    cases kind with
    | contains => exact h.imp (.mono hSubset) (.imp_right (.imp_right (.mono hSubset)))
    | imports => exact h
    | exports => exact h
    | calls => exact Names.mono hSubset h
    | inherits => exact Names.mono hSubset h
    | implements => exact h.imp_right (.mono hSubset)

end Fact

/-! ## What a node contributes -/

namespace Subject

variable (subject : Subject)

/-- The facts that steps record. -/
def recorded (steps : List Step) : List Fact := steps.flatMap subject.factsOf

/-- The facts of steps are tied among the given facts, if these hold them. -/
def Ties (facts : List Fact) (steps : List Step) : Prop :=
  subject.recorded steps ⊆ facts → ∀ fact ∈ subject.recorded steps, fact.Tied subject facts

variable {subject} {facts : List Fact}

/-- No step, nothing to be tied. -/
lemma Ties.nil : subject.Ties facts [] := fun _ _ hMem => absurd hMem List.not_mem_nil

/-- Steps after steps. -/
lemma Ties.append {steps more : List Step} (h : subject.Ties facts steps)
    (hMore : subject.Ties facts more) : subject.Ties facts (steps ++ more) := by
  intro hSubset fact hMem
  rw [recorded, List.flatMap_append] at hSubset hMem
  obtain ⟨hLeft, hRight⟩ := List.append_subset.1 hSubset
  rcases List.mem_append.1 hMem with hMem | hMem
  · exact h hLeft fact hMem
  · exact hMore hRight fact hMem

/-- The steps of several items. -/
lemma Ties.flatMap {α : Type} {items : List α} {steps : α → List Step}
    (h : ∀ item ∈ items, subject.Ties facts (steps item)) :
    subject.Ties facts (items.flatMap steps) := by
  induction items with
  | nil => exact .nil
  | cons item rest ih =>
    rw [List.flatMap_cons]
    exact .append (h item List.mem_cons_self) (ih fun other hOther =>
      h other (List.mem_cons_of_mem _ hOther))

/-- One relation for each of several items. -/
lemma Ties.map_record {α : Type} {items : List α} {fact : α → Fact}
    (h : ∀ item ∈ items, (fact item).Tied subject facts) :
    subject.Ties facts (items.map fun item => .record (fact item)) := by
  intro _ found hMem
  obtain ⟨step, hStep, hFound⟩ := List.mem_flatMap.1 hMem
  obtain ⟨item, hItem, rfl⟩ := List.mem_map.1 hStep
  rw [List.mem_singleton.1 hFound]
  exact h item hItem

/-- The calls of a caller that is named are tied. -/
private lemma ties_scan {caller : String} (scope : ParseTree) (hCaller : Fact.Names facts caller) :
    subject.Ties facts [.scan caller scope] := by
  intro _ fact hMem
  obtain ⟨step, hStep, hFact⟩ := List.mem_flatMap.1 hMem
  cases List.mem_singleton.1 hStep
  obtain ⟨callee, -, rfl⟩ := List.mem_map.1 hFact
  exact hCaller

/-- An entity that steps record is named. -/
lemma names_of_mem_steps {steps : List Step} (entity : Entity)
    (hMem : Step.record (.entity entity) ∈ steps) (hSubset : subject.recorded steps ⊆ facts) :
    Fact.Names facts entity.id :=
  ⟨entity, hSubset (List.mem_flatMap.2 ⟨_, hMem, List.mem_singleton_self _⟩), rfl⟩

/-- A declaration is contained in its owner. -/
lemma ties_declare {ownerId id name : String} {kind : EntityKind} {node : ParseTree}
    (hOwner : subject.language = .rust ∨ ownerId = subject.path ∨ Fact.Names facts ownerId) :
    subject.Ties facts (subject.declare ownerId id name kind node) := by
  intro hSubset fact hMem
  have hFacts : subject.recorded (subject.declare ownerId id name kind node) =
      [.entity (subject.entityOf id name kind node), .relation ownerId id .contains] := rfl
  rw [hFacts] at hMem
  rcases List.mem_cons.1 hMem with rfl | hMem
  · refine Or.inl ⟨rfl, rfl, ownerId, hSubset ?_⟩
    rw [hFacts]
    exact List.mem_cons_of_mem _ (List.mem_singleton_self _)
  · cases List.mem_singleton.1 hMem
    exact ⟨names_of_mem_steps _ List.mem_cons_self hSubset, hOwner⟩

/-- A declaration and the calls in it. -/
lemma ties_declare_scan {ownerId id name : String} {kind : EntityKind} {node scope : ParseTree}
    (hOwner : subject.language = .rust ∨ ownerId = subject.path ∨ Fact.Names facts ownerId) :
    subject.Ties facts (subject.declare ownerId id name kind node ++ [.scan id scope]) := by
  intro hSubset
  have hNamed : Fact.Names facts id :=
    names_of_mem_steps (subject.entityOf id name kind node) List.mem_cons_self hSubset
  exact Ties.append (ties_declare hOwner) (ties_scan scope hNamed) hSubset

/-- A member is contained in its owner, and its calls are its own. -/
lemma ties_member {ownerId owner : String} {node : ParseTree}
    (hOwner : subject.language = .rust ∨ ownerId = subject.path ∨ Fact.Names facts ownerId) :
    subject.Ties facts (subject.member ownerId owner node) := by
  unfold member
  split
  · exact .nil
  · exact ties_declare_scan hOwner

/-- A function is contained in the file, and its calls are its own. -/
private lemma ties_function {name : String} {node value : ParseTree} :
    subject.Ties facts (subject.function name node value) :=
  ties_declare_scan (Or.inr (Or.inl rfl))

/-- A module from outside is imported. -/
private lemma ties_importSteps (specifier : String) :
    subject.Ties facts (subject.importSteps specifier) := by
  intro hSubset fact hMem
  unfold importSteps at hSubset hMem
  dsimp only at hSubset hMem
  split at hMem
  · cases List.mem_singleton.1 hMem
    rfl
  · next hBare =>
    rw [if_neg hBare] at hSubset
    rcases List.mem_cons.1 hMem with rfl | hMem
    · exact Or.inr ⟨rfl, hSubset (List.mem_cons_of_mem _ (List.mem_singleton_self _))⟩
    · cases List.mem_singleton.1 hMem
      rfl

/-- A class extends or implements what its heritage names. -/
private lemma kind_of_mem_heritage {clauses : List ParseTree} {base : String} {kind : RelationKind}
    (h : (base, kind) ∈ subject.heritage clauses) : kind = .inherits ∨ kind = .implements := by
  induction clauses with
  | nil => cases h
  | cons clause rest ih =>
    unfold heritage at h
    split at h
    · rcases List.mem_append.1 h with h | h
      · obtain ⟨_, -, hEq⟩ := List.mem_map.1 h
        exact Or.inl (congrArg Prod.snd hEq).symm
      · exact ih h
    · rcases List.mem_append.1 h with h | h
      · obtain ⟨_, -, hEq⟩ := List.mem_map.1 h
        exact Or.inr (congrArg Prod.snd hEq).symm
      · exact ih h
    · obtain ⟨_, -, hEq⟩ := List.mem_map.1 h
      exact Or.inl (congrArg Prod.snd hEq).symm

/-- A class extends or implements. -/
lemma kind_of_mem_ancestry {node : ParseTree} {base : String} {kind : RelationKind}
    (h : (base, kind) ∈ subject.ancestry node) : kind = .inherits ∨ kind = .implements := by
  unfold ancestry at h
  split at h
  · obtain ⟨_, -, hEq⟩ := List.mem_map.1 h
    exact Or.inl (congrArg Prod.snd hEq).symm
  · cases h
  · split at h
    · cases h
    · exact kind_of_mem_heritage h

/-- A class is contained in the file, extends and implements itself, and contains its members. -/
private lemma ties_classSteps (node : ParseTree) :
    subject.Ties facts (subject.classSteps node) := by
  unfold classSteps
  split
  · exact .nil
  · next name hName =>
    intro hSubset
    have hClass : Fact.Names facts (subject.symbolId name) :=
      names_of_mem_steps (subject.entityOf _ name .classLike node) List.mem_cons_self hSubset
    refine Ties.append (.append (ties_declare (Or.inr (Or.inl rfl))) (.map_record ?_))
      (.flatMap fun method _ => ties_member (Or.inr (Or.inr hClass))) hSubset
    rintro ⟨base, kind⟩ hBase
    rcases kind_of_mem_ancestry hBase with rfl | rfl
    · exact hClass
    · exact Or.inr hClass

/-- An interface is contained in the file and extends itself; only a trait contains members. -/
private lemma ties_interfaceSteps (node : ParseTree) :
    subject.Ties facts (subject.interfaceSteps node) := by
  unfold interfaceSteps
  split
  · exact .nil
  · next name hName =>
    intro hSubset
    have hInterface : Fact.Names facts (subject.symbolId name) :=
      names_of_mem_steps (subject.entityOf _ name .interface node) List.mem_cons_self hSubset
    refine Ties.append (.append (ties_declare (Or.inr (Or.inl rfl)))
      (.map_record fun base _ => hInterface)) ?_ hSubset
    split
    · exact .flatMap fun method _ => ties_member (Or.inr (Or.inr hInterface))
    · exact .nil

/-- Only Rust has blocks that give methods to a type. -/
private lemma language_eq_rust_of_category {cursor : Cursor}
    (h : subject.category? cursor = some .implementation) : subject.language = .rust := by
  have hEcmaScript : ∀ kind, Category.ofEcmaScript? kind ≠ some .implementation := by
    intro kind
    unfold Category.ofEcmaScript?
    split <;> simp
  have hPython : ∀ kind, Category.ofPython? kind ≠ some .implementation := by
    intro kind
    unfold Category.ofPython?
    split <;> simp
  unfold category? Category.of? at h
  split at h
  · exact absurd h (hEcmaScript _)
  · exact absurd h (hEcmaScript _)
  · exact absurd h (hEcmaScript _)
  · exact absurd h (hPython _)
  · next hLanguage => exact hLanguage
  · cases h

/-- **A node ties every fact that it contributes.**

**Proof sketch.** The steps of a node tie what they contribute (`Ties`). One case for each category,
and one lemma for the steps that several categories share. -/
theorem tied_contribution (cursor : Cursor) :
    ∀ fact ∈ subject.contribution cursor, fact.Tied subject (subject.contribution cursor) := by
  suffices hTies : subject.Ties (subject.contribution cursor) (subject.steps cursor) from
    hTies (List.Subset.refl _)
  unfold steps
  split
  · exact .nil
  · exact .flatMap fun specifier _ => ties_importSteps specifier
  · unfold functionSteps
    split
    · exact .nil
    · split
      · exact .nil
      · exact ties_function
  · refine .flatMap fun declarator _ => ?_
    unfold declaratorSteps
    split
    · split
      · exact ties_function
      · exact .nil
    · exact .nil
  · exact ties_classSteps _
  · exact ties_interfaceSteps _
  · unfold aliasSteps
    split
    · exact .nil
    · exact ties_declare (Or.inr (Or.inl rfl))
  · next hCategory =>
    have hRust := language_eq_rust_of_category hCategory
    unfold implementationSteps
    split
    · exact .nil
    · exact .append (.map_record fun contract _ => Or.inl hRust)
        (.flatMap fun method _ => ties_member (Or.inl hRust))
  · exact .nil

/-- **A tree ties every fact that it tells.** -/
theorem tied_visit (root : Cursor) :
    ∀ fact ∈ subject.visit root, fact.Tied subject (subject.visit root) := by
  intro fact hMem
  obtain ⟨node, hNode, hFact | hFact⟩ := mem_visit_iff.1 hMem
  · exact (tied_contribution node fact hFact).mono fun other hOther =>
      mem_visit_iff.2 ⟨node, hNode, Or.inl hOther⟩
  · obtain ⟨name, -, rfl⟩ := List.mem_map.1 hFact
    exact rfl

end Subject

/-! ## Collected facts -/

namespace Extraction

/-- An extraction names an identifier if an entity among the facts has it.

**Proof sketch.** An entity of the extraction is one of the facts. For the converse, induction on
the facts, the last one first: a later fact takes no identifier away, and an entity is left out only
if its identifier is there. -/
lemma mem_ids_ofFacts {facts : List Fact} {id : String} :
    id ∈ (ofFacts facts).entities.map Entity.id ↔ Fact.Names facts id := by
  constructor
  · intro h
    obtain ⟨entity, hMem, hId⟩ := List.mem_map.1 h
    exact ⟨entity, mem_facts_of_mem_entities hMem, hId⟩
  · rintro ⟨entity, hMem, rfl⟩
    induction facts using List.reverseRecOn with
    | nil => cases hMem
    | append_singleton facts fact ih =>
      rw [ofFacts_concat]
      rcases List.mem_append.1 hMem with hMem | hMem
      · rcases entities_insert (ofFacts facts) fact with hSame | ⟨added, -, -, hMore⟩
        · rw [hSame]
          exact ih hMem
        · rw [hMore, List.map_append]
          exact List.mem_append_left _ (ih hMem)
      · obtain rfl := List.mem_singleton.1 hMem
        unfold insert
        dsimp only
        split
        · next hThere =>
          obtain ⟨other, hOther, hId⟩ := List.any_eq_true.1 hThere
          exact List.mem_map.2 ⟨other, hOther, eq_of_beq hId⟩
        · exact List.mem_map_of_mem (List.mem_append_right _ (List.mem_singleton_self _))

/-- A fact adds a relation that is new, or no relation. -/
lemma relations_insert (extraction : Extraction) (fact : Fact) :
    (extraction.insert fact).relations = extraction.relations ∨
      ∃ source target kind, fact = .relation source target kind ∧
        (source, target, kind) ∉ extraction.relations.map Relation.key ∧
        (extraction.insert fact).relations =
          extraction.relations ++ [{ sourceId := source, targetId := target, kind }] := by
  cases fact with
  | entity entity =>
    unfold insert
    dsimp only
    split <;> exact Or.inl rfl
  | relation source target kind =>
    unfold insert
    dsimp only
    split
    · exact Or.inl rfl
    · next hNew => exact Or.inr ⟨source, target, kind, rfl, by simpa using hNew, rfl⟩

/-- Each relation is there once. -/
lemma nodup_keys_ofFacts (facts : List Fact) :
    ((ofFacts facts).relations.map Relation.key).Nodup := by
  induction facts using List.reverseRecOn with
  | nil => exact List.nodup_nil
  | append_singleton facts fact ih =>
    rw [ofFacts_concat]
    rcases relations_insert (ofFacts facts) fact with hSame | ⟨_, _, _, -, hNew, hMore⟩
    · rwa [hSame]
    · rw [hMore, List.map_append, List.map_singleton, ← List.concat_eq_append]
      exact List.Nodup.concat hNew ih

/-- An extraction has a relation if it is among the facts. -/
lemma mem_keys_ofFacts {facts : List Fact} {source target : String} {kind : RelationKind} :
    (source, target, kind) ∈ (ofFacts facts).relations.map Relation.key ↔
      .relation source target kind ∈ facts := by
  constructor
  · induction facts using List.reverseRecOn with
    | nil =>
      intro h
      cases h
    | append_singleton facts fact ih =>
      intro h
      rw [ofFacts_concat] at h
      rcases relations_insert (ofFacts facts) fact with hSame | ⟨_, _, _, rfl, -, hMore⟩
      · rw [hSame] at h
        exact List.mem_append_left _ (ih h)
      · rw [hMore, List.map_append, List.mem_append] at h
        rcases h with h | h
        · exact List.mem_append_left _ (ih h)
        · cases List.mem_singleton.1 h
          exact List.mem_append_right _ (List.mem_singleton_self _)
  · intro h
    obtain ⟨relation, hMem, hKey⟩ := exists_relation_of_mem_facts h
    exact List.mem_map.2 ⟨relation, hMem, hKey⟩

/-- **An extraction holds together.** The first entity is the module of the file, and covers its
lines. Identifiers and relations are there once. Any other entity is a declaration of the file,
taken down with the given chunk, that something contains, or a module without lines and without a
chunk that the file imports. What is contained is an entity, what calls or extends is one, and what
imports or exports is the file. Unless the file is in Rust, what contains and what implements is an
entity too. -/
structure Coherent (extraction : Extraction) (file : SourceFile) (chunkId : Option String)
    (language? : Option Language) : Prop where
  module_first : ∃ fileModule, extraction.module? = some fileModule ∧ fileModule.kind = .module ∧
    fileModule.id = file.path ∧ fileModule.startLine = 1 ∧
    fileModule.endLine = max 1 (Text.lineCount file.content)
  ids_nodup : (extraction.entities.map Entity.id).Nodup
  keys_nodup : (extraction.relations.map Relation.key).Nodup
  entity_tied : ∀ entity ∈ extraction.entities.tail,
    (entity.path = file.path ∧ entity.chunkId = chunkId ∧
      ∃ relation ∈ extraction.relations,
        relation.kind = .contains ∧ relation.targetId = entity.id) ∨
    (entity.kind = .module ∧ entity.startLine = 0 ∧ entity.endLine = 0 ∧ entity.chunkId = none ∧
      ∃ relation ∈ extraction.relations,
        relation.kind = .imports ∧ relation.sourceId = file.path ∧ relation.targetId = entity.id)
  contained_named : ∀ relation ∈ extraction.relations, relation.kind = .contains →
    relation.targetId ∈ extraction.entities.map Entity.id
  caller_named : ∀ relation ∈ extraction.relations,
    relation.kind = .calls ∨ relation.kind = .inherits →
    relation.sourceId ∈ extraction.entities.map Entity.id
  importer_eq : ∀ relation ∈ extraction.relations,
    relation.kind = .imports ∨ relation.kind = .exports → relation.sourceId = file.path
  owner_named : language? ≠ some .rust → ∀ relation ∈ extraction.relations,
    relation.kind = .contains ∨ relation.kind = .implements →
    relation.sourceId ∈ extraction.entities.map Entity.id

/-- The module of a file alone holds together. -/
private lemma coherent_ofModule (file : SourceFile) (chunkId : Option String)
    (language? : Option Language) :
    (ofModule (.ofFile file.path file.content chunkId)).Coherent file chunkId language? where
  module_first := ⟨_, rfl, rfl, rfl, rfl, Nat.max_comm _ _⟩
  ids_nodup := List.nodup_singleton _
  keys_nodup := List.nodup_nil
  entity_tied := fun _ hMem => absurd hMem List.not_mem_nil
  contained_named := fun _ hMem => absurd hMem List.not_mem_nil
  caller_named := fun _ hMem => absurd hMem List.not_mem_nil
  importer_eq := fun _ hMem => absurd hMem List.not_mem_nil
  owner_named := fun _ _ hMem => absurd hMem List.not_mem_nil

section

variable {file : SourceFile} {chunkId : Option String} {language : Language} {facts : List Fact}

/-- A relation that is collected is as tied as the facts are. -/
private lemma tied_of_mem_relations {subject : Subject} {fileModule : Entity} {relation : Relation}
    (hTied : ∀ fact ∈ facts, fact.Tied subject facts)
    (hMem : relation ∈ (ofFacts (.entity fileModule :: facts)).relations) :
    Fact.Tied subject (.entity fileModule :: facts)
      (.relation relation.sourceId relation.targetId relation.kind) := by
  have hFact := mem_keys_ofFacts.1 (List.mem_map_of_mem hMem)
  rcases List.mem_cons.1 hFact with hFact | hFact
  · cases hFact
  · exact (hTied _ hFact).mono (List.subset_cons_self _ _)

/-- Behind the first entity there are only entities of the facts behind the first fact. -/
private lemma mem_facts_of_mem_tail {fileModule entity : Entity}
    (h : entity ∈ (ofFacts (.entity fileModule :: facts)).entities.tail) :
    .entity entity ∈ facts := by
  have hFirst := module?_ofFacts_cons fileModule facts
  have hNodup := nodup_ids_ofFacts (.entity fileModule :: facts)
  have hMem := mem_facts_of_mem_entities (List.mem_of_mem_tail h)
  rw [module?, List.head?_eq_some_iff] at hFirst
  obtain ⟨later, hLater⟩ := hFirst
  rw [hLater, List.map_cons, List.nodup_cons] at hNodup
  rw [hLater, List.tail_cons] at h
  rcases List.mem_cons.1 hMem with hSame | hMem
  · cases hSame
    exact absurd (List.mem_map_of_mem h) hNodup.1
  · exact hMem

/-- Tied facts of a file, its module first, give an extraction that holds together.

**Proof sketch.** The facts and the extraction have the same relations but for repetitions, and the
same identifiers (`mem_ids_ofFacts`). So each fact of the extraction is tied to something in it as
it was among the facts, and the cases are read off. -/
private lemma coherent_ofFacts
    (hTied : ∀ fact ∈ facts, fact.Tied ⟨language, file.path, file.content, chunkId⟩ facts) :
    (ofFacts (.entity (.ofFile file.path file.content chunkId) :: facts)).Coherent file chunkId
      (some language) where
  module_first := ⟨_, module?_ofFacts_cons _ _, rfl, rfl, rfl, Nat.max_comm _ _⟩
  ids_nodup := nodup_ids_ofFacts _
  keys_nodup := nodup_keys_ofFacts _
  entity_tied := by
    intro entity hMem
    rcases hTied _ (mem_facts_of_mem_tail hMem) with
      ⟨hPath, hChunk, owner, hOwner⟩ | ⟨hExternal, hImport⟩
    · obtain ⟨relation, hRelation, hKey⟩ :=
        exists_relation_of_mem_facts (List.mem_cons_of_mem _ hOwner)
      simp only [Relation.key, Prod.mk.injEq] at hKey
      exact Or.inl ⟨hPath, hChunk, relation, hRelation, hKey.2.2, hKey.2.1⟩
    · obtain ⟨relation, hRelation, hKey⟩ :=
        exists_relation_of_mem_facts (List.mem_cons_of_mem _ hImport)
      simp only [Relation.key, Prod.mk.injEq] at hKey
      refine Or.inr ⟨?_, ?_, ?_, ?_, relation, hRelation, hKey.2.2, hKey.1, hKey.2.1⟩ <;>
        rw [hExternal] <;> rfl
  contained_named := by
    intro relation hMem hKind
    have hRelation := tied_of_mem_relations hTied hMem
    rw [hKind] at hRelation
    exact mem_ids_ofFacts.2 hRelation.1
  caller_named := by
    intro relation hMem hKind
    have hRelation := tied_of_mem_relations hTied hMem
    rcases hKind with hKind | hKind <;> rw [hKind] at hRelation <;>
      exact mem_ids_ofFacts.2 hRelation
  importer_eq := by
    intro relation hMem hKind
    have hRelation := tied_of_mem_relations hTied hMem
    rcases hKind with hKind | hKind <;> rw [hKind] at hRelation <;> exact hRelation
  owner_named := by
    intro hLanguage relation hMem hKind
    have hRelation := tied_of_mem_relations hTied hMem
    have hNotRust : language ≠ .rust := fun h => hLanguage (congrArg some h)
    rcases hKind with hKind | hKind <;> rw [hKind] at hRelation
    · rcases hRelation.2 with hRust | hFile | hNamed
      · exact absurd hRust hNotRust
      · rw [hFile]
        exact mem_ids_ofFacts.2 ⟨_, List.mem_cons_self, rfl⟩
      · exact mem_ids_ofFacts.2 hNamed
    · rcases hRelation with hRust | hNamed
      · exact absurd hRust hNotRust
      · exact mem_ids_ofFacts.2 hNamed

end

end Extraction

/-! ## The extractor -/

/-- **What the extractor gives holds together**, whatever the file, its tree and its text are, and
whether the walk ends well or not.

**Proof sketch.** Where anything goes wrong the module stands alone. Else the extraction collects
the facts of the tree, and the tree ties them. -/
theorem Extractor.coherent_extract (extractor : Extractor) (grammars : Grammars)
    (file : SourceFile) (chunkId : Option String) :
    (extractor.extract grammars file chunkId).extraction.Coherent file chunkId
      (extractor.pool.provider.detect file.path) := by
  have hAlone := Extraction.coherent_ofModule file chunkId
    (extractor.pool.provider.detect file.path)
  unfold extract
  dsimp only
  split
  · exact hAlone
  · split
    · exact hAlone
    · split
      · exact hAlone
      · next language hDetect =>
        split
        · next extraction hTree =>
          unfold ofTree at hTree
          split at hTree
          · cases hTree
          · rw [Subject.extraction_eq] at hTree
            split at hTree
            · cases hTree
            · split at hTree
              · cases hTree
                rw [hDetect]
                exact Extraction.coherent_ofFacts (Subject.tied_visit _)
              · cases hTree
        · exact hAlone

end CodeAtlas
