import CodeAtlas.Proofs.Demand

/-!
# The calls of an extraction

A relation of kind `calls` leads from a declaration to a plain name that is called in its body. Here
the relations of this kind in the extraction of a file are compared with the declarations and the
calls that its tree has.

## Main definitions

* `CodeAtlas.Subject.HandsOver` — a class, a trait or a block of methods has a method in it.
* `CodeAtlas.Subject.Declares` — a node declares a function under an identifier.
* `CodeAtlas.Subject.CallsIn` — a name is called in a scope.
* `CodeAtlas.Subject.Calls` — a declaration of a tree calls a name.
* `CodeAtlas.Extractor.Walks` — the extractor walks the tree of a file to its end.

## Main results

* `CodeAtlas.Subject.mem_callees_iff` — a scan finds the names that are called in its scope.
* `CodeAtlas.Subject.accountedFor_of_mem_steps`, `scan_mem_steps` — a node scans the bodies of the
  functions that it declares, and nothing else.
* `CodeAtlas.Extractor.mem_keys_extract_iff` — the relations of an extraction are those that a visit
  of the tree takes down.
* `CodeAtlas.Extractor.mem_calls_extract_iff` — the calls of an extraction are those of the tree.

## Design

The declarations are told by the kinds and fields of nodes, not by the steps that a node takes. So a
declaration that were never scanned, and a scan that belongs to no declaration, would show.
-/

set_option autoImplicit false

namespace CodeAtlas

namespace Subject

/-! ## Declarations and calls -/

/-- A class, a trait or a block of methods that has a name hands over a method that is in it. -/
inductive HandsOver (subject : Subject) (node : Cursor) : String → ParseTree → Prop
  | ofClass {owner : String} {item method : ParseTree}
      (hCategory : subject.category? node = some .classLike)
      (hOwner : node.tree.fieldText? "name" subject.text = some owner)
      (hItem : item ∈ bodyItems node.tree) (hMethod : methodOf? item = some method) :
      HandsOver subject node owner method
  | ofTrait {owner : String} {method : ParseTree}
      (hCategory : subject.category? node = some .interface)
      (hRust : subject.language = .rust)
      (hOwner : node.tree.fieldText? "name" subject.text = some owner)
      (hMethod : method ∈ bodyItems node.tree) (hKind : method.kind = "function_item") :
      HandsOver subject node owner method
  | ofBlock {owner : String} {type method : ParseTree}
      (hCategory : subject.category? node = some .implementation)
      (hType : node.tree.child? "type" = some type) (hOwner : subject.typeName? type = some owner)
      (hMethod : method ∈ bodyItems node.tree) (hKind : method.kind = "function_item") :
      HandsOver subject node owner method

/-- A node declares a function under an identifier: it is a function with a name that is no member,
it binds a name to a function, or it hands over a method with a name. -/
inductive Declares (subject : Subject) (node : Cursor) : String → ParseTree → Prop
  | function {name : String} (hCategory : subject.category? node = some .function)
      (hFree : isMember node = false)
      (hName : node.tree.fieldText? "name" subject.text = some name) :
      Declares subject node (subject.symbolId name) node.tree
  | binding {declarator value : ParseTree} {name : String}
      (hCategory : subject.category? node = some .binding)
      (hDeclarator : declarator ∈ node.tree.namedChildren)
      (hKind : declarator.kind = "variable_declarator")
      (hValue : declarator.child? "value" = some value)
      (hFunction : value.kind ∈ NodeKinds.functionValues)
      (hName : declarator.fieldText? "name" subject.text = some name) :
      Declares subject node (subject.symbolId name) value
  | method {owner name : String} {method : ParseTree}
      (hHanded : subject.HandsOver node owner method)
      (hName : method.fieldText? "name" subject.text = some name) :
      Declares subject node (subject.memberId owner name) method

/-- A name is called in a scope: from the scope a call is reached through constructs, and what is
called is an identifier with this text. -/
def CallsIn (subject : Subject) (scope : ParseTree) (callee : String) : Prop :=
  ∃ address call called, Cursor.at? (fun _ => true) ⟨scope, []⟩ address = some call ∧
    call.tree.kind = NodeKinds.call subject.language ∧
    call.tree.child? "function" = some called ∧ called.kind = "identifier" ∧
    called.text? subject.text = some callee

/-- A declaration of a tree calls a name: the walk enters a node that declares it, and the name is
called in its body. -/
def Calls (subject : Subject) (root : Cursor) (caller callee : String) : Prop :=
  ∃ address node function, root.at? subject.descends address = some node ∧
    subject.Declares node caller function ∧ subject.CallsIn (bodyOf function) callee

variable {subject : Subject} {node : Cursor}

/-- The name that a node calls. -/
private lemma callee?_eq_some_iff {call : ParseTree} {callee : String} :
    subject.callee? call = some callee ↔ call.kind = NodeKinds.call subject.language ∧
      ∃ called, call.child? "function" = some called ∧ called.kind = "identifier" ∧
        called.text? subject.text = some callee := by
  unfold callee?
  split
  · next hCall =>
    constructor
    · intro h
      obtain ⟨called, hCalled, hText⟩ := Option.bind_eq_some_iff.1 h
      split at hText
      · next hKind => exact ⟨hCall, called, hCalled, hKind, hText⟩
      · cases hText
    · rintro ⟨-, called, hCalled, hKind, hText⟩
      exact Option.bind_eq_some_iff.2 ⟨called, hCalled, by rw [if_pos hKind, hText]⟩
  · next hOther =>
    constructor
    · intro h
      cases h
    · rintro ⟨hCall, -⟩
      exact absurd hCall hOther

/-- **A scan finds the names that are called in its scope.**

**Proof sketch.** The scan goes through the constructs of the scope, which are the cursors of its
tour and so its addresses (`Cursor.mem_tour_iff`), and keeps the calls that name something
(`callee?_eq_some_iff`). -/
theorem mem_callees_iff {scope : ParseTree} {callee : String} :
    callee ∈ subject.callees scope ↔ subject.CallsIn scope callee := by
  rw [callees, scope.constructs_eq [], List.filterMap_map, List.mem_filterMap]
  constructor
  · rintro ⟨call, hCall, hCallee⟩
    obtain ⟨address, hAddress⟩ := Cursor.mem_tour_iff.1 hCall
    obtain ⟨hKind, called, hCalled⟩ := callee?_eq_some_iff.1 hCallee
    exact ⟨address, call, called, hAddress, hKind, hCalled⟩
  · rintro ⟨address, call, called, hAddress, hKind, hCalled⟩
    exact ⟨call, Cursor.mem_tour_iff.2 ⟨address, hAddress⟩,
      callee?_eq_some_iff.2 ⟨hKind, called, hCalled⟩⟩

/-! ## Scans and declarations -/

end Subject

/-- A step of a node is accounted for: a fact that it records is no call, and a scan is that of the
body of a function that the node declares. -/
def Step.AccountedFor (subject : Subject) (node : Cursor) : Step → Prop
  | .record fact => ∀ source target, fact ≠ .relation source target .calls
  | .scan caller scope =>
    ∃ function, subject.Declares node caller function ∧ scope = Subject.bodyOf function

namespace Subject

variable {subject : Subject} {node : Cursor} {step : Step}

/-- What declares an entity records no call. -/
lemma accountedFor_of_mem_declare {ownerId id name : String} {kind : EntityKind}
    {tree : ParseTree} (h : step ∈ subject.declare ownerId id name kind tree) :
    step.AccountedFor subject node := by
  unfold declare at h
  rcases List.mem_pair.1 h with rfl | rfl
  · intro source target hEq
    cases hEq
  · intro source target hEq
    cases hEq

/-- What declares a function records no call and scans its body. -/
lemma accountedFor_of_mem_function {name : String} {tree value : ParseTree}
    (hDeclares : subject.Declares node (subject.symbolId name) value)
    (h : step ∈ subject.function name tree value) : step.AccountedFor subject node := by
  unfold function at h
  rcases List.mem_append.1 h with h | h
  · exact accountedFor_of_mem_declare h
  · cases List.mem_singleton.1 h
    exact ⟨value, hDeclares, rfl⟩

/-- What declares a method records no call and scans its body. -/
lemma accountedFor_of_mem_member {ownerId owner : String} {method : ParseTree}
    (hHanded : subject.HandsOver node owner method)
    (h : step ∈ subject.member ownerId owner method) : step.AccountedFor subject node := by
  unfold member at h
  split at h
  · cases h
  · next name hName =>
    rcases List.mem_append.1 h with h | h
    · exact accountedFor_of_mem_declare h
    · cases List.mem_singleton.1 h
      exact ⟨method, .method hHanded hName, rfl⟩

/-- Records of facts that are no calls are accounted for. -/
lemma accountedFor_of_mem_map_record {α : Type} {items : List α} {fact : α → Fact}
    (hFact : ∀ item ∈ items, ∀ source target, fact item ≠ .relation source target .calls)
    (h : step ∈ items.map fun item => Step.record (fact item)) :
    step.AccountedFor subject node := by
  obtain ⟨item, hItem, rfl⟩ := List.mem_map.1 h
  exact hFact item hItem

/-- The functions of a Rust block are the items of this kind in its body. -/
lemma mem_functionItems_iff {tree method : ParseTree} :
    method ∈ functionItems tree ↔ method ∈ bodyItems tree ∧ method.kind = "function_item" := by
  simp [functionItems]

/-- An import records no call. -/
private lemma accountedFor_of_mem_importSteps {specifier : String}
    (h : step ∈ subject.importSteps specifier) : step.AccountedFor subject node := by
  unfold importSteps at h
  dsimp only at h
  rcases List.mem_append.1 h with h | h
  · split at h
    · cases h
    · cases List.mem_singleton.1 h
      intro source target hEq
      cases hEq
  · cases List.mem_singleton.1 h
    intro source target hEq
    cases hEq

/-- A function that is no member scans its own body. -/
private lemma accountedFor_of_mem_functionSteps
    (hCategory : subject.category? node = some .function) (h : step ∈ subject.functionSteps node) :
    step.AccountedFor subject node := by
  unfold functionSteps at h
  split at h
  · cases h
  · next hFree =>
    split at h
    · cases h
    · next name hName =>
      have hDeclares := Declares.function hCategory (Bool.eq_false_iff.2 hFree) hName
      exact accountedFor_of_mem_function hDeclares h

/-- A statement scans the bodies of the functions that it binds to names. -/
private lemma accountedFor_of_mem_bindingSteps (hCategory : subject.category? node = some .binding)
    (h : step ∈ subject.bindingSteps node.tree) : step.AccountedFor subject node := by
  obtain ⟨declarator, hDeclarator, h⟩ := List.mem_flatMap.1 h
  obtain ⟨hChild, hKind⟩ := List.mem_filter.1 hDeclarator
  unfold declaratorSteps at h
  split at h
  · next value name hValue hName =>
    split at h
    · next hFunction =>
      have hDeclares := Declares.binding hCategory hChild (eq_of_beq hKind) hValue
        (List.contains_iff_mem.1 hFunction) hName
      exact accountedFor_of_mem_function hDeclares h
    · cases h
  · cases h

/-- A class scans the bodies of its methods, and records no call itself. -/
private lemma accountedFor_of_mem_classSteps (hCategory : subject.category? node = some .classLike)
    (h : step ∈ subject.classSteps node.tree) : step.AccountedFor subject node := by
  unfold classSteps at h
  split at h
  · cases h
  · next owner hOwner =>
    rcases List.mem_append.1 h with h | h
    · rcases List.mem_append.1 h with h | h
      · exact accountedFor_of_mem_declare h
      · refine accountedFor_of_mem_map_record ?_ h
        rintro ⟨base, kind⟩ hBase source target hEq
        rcases kind_of_mem_ancestry hBase with rfl | rfl <;> cases hEq
    · obtain ⟨method, hMethod, h⟩ := List.mem_flatMap.1 h
      obtain ⟨item, hItem, hHeld⟩ := List.mem_filterMap.1 hMethod
      exact accountedFor_of_mem_member (.ofClass hCategory hOwner hItem hHeld) h

/-- A trait scans the bodies of its functions, and records no call itself. -/
private lemma accountedFor_of_mem_interfaceSteps
    (hCategory : subject.category? node = some .interface)
    (h : step ∈ subject.interfaceSteps node.tree) : step.AccountedFor subject node := by
  unfold interfaceSteps at h
  split at h
  · cases h
  · next owner hOwner =>
    rcases List.mem_append.1 h with h | h
    · rcases List.mem_append.1 h with h | h
      · exact accountedFor_of_mem_declare h
      · exact accountedFor_of_mem_map_record (fun base _ source target hEq => by cases hEq) h
    · split at h
      · next hRust =>
        obtain ⟨method, hMethod, h⟩ := List.mem_flatMap.1 h
        obtain ⟨hItem, hKind⟩ := mem_functionItems_iff.1 hMethod
        exact accountedFor_of_mem_member (.ofTrait hCategory hRust hOwner hItem hKind) h
      · cases h

/-- A block of methods scans the bodies of its functions, and records no call itself. -/
private lemma accountedFor_of_mem_implementationSteps
    (hCategory : subject.category? node = some .implementation)
    (h : step ∈ subject.implementationSteps node.tree) : step.AccountedFor subject node := by
  unfold implementationSteps at h
  split at h
  · cases h
  · next owner hOwner =>
    obtain ⟨type, hType, hName⟩ := Option.bind_eq_some_iff.1 hOwner
    rcases List.mem_append.1 h with h | h
    · exact accountedFor_of_mem_map_record (fun contract _ source target hEq => by cases hEq) h
    · obtain ⟨method, hMethod, h⟩ := List.mem_flatMap.1 h
      obtain ⟨hItem, hKind⟩ := mem_functionItems_iff.1 hMethod
      exact accountedFor_of_mem_member (.ofBlock hCategory hType hName hItem hKind) h

/-- **The steps of a node are accounted for**, whatever its category is.

**Proof sketch.** One case for each category, and one lemma for the steps of each. -/
theorem accountedFor_of_mem_steps (h : step ∈ subject.steps node) :
    step.AccountedFor subject node := by
  unfold steps at h
  split at h
  · cases h
  · obtain ⟨specifier, -, h⟩ := List.mem_flatMap.1 h
    exact accountedFor_of_mem_importSteps h
  · next hCategory => exact accountedFor_of_mem_functionSteps hCategory h
  · next hCategory => exact accountedFor_of_mem_bindingSteps hCategory h
  · next hCategory => exact accountedFor_of_mem_classSteps hCategory h
  · next hCategory => exact accountedFor_of_mem_interfaceSteps hCategory h
  · unfold aliasSteps at h
    split at h
    · cases h
    · exact accountedFor_of_mem_declare h
  · next hCategory => exact accountedFor_of_mem_implementationSteps hCategory h
  · cases h

/-- A node that hands over a method takes the steps of the method. -/
private lemma exists_member_subset_steps {owner : String} {method : ParseTree}
    (h : subject.HandsOver node owner method) :
    ∃ ownerId, subject.member ownerId owner method ⊆ subject.steps node := by
  refine ⟨subject.symbolId owner, ?_⟩
  cases h with
  | ofClass hCategory hOwner hItem hMethod =>
    rw [steps, hCategory]
    exact member_subset_classSteps hOwner (List.mem_filterMap.2 ⟨_, hItem, hMethod⟩)
  | ofTrait hCategory hRust hOwner hMethod hKind =>
    rw [steps, hCategory]
    exact member_subset_interfaceSteps hRust hOwner (mem_functionItems_iff.2 ⟨hMethod, hKind⟩)
  | ofBlock hCategory hType hOwner hMethod hKind =>
    rw [steps, hCategory]
    exact member_subset_implementationSteps (Option.bind_eq_some_iff.2 ⟨_, hType, hOwner⟩)
      (mem_functionItems_iff.2 ⟨hMethod, hKind⟩)

/-- **A node scans the body of every function that it declares.**

**Proof sketch.** One case for each way to declare a function: the scan of the body is the last step
of a function, of the declarator that the function is bound to, and of a member in the steps of its
owner. -/
theorem scan_mem_steps {caller : String} {function : ParseTree}
    (h : subject.Declares node caller function) :
    Step.scan caller (bodyOf function) ∈ subject.steps node := by
  cases h with
  | function hCategory hFree hName =>
    rw [steps, hCategory]
    show _ ∈ subject.functionSteps node
    rw [functionSteps, hFree, hName]
    exact List.mem_append_right _ (List.mem_singleton_self _)
  | @binding declarator value name hCategory hDeclarator hKind hValue hFunction hName =>
    rw [steps, hCategory]
    refine List.mem_flatMap.2 ⟨declarator, List.mem_filter.2 ⟨hDeclarator, beq_iff_eq.2 hKind⟩, ?_⟩
    rw [declaratorSteps, hValue, hName]
    dsimp only
    rw [if_pos (List.contains_iff_mem.2 hFunction)]
    exact List.mem_append_right _ (List.mem_singleton_self _)
  | method hHanded hName =>
    obtain ⟨ownerId, hSubset⟩ := exists_member_subset_steps hHanded
    refine hSubset ?_
    rw [member, hName]
    exact List.mem_append_right _ (List.mem_singleton_self _)

/-- A node contributes a call if a function that it declares calls the name in its body. -/
private lemma calls_mem_contribution_iff {caller callee : String} :
    .relation caller callee .calls ∈ subject.contribution node ↔
      ∃ function, subject.Declares node caller function ∧
        subject.CallsIn (bodyOf function) callee := by
  rw [contribution, List.mem_flatMap]
  constructor
  · rintro ⟨step, hStep, hFact⟩
    have hAccounted := accountedFor_of_mem_steps hStep
    cases step with
    | record fact => exact absurd (List.mem_singleton.1 hFact).symm (hAccounted caller callee)
    | scan other scope =>
      obtain ⟨found, hFound, hEq⟩ := List.mem_map.1 hFact
      cases hEq
      obtain ⟨function, hDeclares, rfl⟩ := hAccounted
      exact ⟨function, hDeclares, mem_callees_iff.1 hFound⟩
  · rintro ⟨function, hDeclares, hCalled⟩
    exact ⟨_, scan_mem_steps hDeclares, List.mem_map.2 ⟨callee, mem_callees_iff.2 hCalled, rfl⟩⟩

/-- A visit takes down the calls of the tree. -/
private lemma calls_mem_visit_iff {root : Cursor} {caller callee : String} :
    .relation caller callee .calls ∈ subject.visit root ↔ subject.Calls root caller callee := by
  rw [mem_visit_iff]
  constructor
  · rintro ⟨node, hNode, hFact | hFact⟩
    · obtain ⟨address, hAddress⟩ := Cursor.mem_tour_iff.1 hNode
      obtain ⟨function, hDeclares, hCalled⟩ := calls_mem_contribution_iff.1 hFact
      exact ⟨address, node, function, hAddress, hDeclares, hCalled⟩
    · obtain ⟨name, -, hEq⟩ := List.mem_map.1 hFact
      cases hEq
  · rintro ⟨address, node, function, hAddress, hDeclares, hCalled⟩
    exact ⟨node, Cursor.mem_tour_iff.2 ⟨address, hAddress⟩,
      Or.inl (calls_mem_contribution_iff.2 ⟨function, hDeclares, hCalled⟩)⟩

end Subject

/-! ## Files -/

namespace Extractor

/-- The extractor walks the tree of a file to its end: the text is looked into, the file has a
language and a tree, and the limit grants what the walk and its scans look at. -/
structure Walks (extractor : Extractor) (grammars : Grammars) (file : SourceFile)
    (chunkId : Option String) (language : Language) (tree : ParseTree) : Prop where
  not_blank : Text.allBlank file.content = false
  not_binary : Text.looksBinary file.content = false
  detect_eq : extractor.pool.provider.detect file.path = some language
  result_eq : (extractor.pool.treeOf grammars language file.content file.tree?).result = .ok tree
  demand_le : Subject.demand ⟨language, file.path, file.content, chunkId⟩ ⟨tree, []⟩ ≤
    extractor.limits.maxNodes

variable {extractor : Extractor} {grammars : Grammars} {file : SourceFile}
  {chunkId : Option String}

/-- The extraction of a file whose tree is walked to its end collects what a visit takes down. -/
lemma extraction_extract_of_walks {language : Language} {tree : ParseTree}
    (h : extractor.Walks grammars file chunkId language tree) :
    (extractor.extract grammars file chunkId).extraction =
      .ofFacts (.entity (Entity.ofFile file.path file.content chunkId) ::
        Subject.visit ⟨language, file.path, file.content, chunkId⟩ ⟨tree, []⟩) := by
  rw [extraction_extract_eq, if_neg (by simp [h.not_blank, h.not_binary])]
  simp only [h.detect_eq, h.result_eq]
  rw [fromTree_ok, if_pos h.demand_le]

/-- A file whose tree is not walked to its end leaves the module alone. -/
lemma exists_walks_or_ofModule (extractor : Extractor) (grammars : Grammars) (file : SourceFile)
    (chunkId : Option String) :
    (∃ language tree, extractor.Walks grammars file chunkId language tree) ∨
      (extractor.extract grammars file chunkId).extraction =
        .ofModule (Entity.ofFile file.path file.content chunkId) := by
  rw [extraction_extract_eq]
  split
  · exact Or.inr rfl
  · next hRead =>
    simp only [not_or, Bool.not_eq_true] at hRead
    split
    · exact Or.inr rfl
    · next language hDetect =>
      cases hTree : (extractor.pool.treeOf grammars language file.content file.tree?).result with
      | error error => exact Or.inr rfl
      | ok tree =>
        rw [fromTree_ok]
        split
        · next hGranted => exact Or.inl ⟨language, tree, hRead.1, hRead.2, hDetect, hTree, hGranted⟩
        · exact Or.inr rfl

/-- **The relations of an extraction** are those that a visit of the tree takes down, if the
extractor walks it to its end, and else there are none.

**Proof sketch.** An extraction is the facts of a walk, put together behind the module, or the
module alone (`exists_walks_or_ofModule`). Putting facts together neither adds nor drops the key of
a relation, and the module is no relation. -/
theorem mem_keys_extract_iff {source target : String} {kind : RelationKind} :
    (source, target, kind) ∈
        (extractor.extract grammars file chunkId).extraction.relations.map Relation.key ↔
      ∃ language tree, extractor.Walks grammars file chunkId language tree ∧
        .relation source target kind ∈
          Subject.visit ⟨language, file.path, file.content, chunkId⟩ ⟨tree, []⟩ := by
  constructor
  · intro h
    rcases exists_walks_or_ofModule extractor grammars file chunkId with
      ⟨language, tree, hWalks⟩ | hAlone
    · rw [extraction_extract_of_walks hWalks] at h
      rcases List.mem_cons.1 (Extraction.mem_keys_ofFacts.1 h) with hModule | hFact
      · cases hModule
      · exact ⟨language, tree, hWalks, hFact⟩
    · rw [hAlone] at h
      cases h
  · rintro ⟨language, tree, hWalks, hFact⟩
    rw [extraction_extract_of_walks hWalks]
    exact Extraction.mem_keys_ofFacts.2 (List.mem_cons_of_mem _ hFact)

/-- No relation is there twice. -/
private lemma nodup_keys_extract (extractor : Extractor) (grammars : Grammars) (file : SourceFile)
    (chunkId : Option String) :
    ((extractor.extract grammars file chunkId).extraction.relations.map Relation.key).Nodup := by
  rcases exists_walks_or_ofModule extractor grammars file chunkId with
    ⟨language, tree, hWalks⟩ | hAlone
  · rw [extraction_extract_of_walks hWalks]
    exact Extraction.nodup_keys_ofFacts _
  · rw [hAlone]
    exact List.nodup_nil

/-- **The calls of an extraction are those of the tree.** The extraction of a file has a call from a
caller to a name exactly if the extractor walks the tree of the file to its end, the walk enters a
node that declares a function under the caller's identifier, and from the body of this function a
call is reached through constructs that calls the name. Several declarations may have the same
identifier, and a body may call a name more than once, but the relation is there only once.

**Proof sketch.** A node scans the bodies of the functions that it declares and no others, and
records no call itself. A scan finds the names that are called in its scope, and collecting facts
drops only what is there already. -/
theorem mem_calls_extract_iff (extractor : Extractor) (grammars : Grammars) (file : SourceFile)
    (chunkId : Option String) (caller callee : String) :
    let keys := (extractor.extract grammars file chunkId).extraction.relations.map Relation.key
    ((caller, callee, .calls) ∈ keys ↔
      ∃ language tree, extractor.Walks grammars file chunkId language tree ∧
        Subject.Calls ⟨language, file.path, file.content, chunkId⟩ ⟨tree, []⟩ caller callee) ∧
    ((caller, callee, .calls) ∈ keys → keys.count (caller, callee, .calls) = 1) := by
  intro keys
  constructor
  · simp only [keys, mem_keys_extract_iff, Subject.calls_mem_visit_iff]
  · intro hMem
    exact List.count_eq_one_of_mem (nodup_keys_extract extractor grammars file chunkId) hMem

end Extractor

/-! ## A call in a function in a function -/

namespace NestedFunction

/-- The file, as the extractor sees it. -/
def subject : Subject := ⟨.javascript, file.path, file.content, none⟩

/-- With a limit of 27 the tree is walked to its end. -/
private lemma walks_program :
    Extractor.Walks ⟨⟨27⟩, pool⟩ (fun _ _ => none) file none .javascript program where
  not_blank := by decide +kernel
  not_binary := by decide +kernel
  detect_eq := by decide +kernel
  result_eq := rfl
  demand_le := by
    rw [Subject.demand_eq_cost]
    decide +kernel

/-- The outer function calls `h`, as the call in the inner function is in its body too. -/
private lemma calls_outer : subject.Calls ⟨program, []⟩ "a.js#f" "h" := by
  have hDeclares : subject.Declares ⟨declaration 0 37 (declaration 15 35 call), [program]⟩
      (subject.symbolId "f") (declaration 0 37 (declaration 15 35 call)) :=
    .function (by decide +kernel) (by decide +kernel) (by decide +kernel)
  exact ⟨[0], _, _, rfl, hDeclares, [0, 2, 0, 0], _, _, rfl, by decide +kernel, rfl,
    by decide +kernel, by decide +kernel⟩

/-- The call of the outer function is extracted, and once. -/
theorem calls_extraction :
    ("a.js#f", "h", .calls) ∈ (extraction 27).relations.map Relation.key ∧
    ((extraction 27).relations.map Relation.key).count ("a.js#f", "h", .calls) = 1 := by
  obtain ⟨hCalls, hOnce⟩ := Extractor.mem_calls_extract_iff ⟨⟨27⟩, pool⟩ (fun _ _ => none) file none
    "a.js#f" "h"
  have hMem := hCalls.2 ⟨.javascript, program, walks_program, calls_outer⟩
  exact ⟨hMem, hOnce hMem⟩

end NestedFunction

end CodeAtlas
