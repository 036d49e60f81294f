import Mathlib.Data.List.Forall2
import CodeAtlas.Proofs.Comments
import CodeAtlas.Proofs.Members
import CodeAtlas.Proofs.Retries

/-!
# Extraction without comments

Comments do not change what is extracted from a file, as long as they are out of the way. A node
gives the same steps with and without the comments below it, except that its scans look at less, and
a comment that is out of the way gives none. So both trees give the same facts, and the one without
comments costs no more.

Comments that are in the way do change it: where the heritage of a class starts with a comment, the
comment is taken for the base class.

## Main definitions

* `CodeAtlas.Subject.StepsSpare` — steps and what is left of them without comments.
* `CodeAtlas.Cursor.withoutComments` — a cursor in a tree without its comments.

## Main results

* `CodeAtlas.Subject.stepsSpare_steps` — the steps of a node are left.
* `CodeAtlas.Subject.visit_withoutComments` — the facts of a tree do not depend on comments.
* `CodeAtlas.Subject.cost_withoutComments_le` — a tree without its comments costs no more.
* `CodeAtlas.Extractor.extraction_withoutComments` — comments do not change what is extracted.
-/

set_option autoImplicit false

namespace CodeAtlas

/-! ## Steps -/

/-- A step and what is left of it: the same fact, or the scan of a scope without its comments. -/
inductive Step.Spares (language : Language) : Step → Step → Prop
  | record (fact : Fact) : Spares language (.record fact) (.record fact)
  | scan (caller : String) {scope : ParseTree} (h : scope.CommentsAside language) :
    Spares language (.scan caller scope) (.scan caller scope.withoutComments)

namespace Subject

variable {subject : Subject}

/-- Steps and what is left of them, one by one. -/
def StepsSpare (subject : Subject) : List Step → List Step → Prop :=
  List.Forall₂ (Step.Spares subject.language)

/-- Facts stay. -/
lemma stepsSpare_map_record {α : Type} (fact : α → Fact) (items : List α) :
    subject.StepsSpare (items.map fun item => .record (fact item))
      (items.map fun item => .record (fact item)) := by
  refine List.forall₂_same.2 fun step hStep => ?_
  obtain ⟨item, -, rfl⟩ := List.mem_map.1 hStep
  exact .record _

/-- The steps of several nodes, if those of each are left. -/
lemma stepsSpare_flatMap {items : List ParseTree} {f g : ParseTree → List Step}
    (h : ∀ item ∈ items, subject.StepsSpare (f item) (g item.withoutComments)) :
    subject.StepsSpare (items.flatMap f) ((items.map ParseTree.withoutComments).flatMap g) := by
  induction items with
  | nil => exact .nil
  | cons item rest ih =>
    rw [List.map_cons, List.flatMap_cons, List.flatMap_cons]
    exact List.rel_append (h item List.mem_cons_self)
      (ih fun other hOther => h other (List.mem_cons_of_mem _ hOther))

/-- Declarations stay. -/
lemma stepsSpare_declare (ownerId id name : String) (kind : EntityKind) (node : ParseTree) :
    subject.StepsSpare (subject.declare ownerId id name kind node)
      (subject.declare ownerId id name kind node.withoutComments) := by
  have hEntity : subject.entityOf id name kind node.withoutComments =
      subject.entityOf id name kind node := by
    simp [entityOf]
  rw [declare, declare, hEntity]
  exact .cons (.record _) (.cons (.record _) .nil)

section

variable {node : ParseTree}

/-- The scan of a function body is left. -/
lemma stepsSpare_scan (h : node.CommentsAside subject.language) (caller : String) :
    subject.StepsSpare [.scan caller (bodyOf node)]
      [.scan caller (bodyOf node.withoutComments)] := by
  unfold bodyOf
  rw [h.child?_withoutComments]
  cases hBody : node.child? "body" with
  | none => exact .cons (.scan caller h) .nil
  | some body => exact .cons (.scan caller (h.of_child? hBody)) .nil

/-- The steps of a member are left. -/
lemma stepsSpare_member (h : node.CommentsAside subject.language) (ownerId owner : String) :
    subject.StepsSpare (subject.member ownerId owner node)
      (subject.member ownerId owner node.withoutComments) := by
  unfold member
  rw [h.fieldText?_withoutComments]
  cases node.fieldText? "name" subject.text with
  | none => exact .nil
  | some name => exact List.rel_append (stepsSpare_declare _ _ _ _ _) (stepsSpare_scan h _)

/-- The steps of a function are left. -/
lemma stepsSpare_function (name : String) (node : ParseTree) {value : ParseTree}
    (h : value.CommentsAside subject.language) :
    subject.StepsSpare (subject.function name node value)
      (subject.function name node.withoutComments value.withoutComments) :=
  List.rel_append (stepsSpare_declare _ _ _ _ _) (stepsSpare_scan h _)

/-- The steps of a declarator are left. -/
private lemma stepsSpare_declaratorSteps (statement : ParseTree) {declarator : ParseTree}
    (h : declarator.CommentsAside subject.language) :
    subject.StepsSpare (subject.declaratorSteps statement declarator)
      (subject.declaratorSteps statement.withoutComments declarator.withoutComments) := by
  unfold declaratorSteps
  rw [h.fieldText?_withoutComments, h.child?_withoutComments]
  cases hValue : declarator.child? "value" with
  | none => exact .nil
  | some value =>
    cases declarator.fieldText? "name" subject.text with
    | none => exact .nil
    | some name =>
      simp only [Option.map_some, value.kind_withoutComments]
      split
      · exact stepsSpare_function name statement (h.of_child? hValue)
      · exact .nil

/-- The steps of a statement that binds names are left. -/
private lemma stepsSpare_bindingSteps (h : node.CommentsAside subject.language) :
    subject.StepsSpare (subject.bindingSteps node) (subject.bindingSteps node.withoutComments) := by
  unfold bindingSteps
  rw [node.filter_kind_namedChildren_withoutComments (by decide)]
  refine stepsSpare_flatMap fun declarator hDeclarator => stepsSpare_declaratorSteps node ?_
  obtain ⟨hMem, hKind⟩ := List.mem_filter.1 hDeclarator
  exact h.of_mem_namedChildren hMem
    (ParseTree.isComment_eq_false (beq_iff_eq.1 hKind) (by decide))

/-- The steps of a class are left. -/
private lemma stepsSpare_classSteps (h : node.CommentsAside subject.language) :
    subject.StepsSpare (subject.classSteps node) (subject.classSteps node.withoutComments) := by
  unfold classSteps
  rw [h.fieldText?_withoutComments]
  cases node.fieldText? "name" subject.text with
  | none => exact .nil
  | some name =>
    simp only [ancestry_withoutComments h, methods_withoutComments h]
    refine List.rel_append (List.rel_append (stepsSpare_declare _ _ _ _ _) ?_) ?_
    · exact stepsSpare_map_record (fun base : String × RelationKind => .relation _ base.1 base.2) _
    · exact stepsSpare_flatMap fun method hMethod =>
        stepsSpare_member (commentsAside_of_mem_methods h hMethod) _ _

/-- The steps of an interface or a trait are left. -/
private lemma stepsSpare_interfaceSteps (h : node.CommentsAside subject.language) :
    subject.StepsSpare (subject.interfaceSteps node)
      (subject.interfaceSteps node.withoutComments) := by
  unfold interfaceSteps
  rw [h.fieldText?_withoutComments]
  cases node.fieldText? "name" subject.text with
  | none => exact .nil
  | some name =>
    simp only [interfaceParents_withoutComments h, functionItems_withoutComments h]
    refine List.rel_append (List.rel_append (stepsSpare_declare _ _ _ _ _) ?_) ?_
    · exact stepsSpare_map_record (fun base => .relation _ base .inherits) _
    · split
      · exact stepsSpare_flatMap fun item hItem =>
          stepsSpare_member (commentsAside_of_mem_functionItems h hItem) _ _
      · exact .nil

/-- The steps of a type alias are left. -/
private lemma stepsSpare_aliasSteps (h : node.CommentsAside subject.language) :
    subject.StepsSpare (subject.aliasSteps node) (subject.aliasSteps node.withoutComments) := by
  unfold aliasSteps
  rw [h.fieldText?_withoutComments]
  cases node.fieldText? "name" subject.text with
  | none => exact .nil
  | some name => exact stepsSpare_declare _ _ _ _ _

/-- The steps of a block that gives methods to a type are left. -/
private lemma stepsSpare_implementationSteps (h : node.CommentsAside subject.language) :
    subject.StepsSpare (subject.implementationSteps node)
      (subject.implementationSteps node.withoutComments) := by
  have hName : ∀ field, (node.withoutComments.child? field >>= subject.typeName?) =
      (node.child? field >>= subject.typeName?) := by
    intro field
    rw [h.child?_withoutComments]
    cases hType : node.child? field with
    | none => rfl
    | some type => exact typeName?_withoutComments (h.of_child? hType)
  unfold implementationSteps
  rw [hName, hName, functionItems_withoutComments h]
  cases node.child? "type" >>= subject.typeName? with
  | none => exact .nil
  | some type =>
    refine List.rel_append ?_ ?_
    · exact stepsSpare_map_record (fun name => .relation _ name .implements) _
    · exact stepsSpare_flatMap fun item hItem =>
        stepsSpare_member (commentsAside_of_mem_functionItems h hItem) _ _

end

end Subject

/-! ## Cursors -/

/-- A cursor in a tree without its comments. -/
def Cursor.withoutComments (cursor : Cursor) : Cursor :=
  ⟨cursor.tree.withoutComments, cursor.ancestors.map ParseTree.withoutComments⟩

namespace Cursor

variable {cursor : Cursor}

/-- The cursors that are left one step down. -/
lemma namedChildren_withoutComments (cursor : Cursor) : cursor.withoutComments.namedChildren =
    (cursor.namedChildren.filter fun child => !child.tree.isComment).map withoutComments := by
  rw [namedChildren, withoutComments, cursor.tree.namedChildren_withoutComments, namedChildren,
    List.filter_map, List.map_map, List.map_map]
  rfl

/-- Comments are out of the way one step down, too. -/
lemma commentsAside_of_mem_namedChildren {language : Language}
    (h : cursor.tree.CommentsAside language) {child : Cursor}
    (hChild : child ∈ cursor.namedChildren) (hComment : child.tree.isComment = false) :
    child.tree.CommentsAside language := by
  obtain ⟨tree, hTree, rfl⟩ := List.mem_map.1 hChild
  exact h.of_mem_namedChildren hTree hComment

/-- A comment one step down has nothing in it that takes part in extraction. -/
lemma inert_of_mem_namedChildren {language : Language}
    (h : cursor.tree.CommentsAside language) {child : Cursor}
    (hChild : child ∈ cursor.namedChildren) (hComment : child.tree.isComment) :
    child.tree.Inert language := by
  obtain ⟨tree, hTree, rfl⟩ := List.mem_map.1 hChild
  exact h.here.inert tree (List.mem_filter.1 hTree).1 hComment

/-- What is told one step down does not depend on comments if they tell nothing. -/
lemma flatMap_namedChildren_withoutComments {α : Type} {f : Cursor → List α}
    (hComment : ∀ child ∈ cursor.namedChildren, child.tree.isComment → f child = [])
    (h : ∀ child ∈ cursor.namedChildren, child.tree.isComment = false →
      f child.withoutComments = f child) :
    cursor.withoutComments.namedChildren.flatMap f = cursor.namedChildren.flatMap f := by
  rw [namedChildren_withoutComments]
  generalize cursor.namedChildren = children at hComment h
  induction children with
  | nil => rfl
  | cons child rest ih =>
    have hRest := ih (fun other hOther => hComment other (List.mem_cons_of_mem _ hOther))
      fun other hOther => h other (List.mem_cons_of_mem _ hOther)
    cases hChild : child.tree.isComment with
    | true => simp [hChild, hRest, hComment child List.mem_cons_self hChild]
    | false => simp [hChild, hRest, h child List.mem_cons_self hChild]

/-- What is counted one step down does not grow. -/
lemma sum_namedChildren_withoutComments_le {f : Cursor → Nat}
    (h : ∀ child ∈ cursor.namedChildren, child.tree.isComment = false →
      f child.withoutComments ≤ f child) :
    (cursor.withoutComments.namedChildren.map f).sum ≤ (cursor.namedChildren.map f).sum := by
  rw [namedChildren_withoutComments]
  generalize cursor.namedChildren = children at h
  induction children with
  | nil => exact Nat.le_refl _
  | cons child rest ih =>
    have hRest := ih fun other hOther => h other (List.mem_cons_of_mem _ hOther)
    cases hChild : child.tree.isComment with
    | true =>
      simp only [hChild, List.filter_cons, Bool.not_true, Bool.false_eq_true, if_false,
        List.map_cons, List.sum_cons]
      omega
    | false =>
      have hLe := h child List.mem_cons_self hChild
      simp only [hChild, List.filter_cons, Bool.not_false, if_true, List.map_cons, List.sum_cons]
      omega

/-- A tree does not get more constructs. -/
private lemma length_nodes_withoutComments_le (cursor : Cursor) :
    cursor.withoutComments.nodes.length ≤ cursor.nodes.length := by
  induction cursor using Cursor.induct with
  | h cursor ih =>
    rw [nodes_eq, nodes_eq cursor, List.length_cons, List.length_cons, List.length_flatMap,
      List.length_flatMap]
    exact Nat.succ_le_succ (sum_namedChildren_withoutComments_le fun child hChild _ =>
      ih child hChild)

end Cursor

namespace Subject

variable {subject : Subject} {cursor : Cursor}

/-- The category of a node stays. -/
lemma category?_withoutComments :
    subject.category? cursor.withoutComments = subject.category? cursor := by
  rw [category?, category?, Cursor.withoutComments, ParseTree.kind_withoutComments]

/-- Whether the walk goes on below a node stays. -/
lemma descends_withoutComments :
    subject.descends cursor.withoutComments = subject.descends cursor := by
  rw [descends, descends, category?_withoutComments]

/-- Whether a function is a member stays. -/
private lemma isMember_withoutComments : isMember cursor.withoutComments = isMember cursor := by
  have hKinds : ((fun a : ParseTree => NodeKinds.memberContainers.contains a.kind) ∘
      ParseTree.withoutComments) = fun a => NodeKinds.memberContainers.contains a.kind := by
    funext a
    simp
  unfold isMember
  simp only [Cursor.withoutComments, List.dropWhile_map, hKinds, List.head?_map]
  cases (cursor.ancestors.dropWhile _).head? <;> simp

/-- The name that a node exports does not depend on comments. -/
private lemma exportedName?_withoutComments (h : cursor.tree.CommentsAside subject.language) :
    subject.exportedName? cursor.withoutComments = subject.exportedName? cursor := by
  have hItem : subject.publicItemName? cursor.withoutComments = subject.publicItemName? cursor := by
    unfold publicItemName?
    simp only [Cursor.withoutComments, isPublic_withoutComments, h.fieldText?_withoutComments,
      List.head?_map, Option.map_map, Function.comp_def, ParseTree.kind_withoutComments]
  unfold exportedName?
  rw [category?_withoutComments, hItem]
  split
  case h_2 => exact exportStatementName?_withoutComments h
  all_goals rfl

/-- Imports stay. -/
private lemma stepsSpare_importSteps (specifiers : List String) :
    subject.StepsSpare (specifiers.flatMap subject.importSteps)
      (specifiers.flatMap subject.importSteps) := by
  refine List.forall₂_same.2 fun step hStep => ?_
  obtain ⟨specifier, -, hStep⟩ := List.mem_flatMap.1 hStep
  rw [importSteps] at hStep
  split at hStep <;> simp only [List.cons_append, List.nil_append, List.mem_cons,
    List.not_mem_nil, or_false] at hStep
  · exact hStep ▸ .record _
  · rcases hStep with rfl | rfl <;> exact .record _

/-- The steps of a function that is no member are left. -/
private lemma stepsSpare_functionSteps (h : cursor.tree.CommentsAside subject.language) :
    subject.StepsSpare (subject.functionSteps cursor)
      (subject.functionSteps cursor.withoutComments) := by
  have hName : cursor.withoutComments.tree.fieldText? "name" subject.text =
      cursor.tree.fieldText? "name" subject.text := h.fieldText?_withoutComments _ _
  unfold functionSteps
  rw [isMember_withoutComments, hName]
  split
  · exact .nil
  · cases cursor.tree.fieldText? "name" subject.text with
    | none => exact .nil
    | some name => exact stepsSpare_function name _ h

/-- **The steps of a node are left.**

**Proof sketch.** The category of a node does not depend on comments, and there is one lemma for the
steps of each category. -/
theorem stepsSpare_steps (h : cursor.tree.CommentsAside subject.language) :
    subject.StepsSpare (subject.steps cursor) (subject.steps cursor.withoutComments) := by
  unfold steps
  rw [category?_withoutComments]
  cases subject.category? cursor with
  | none => exact .nil
  | some category =>
    cases category with
    | importing =>
      show subject.StepsSpare _ ((subject.specifiers cursor.tree.withoutComments).flatMap _)
      rw [specifiers_withoutComments h]
      exact stepsSpare_importSteps _
    | function => exact stepsSpare_functionSteps h
    | binding => exact stepsSpare_bindingSteps h
    | classLike => exact stepsSpare_classSteps h
    | interface => exact stepsSpare_interfaceSteps h
    | typeAlias => exact stepsSpare_aliasSteps h
    | implementation => exact stepsSpare_implementationSteps h
    | exporting => exact .nil

/-! ## Facts -/

/-- A tree that takes no part in extraction has no calls in it. -/
private lemma filterMap_callee?_eq_nil (h : cursor.tree.Inert subject.language) :
    cursor.nodes.filterMap (subject.callee? ·.tree) = [] := by
  refine List.filterMap_eq_nil_iff.2 fun node hNode => ?_
  rw [callee?, if_neg (h.of_mem_nodes hNode).2]

/-- A tree that takes no part in extraction gives no facts. -/
private lemma visit_eq_nil (h : cursor.tree.Inert subject.language) :
    subject.visit cursor = [] := by
  refine List.eq_nil_iff_forall_not_mem.2 fun fact hFact => ?_
  obtain ⟨node, hNode, hFact⟩ := mem_visit_iff.1 hFact
  have hCategory : subject.category? node = none :=
    (h.of_mem_nodes (mem_nodes_of_mem_entered hNode)).1
  have hContribution : subject.contribution node = [] := by
    rw [contribution, steps, hCategory]
    rfl
  have hExports : subject.exportFacts node = [] := by
    rw [exportFacts, exportedName?, hCategory]
    rfl
  rw [hContribution, hExports] at hFact
  simp at hFact

/-- The calls in a scope do not depend on comments.

**Proof sketch.** Induction on the cursor. Whether a node is a call, and of what, is read by kind
and by field. Of the nodes below it, a comment calls nothing, and the others are calls as before. -/
private lemma callees_withoutComments {scope : ParseTree}
    (h : scope.CommentsAside subject.language) :
    subject.callees scope.withoutComments = subject.callees scope := by
  suffices hNodes : ∀ cursor : Cursor, cursor.tree.CommentsAside subject.language →
      cursor.withoutComments.nodes.filterMap (subject.callee? ·.tree) =
        cursor.nodes.filterMap (subject.callee? ·.tree) by
    rw [callees, callees, ParseTree.constructs_eq _ [], ParseTree.constructs_eq _ [],
      List.filterMap_map, List.filterMap_map]
    exact hNodes ⟨scope, []⟩ h
  intro cursor
  induction cursor using Cursor.induct with
  | h cursor ih =>
    intro hAside
    have hHere : subject.callee? cursor.withoutComments.tree = subject.callee? cursor.tree := by
      unfold callee?
      rw [show cursor.withoutComments.tree = cursor.tree.withoutComments from rfl,
        cursor.tree.kind_withoutComments, hAside.child?_withoutComments]
      split
      · cases cursor.tree.child? "function" <;> simp
      · rfl
    have hBelow := @Cursor.flatMap_namedChildren_withoutComments cursor String
      (fun child => child.nodes.filterMap (subject.callee? ·.tree))
      (fun child hChild hComment =>
        filterMap_callee?_eq_nil (Cursor.inert_of_mem_namedChildren hAside hChild hComment))
      (fun child hChild hComment =>
        ih child hChild (Cursor.commentsAside_of_mem_namedChildren hAside hChild hComment))
    rw [Cursor.nodes_eq, Cursor.nodes_eq cursor, List.filterMap_cons, List.filterMap_cons, hHere,
      List.filterMap_flatMap, List.filterMap_flatMap, hBelow]

/-- What is left of steps gives the same facts. -/
private lemma StepsSpare.flatMap_factsOf_eq {steps rest : List Step}
    (h : subject.StepsSpare steps rest) :
    rest.flatMap subject.factsOf = steps.flatMap subject.factsOf := by
  induction h with
  | nil => rfl
  | cons hStep _ ih =>
    rw [List.flatMap_cons, List.flatMap_cons, ih]
    cases hStep with
    | record fact => rfl
    | scan caller hAside => rw [factsOf, factsOf, callees_withoutComments hAside]

/-- What is left of steps scans no more nodes. -/
private lemma StepsSpare.sum_scanned_le {steps rest : List Step}
    (h : subject.StepsSpare steps rest) :
    (rest.map Step.scanned).sum ≤ (steps.map Step.scanned).sum := by
  induction h with
  | nil => exact Nat.le_refl _
  | @cons step left steps rest hStep _ ih =>
    have hScanned : left.scanned ≤ step.scanned := by
      cases hStep with
      | record fact => exact Nat.le_refl _
      | @scan caller scope hAside => exact Cursor.length_nodes_withoutComments_le ⟨scope, []⟩
    rw [List.map_cons, List.map_cons, List.sum_cons, List.sum_cons]
    exact Nat.add_le_add hScanned ih

/-- **The facts of a tree do not depend on comments.**

**Proof sketch.** Induction over the tree. A node that is no comment tells the same, and a comment
below it tells nothing. -/
theorem visit_withoutComments (cursor : Cursor) (h : cursor.tree.CommentsAside subject.language) :
    subject.visit cursor.withoutComments = subject.visit cursor := by
  induction cursor using Cursor.induct with
  | h cursor ih =>
    have hHere : subject.contribution cursor.withoutComments = subject.contribution cursor :=
      (stepsSpare_steps h).flatMap_factsOf_eq
    have hExports : subject.exportFacts cursor.withoutComments = subject.exportFacts cursor := by
      rw [exportFacts, exportFacts, exportedName?_withoutComments h]
    have hBelow := @Cursor.flatMap_namedChildren_withoutComments cursor Fact subject.visit
      (fun child hChild hComment =>
        visit_eq_nil (Cursor.inert_of_mem_namedChildren h hChild hComment))
      (fun child hChild hComment =>
        ih child hChild (Cursor.commentsAside_of_mem_namedChildren h hChild hComment))
    rw [visit_eq, visit_eq subject cursor, visitBelow, visitBelow, descends_withoutComments, hHere,
      hExports, hBelow]

/-- A tree without its comments costs no more.

**Proof sketch.** Induction on the cursor. The steps that are left scan no more than all steps
(`stepsSpare_steps`), and the children that are left cost no more each. -/
theorem cost_withoutComments_le (cursor : Cursor)
    (h : cursor.tree.CommentsAside subject.language) :
    subject.cost cursor.withoutComments ≤ subject.cost cursor := by
  induction cursor using Cursor.induct with
  | h cursor ih =>
    have hHere : subject.nodeCost cursor.withoutComments ≤ subject.nodeCost cursor :=
      Nat.add_le_add_left (stepsSpare_steps h).sum_scanned_le 1
    rw [cost_eq, cost_eq subject cursor, descends_withoutComments]
    refine Nat.add_le_add hHere ?_
    split
    · exact Cursor.sum_namedChildren_withoutComments_le fun child hChild hComment =>
        ih child hChild (Cursor.commentsAside_of_mem_namedChildren h hChild hComment)
    · exact Nat.le_refl 0

/-! ## Files -/

/-- A node with nothing below it contributes nothing, except for the name that it exports.

**Proof sketch.** One case for each category: what its steps read is a child, a text of a child or a
named child, and there is none. -/
private lemma steps_eq_nil_of_children (h : cursor.tree.children = []) :
    subject.steps cursor = [] := by
  have hChild : ∀ field, cursor.tree.child? field = none := fun field => by
    rw [ParseTree.child?, h, List.find?_nil]
  have hText : ∀ field, cursor.tree.fieldText? field subject.text = none := fun field => by
    rw [ParseTree.fieldText?, hChild]
    rfl
  have hIn : ∀ field, cursor.tree.childrenIn field = [] := fun field => by
    rw [ParseTree.childrenIn, h, List.filter_nil]
  have hNamed : cursor.tree.namedChildren = [] := by
    rw [ParseTree.namedChildren, h, List.filter_nil]
  unfold steps
  cases subject.category? cursor with
  | none => rfl
  | some category =>
    cases category with
    | importing =>
      have hSpecifiers : subject.specifiers cursor.tree = [] := by
        unfold specifiers pythonSpecifiers
        split <;> simp [hText, hIn, hChild]
      simp [hSpecifiers]
    | function => simp [functionSteps, hText]
    | binding => simp [bindingSteps, hNamed]
    | classLike => simp [classSteps, hText]
    | interface => simp [interfaceSteps, hText]
    | typeAlias => simp [aliasSteps, hText]
    | implementation => simp [implementationSteps, hChild]
    | exporting => rfl

/-- A root with nothing below it gives no facts. -/
private lemma visit_eq_nil_of_children {root : ParseTree} (h : root.children = []) :
    subject.visit ⟨root, []⟩ = [] := by
  have hNamed : root.namedChildren = [] := by rw [ParseTree.namedChildren, h, List.filter_nil]
  have hHere : subject.contribution ⟨root, []⟩ = [] := by
    rw [contribution, steps_eq_nil_of_children h]
    rfl
  have hExports : subject.exportedName? ⟨root, []⟩ = none := by
    unfold exportedName? exportStatementName?
    split <;> simp [publicItemName?, ParseTree.child?, ParseTree.namedChild?, h, hNamed]
  rw [visit_eq, visitBelow, exportFacts, hHere, hExports, Cursor.namedChildren, hNamed]
  simp

end Subject

namespace Extractor

/-- Within its limit an extraction collects the module and what visiting the tree gives, also if
there is nothing below the root. -/
lemma fromTree_eq_ofFacts (file : SourceFile) {limits : ExtractionLimits} {language : Language}
    {chunkId : Option String} {root : ParseTree}
    (hCost : Subject.cost ⟨language, file.path, file.content, chunkId⟩ ⟨root, []⟩ ≤
      limits.maxNodes) :
    fromTree limits language file chunkId (.ok root) =
      .ofFacts (.entity (Entity.ofFile file.path file.content chunkId) ::
        Subject.visit ⟨language, file.path, file.content, chunkId⟩ ⟨root, []⟩) := by
  unfold fromTree ofTree
  dsimp only
  rw [Subject.extraction_eq]
  by_cases hEmpty : root.children.isEmpty
  · rw [if_pos hEmpty, Subject.visit_eq_nil_of_children (List.isEmpty_iff.1 hEmpty)]
    rfl
  · rw [if_neg hEmpty, if_pos hCost]

/-- **Comments do not change what is extracted** as long as they are out of the way: held in no
field, without anything in them that takes part in extraction, and not where a node is read for its
place. If the extraction of a file from its tree is within the limit, it gives the same entities and
the same relations, in the same order, from the tree without its comments.

**Proof sketch.** Both trees give the same facts, and the smaller one costs no more. A tree that has
nothing left below its root fails, which leaves the module alone, but then the other one gives
nothing else either. -/
theorem extraction_withoutComments (extractor : Extractor) (grammars : Grammars)
    (path content : String) (chunkId : Option String) (root : ParseTree)
    (hAside : ∀ language, extractor.pool.provider.detect path = some language →
      root.CommentsAside language)
    (hCost : ∀ language, extractor.pool.provider.detect path = some language →
      Subject.cost ⟨language, path, content, chunkId⟩ ⟨root, []⟩ ≤ extractor.limits.maxNodes) :
    (extractor.extract grammars ⟨path, content, some root.withoutComments⟩ chunkId).extraction =
      (extractor.extract grammars ⟨path, content, some root⟩ chunkId).extraction := by
  rw [extraction_extract_eq, extraction_extract_eq]
  dsimp only
  split
  · rfl
  · cases hDetect : extractor.pool.provider.detect path with
    | none => rfl
    | some language =>
      have hLess : Subject.cost ⟨language, path, content, chunkId⟩ ⟨root.withoutComments, []⟩ ≤
          extractor.limits.maxNodes :=
        Nat.le_trans (Subject.cost_withoutComments_le ⟨root, []⟩ (hAside language hDetect))
          (hCost language hDetect)
      have hVisit : Subject.visit ⟨language, path, content, chunkId⟩ ⟨root.withoutComments, []⟩ =
          Subject.visit ⟨language, path, content, chunkId⟩ ⟨root, []⟩ :=
        Subject.visit_withoutComments ⟨root, []⟩ (hAside language hDetect)
      show fromTree extractor.limits language ⟨path, content, some root.withoutComments⟩ chunkId
          (.ok root.withoutComments) =
        fromTree extractor.limits language ⟨path, content, some root⟩ chunkId (.ok root)
      rw [fromTree_eq_ofFacts ⟨path, content, some root.withoutComments⟩ hLess,
        fromTree_eq_ofFacts ⟨path, content, some root⟩ (hCost language hDetect), hVisit]

end Extractor

/-! ## Notes in a class -/

namespace NotedClass

/-- A comment at a byte. -/
def note (start : Nat) : ParseTree :=
  .node ⟨"comment", true, none, start, start + 10, 0, 0⟩ []

/-- What stands behind the name of the class, from a byte on: a keyword, maybe a comment, and the
base class. -/
def heritage (start : Nat) (notes : List ParseTree) : ParseTree :=
  .node ⟨"class_heritage", true, none, start, 28, 0, 0⟩
    (.node ⟨"extends", false, none, start, start + 7, 0, 0⟩ [] :: notes ++
      [.node ⟨"identifier", true, none, 27, 28, 0, 0⟩ []])

/-- The program: a class that ends at a byte, with a name, what stands behind it and a body. -/
def program (stop : Nat) (behind items : List ParseTree) : ParseTree :=
  .node ⟨"program", true, none, 0, stop + 1, 0, 1⟩
    [.node ⟨"class_declaration", true, none, 0, stop, 0, 0⟩
      (.node ⟨"class", false, none, 0, 5, 0, 0⟩ [] ::
       .node ⟨"identifier", true, some "name", 6, 7, 0, 0⟩ [] ::
       behind ++ [.node ⟨"class_body", true, some "body", 29, stop, 0, 0⟩ items])]

/-- The extractor with its defaults. -/
def extractor : Extractor := .create {} .bundled

/-- A file, as the extractor sees it. -/
def subject (text : String) : Subject := ⟨.javascript, "a.js", text, none⟩

/-- What is extracted from a file and its tree. -/
def extraction (text : String) (root : ParseTree) : Extraction :=
  (extractor.extract (fun _ _ => none) ⟨"a.js", text, some root⟩ none).extraction

/-- What is extracted, by visiting the tree. -/
private lemma extraction_eq_ofFacts {text : String} {root : ParseTree}
    (hText : (Text.allBlank text || Text.looksBinary text) = false)
    (hCost : (subject text).cost ⟨root, []⟩ ≤ 500000) :
    extraction text root = .ofFacts
      (.entity (.ofFile "a.js" text none) :: (subject text).visit ⟨root, []⟩) := by
  have hDetect : extractor.pool.provider.detect "a.js" = some .javascript := by decide +kernel
  rw [extraction, Extractor.extraction_extract_eq, if_neg (by simpa using hText), hDetect]
  exact Extractor.fromTree_eq_ofFacts ⟨"a.js", text, some root⟩ hCost

/-- A class with a comment before its heritage and one in its body. -/
def text : String := "class E /* note */ extends F \x7b /* more */ \x7d\n"

/-- The tree of the file. -/
def root : ParseTree := program 43 [note 8, heritage 19 []] [note 31]

/-- The class is extracted in the same way without its two comments. -/
theorem extraction_root : root.CommentsAside .javascript ∧
    (subject text).cost ⟨root, []⟩ ≤ 500000 ∧
    extraction text root.withoutComments = extraction text root ∧
    (extraction text root).relations.map Relation.key =
      [("a.js", "a.js#E", .contains), ("a.js#E", "F", .inherits)] := by
  have hDetect : extractor.pool.provider.detect "a.js" = some .javascript := by decide +kernel
  have hAside : root.CommentsAside .javascript := by decide +kernel
  have hCost : (subject text).cost ⟨root, []⟩ ≤ 500000 := by decide +kernel
  refine ⟨hAside, hCost, ?_, ?_⟩
  · refine Extractor.extraction_withoutComments extractor (fun _ _ => none) "a.js" text none root
      (fun language hLanguage => ?_) fun language hLanguage => ?_
    · obtain rfl := Option.some.inj (hDetect.symm.trans hLanguage)
      exact hAside
    · obtain rfl := Option.some.inj (hDetect.symm.trans hLanguage)
      exact hCost
  · rw [extraction_eq_ofFacts (by decide +kernel) hCost]
    decide +kernel

/-- A class with a comment in its heritage. -/
def strayText : String := "class E extends /* note */ F \x7b\x7d\n"

/-- The tree of the file. -/
def strayRoot : ParseTree := program 31 [heritage 8 [note 16]] []

/-- **A comment before the base class is taken for it.** The class extends the text of the comment,
and without the comment it extends `F`. -/
theorem extraction_strayRoot :
    (subject strayText).cost ⟨strayRoot, []⟩ ≤ 500000 ∧
    (subject strayText).cost ⟨strayRoot.withoutComments, []⟩ ≤ 500000 ∧
    (extraction strayText strayRoot).relations.map Relation.key =
      [("a.js", "a.js#E", .contains), ("a.js#E", "/* note */", .inherits)] ∧
    (extraction strayText strayRoot.withoutComments).relations.map Relation.key =
      [("a.js", "a.js#E", .contains), ("a.js#E", "F", .inherits)] ∧
    extraction strayText strayRoot ≠ extraction strayText strayRoot.withoutComments := by
  have hCost : (subject strayText).cost ⟨strayRoot, []⟩ ≤ 500000 := by decide +kernel
  have hLess : (subject strayText).cost ⟨strayRoot.withoutComments, []⟩ ≤ 500000 := by
    decide +kernel
  have hNote : (extraction strayText strayRoot).relations.map Relation.key =
      [("a.js", "a.js#E", .contains), ("a.js#E", "/* note */", .inherits)] := by
    rw [extraction_eq_ofFacts (by decide +kernel) hCost]
    decide +kernel
  have hBase : (extraction strayText strayRoot.withoutComments).relations.map Relation.key =
      [("a.js", "a.js#E", .contains), ("a.js#E", "F", .inherits)] := by
    rw [extraction_eq_ofFacts (by decide +kernel) hLess]
    decide +kernel
  refine ⟨hCost, hLess, hNote, hBase, fun hEq => ?_⟩
  rw [hEq, hBase] at hNote
  exact absurd hNote (by decide)

end NotedClass

end CodeAtlas
