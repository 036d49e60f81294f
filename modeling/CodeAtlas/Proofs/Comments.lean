import CodeAtlas.Proofs.Owners
import CodeAtlas.Proofs.Recursion

/-!
# Trees without comments

A grammar may put a comment anywhere below a node. Here a tree is compared with what is left of it
when all its comments are taken out, together with what is in them. Whatever is read from a node by
field or by kind is the same in both trees, as a comment is held in no field and has a kind of its
own. Some nodes are read for their place among others, and there a comment may be taken for one of
them.

## Main definitions

* `CodeAtlas.ParseTree.withoutComments` — a tree without the comments below its root.
* `CodeAtlas.ParseTree.readByPlace?` — the node that is read for its place.
* `CodeAtlas.ParseTree.CommentsAside` — comments are out of the way: held in no field, with nothing
  in them that takes part in extraction, and not where a node is read for its place.

## Main results

* `CodeAtlas.ParseTree.CommentsAside.child?_withoutComments`, `fieldText?_withoutComments` — the
  children in fields are the same.
* `CodeAtlas.Subject.typeName?_withoutComments`, `specifiers_withoutComments`,
  `ancestry_withoutComments`, `exportStatementName?_withoutComments` — the names of types, imports,
  base classes and exports do not depend on comments.
* `CodeAtlas.Subject.methods_withoutComments`, `functionItems_withoutComments` — the methods of a
  class and the functions of a block are left.
-/

set_option autoImplicit false

namespace CodeAtlas

/-- The kinds of comments. -/
def NodeKinds.comments : List String := ["comment", "line_comment", "block_comment"]

namespace ParseTree

/-! ## Trees without comments -/

/-- Whether the root is a comment. -/
def isComment (tree : ParseTree) : Bool := NodeKinds.comments.contains tree.kind

/-- A tree of a kind that is not listed is no comment. -/
lemma isComment_eq_false {tree : ParseTree} {kind : String} (hKind : tree.kind = kind)
    (h : kind ∉ NodeKinds.comments) : tree.isComment = false := by
  rw [isComment, hKind]
  exact Bool.eq_false_iff.2 fun hMem => h (List.contains_iff_mem.1 hMem)

mutual

/-- A tree without the comments below its root. -/
def withoutComments : ParseTree → ParseTree
  | node info children => node info (dropComments children)

/-- Those of several trees that are no comments, without the comments in them. -/
def dropComments : List ParseTree → List ParseTree
  | [] => []
  | tree :: rest =>
    if tree.isComment then dropComments rest else withoutComments tree :: dropComments rest

end

/-- What is left of several trees, tree by tree. -/
private lemma dropComments_eq (trees : List ParseTree) :
    dropComments trees = (trees.filter fun tree => !tree.isComment).map withoutComments := by
  induction trees with
  | nil => rfl
  | cons tree rest ih =>
    rw [dropComments, ih]
    cases hComment : tree.isComment <;> simp [hComment]

section

variable (tree : ParseTree)

/-- The children that are left. -/
lemma children_withoutComments : tree.withoutComments.children =
    (tree.children.filter fun child => !child.isComment).map withoutComments := by
  cases tree
  exact dropComments_eq _

/-- The root stays as it is. -/
@[simp] lemma info_withoutComments : tree.withoutComments.info = tree.info := by
  cases tree
  rfl

@[simp] lemma kind_withoutComments : tree.withoutComments.kind = tree.kind :=
  congrArg NodeInfo.kind tree.info_withoutComments

@[simp] lemma text?_withoutComments (text : String) :
    tree.withoutComments.text? text = tree.text? text := by
  simp [text?, startByte, endByte]

/-- The constructs that are left right below the root. -/
lemma namedChildren_withoutComments : tree.withoutComments.namedChildren =
    (tree.namedChildren.filter fun child => !child.isComment).map withoutComments := by
  have hNamed : ((·.info.named) ∘ withoutComments) = fun child : ParseTree => child.info.named := by
    funext child
    simp
  rw [namedChildren, children_withoutComments, List.filter_map, hNamed, namedChildren,
    List.filter_filter, List.filter_filter]
  simp only [Bool.and_comm]

end

/-- Children that are told by what their roots carry are left if no comment is among them. -/
lemma filter_children_withoutComments {tree : ParseTree} {p : NodeInfo → Bool}
    (h : ∀ child ∈ tree.children, child.isComment → p child.info = false) :
    tree.withoutComments.children.filter (fun child => p child.info) =
      (tree.children.filter fun child => p child.info).map withoutComments := by
  have hInfo : (fun child => p child.info) ∘ withoutComments =
      fun child : ParseTree => p child.info := by
    funext child
    simp
  rw [children_withoutComments, List.filter_map, hInfo, List.filter_filter]
  congr 1
  refine List.filter_congr fun child hChild => ?_
  cases hComment : child.isComment
  · simp
  · simp [h child hChild hComment]

/-- The constructs of a kind right below the root, if it is no kind of comments. -/
lemma filter_kind_namedChildren_withoutComments (tree : ParseTree) {kind : String}
    (hKind : kind ∉ NodeKinds.comments) :
    tree.withoutComments.namedChildren.filter (·.kind == kind) =
      (tree.namedChildren.filter (·.kind == kind)).map withoutComments := by
  rw [namedChildren, namedChildren, List.filter_filter, List.filter_filter]
  refine @filter_children_withoutComments tree (fun info => info.kind == kind && info.named) ?_
  intro child _ hComment
  have hOther : child.kind ≠ kind := fun hEq => by
    rw [isComment_eq_false hEq hKind] at hComment
    cases hComment
  simp [show (child.info.kind == kind) = false from beq_false_of_ne hOther]

/-- The first construct of a kind right below the root, if it is no kind of comments. -/
lemma namedChild?_withoutComments (tree : ParseTree) {kind : String}
    (hKind : kind ∉ NodeKinds.comments) :
    tree.withoutComments.namedChild? kind = (tree.namedChild? kind).map withoutComments := by
  rw [namedChild?, ← List.head?_filter, tree.filter_kind_namedChildren_withoutComments hKind,
    List.head?_map, List.head?_filter]
  rfl

/-- What is found by place among the constructs right below the root stays what is found, if it is
no comment. -/
lemma find?_namedChildren_withoutComments {tree : ParseTree} {p : String → Bool}
    (h : ∀ found, tree.namedChildren.find? (fun child => p child.kind) = some found →
      found.isComment = false) :
    tree.withoutComments.namedChildren.find? (fun child => p child.kind) =
      (tree.namedChildren.find? fun child => p child.kind).map withoutComments := by
  have hKind : (fun child => p child.kind) ∘ withoutComments =
      fun child : ParseTree => p child.kind := by
    funext child
    simp
  rw [namedChildren_withoutComments, List.find?_map, hKind]
  congr 1
  generalize tree.namedChildren = children at h
  induction children with
  | nil => rfl
  | cons child rest ih =>
    cases hFound : p child.kind with
    | true =>
      have hComment := h child (by simp [hFound])
      simp [hComment, hFound]
    | false =>
      have hRest := ih fun found hMem => h found (by simpa [hFound] using hMem)
      cases hComment : child.isComment <;> simpa [hComment, hFound] using hRest

/-! ## Comments out of the way -/

/-- Nothing in a tree takes part in extraction: no construct of it has a category, and none is a
call. -/
def Inert (language : Language) (tree : ParseTree) : Prop :=
  ∀ node ∈ Cursor.nodes ⟨tree, []⟩,
    Category.of? language node.tree.kind = none ∧ node.tree.kind ≠ NodeKinds.call language

/-- What a tree that takes no part in extraction does not have, whatever is around it. -/
lemma Inert.of_mem_nodes {language : Language} {cursor node : Cursor}
    (h : cursor.tree.Inert language) (hNode : node ∈ cursor.nodes) :
    Category.of? language node.tree.kind = none ∧
      node.tree.kind ≠ NodeKinds.call language := by
  have hTrees : cursor.nodes.map Cursor.tree = (Cursor.nodes ⟨cursor.tree, []⟩).map Cursor.tree :=
    (constructs_eq _ _).symm.trans (constructs_eq _ _)
  have hMem := List.mem_map_of_mem (f := Cursor.tree) hNode
  rw [hTrees] at hMem
  obtain ⟨other, hOther, hEq⟩ := List.mem_map.1 hMem
  exact hEq ▸ h other hOther

/-- The construct that is read for its place among the children of a node, or of one of its
children: the path of a wildcard in Rust, the first base class of a class in Python, and in the
other languages the base class that stands behind a class without a clause of its own. -/
def readByPlace? (language : Language) (tree : ParseTree) : Option ParseTree :=
  match language with
  | .rust => if tree.kind = "use_wildcard" then tree.namedChildren.head? else none
  | .python => tree.child? "superclasses" >>= fun arguments =>
    arguments.namedChildren.find? fun argument =>
      argument.kind != "keyword_argument" && argument.kind != "comment"
  | _ => tree.namedChild? "class_heritage" >>= fun clauses =>
    clauses.namedChildren.find? fun clause =>
      clause.kind != "extends_clause" && clause.kind != "implements_clause"

/-- Comments are out of the way at a node: those right below it are held in no field and have
nothing in them that takes part in extraction, and what is read for its place is no comment. -/
structure AsideAt (language : Language) (tree : ParseTree) : Prop where
  field : ∀ child ∈ tree.children, child.isComment → child.info.field = none
  inert : ∀ child ∈ tree.children, child.isComment → child.Inert language
  byPlace : ∀ found ∈ tree.readByPlace? language, found.isComment = false

mutual

/-- The nodes of a tree that are in none of the comments below its root. -/
def outside : ParseTree → List ParseTree
  | node info children => node info children :: outsideAll children

/-- The nodes of several trees that are in none of the comments. -/
def outsideAll : List ParseTree → List ParseTree
  | [] => []
  | tree :: rest => if tree.isComment then outsideAll rest else outside tree ++ outsideAll rest

end

/-- The nodes outside of comments, tree by tree. -/
private lemma outsideAll_eq (trees : List ParseTree) :
    outsideAll trees = (trees.filter fun tree => !tree.isComment).flatMap outside := by
  induction trees with
  | nil => rfl
  | cons tree rest ih =>
    rw [outsideAll, ih]
    cases hComment : tree.isComment <;> simp [hComment]

/-- Comments are out of the way at every node of a tree that is outside of them. -/
def CommentsAside (language : Language) (tree : ParseTree) : Prop :=
  ∀ node ∈ tree.outside, node.AsideAt language

instance (language : Language) (tree : ParseTree) : Decidable (tree.Inert language) :=
  inferInstanceAs (Decidable (∀ node ∈ Cursor.nodes ⟨tree, []⟩, _ ∧ _))

instance (language : Language) (tree : ParseTree) : Decidable (tree.AsideAt language) :=
  decidable_of_iff
    ((∀ child ∈ tree.children, child.isComment → child.info.field = none) ∧
      (∀ child ∈ tree.children, child.isComment → child.Inert language) ∧
      ∀ found ∈ tree.readByPlace? language, found.isComment = false)
    ⟨fun h => ⟨h.1, h.2.1, h.2.2⟩, fun h => ⟨h.field, h.inert, h.byPlace⟩⟩

instance (language : Language) (tree : ParseTree) : Decidable (tree.CommentsAside language) :=
  inferInstanceAs (Decidable (∀ node ∈ tree.outside, _))

namespace CommentsAside

variable {language : Language} {tree : ParseTree}

/-- Comments are out of the way at the root. -/
lemma here (h : tree.CommentsAside language) : tree.AsideAt language := by
  cases tree
  exact h _ List.mem_cons_self

/-- Comments are out of the way in the children that are no comments, too. -/
lemma of_mem_children (h : tree.CommentsAside language) {child : ParseTree}
    (hChild : child ∈ tree.children) (hComment : child.isComment = false) :
    child.CommentsAside language := by
  cases tree with
  | node info children =>
    intro node hNode
    refine h node (List.mem_cons_of_mem _ ?_)
    rw [outsideAll_eq]
    exact List.mem_flatMap.2 ⟨child, List.mem_filter.2 ⟨hChild, by simp [hComment]⟩, hNode⟩

/-- The children in a field are left. -/
lemma childrenIn_withoutComments (h : tree.CommentsAside language) (name : String) :
    tree.withoutComments.childrenIn name = (tree.childrenIn name).map withoutComments := by
  refine @filter_children_withoutComments tree (fun info => info.field == some name) ?_
  intro child hChild hComment
  rw [h.here.field child hChild hComment]
  rfl

/-- Comments are out of the way in the children in a field, too. -/
lemma of_mem_childrenIn (h : tree.CommentsAside language) {name : String} {child : ParseTree}
    (hChild : child ∈ tree.childrenIn name) : child.CommentsAside language := by
  obtain ⟨hMem, hField⟩ := List.mem_filter.1 hChild
  refine h.of_mem_children hMem (Bool.eq_false_iff.2 fun hComment => ?_)
  rw [h.here.field child hMem hComment] at hField
  cases hField

/-- The first child in a field is left. -/
theorem child?_withoutComments (h : tree.CommentsAside language) (name : String) :
    tree.withoutComments.child? name = (tree.child? name).map withoutComments := by
  rw [child?, ← List.head?_filter]
  refine (congrArg List.head? (h.childrenIn_withoutComments name)).trans ?_
  rw [List.head?_map, childrenIn, List.head?_filter]
  rfl

/-- Comments are out of the way in the first child in a field, too. -/
lemma of_child? (h : tree.CommentsAside language) {name : String} {child : ParseTree}
    (hChild : tree.child? name = some child) : child.CommentsAside language := by
  refine h.of_mem_childrenIn (List.mem_of_mem_head? (l := tree.childrenIn name) ?_)
  rw [childrenIn, List.head?_filter]
  exact hChild

/-- The text of the first child in a field is the same. -/
theorem fieldText?_withoutComments (h : tree.CommentsAside language) (name text : String) :
    tree.withoutComments.fieldText? name text = tree.fieldText? name text := by
  rw [fieldText?, h.child?_withoutComments, fieldText?]
  cases tree.child? name <;> simp

/-- Comments are out of the way in the constructs right below, too. -/
lemma of_mem_namedChildren (h : tree.CommentsAside language) {child : ParseTree}
    (hChild : child ∈ tree.namedChildren) (hComment : child.isComment = false) :
    child.CommentsAside language :=
  h.of_mem_children (List.mem_filter.1 hChild).1 hComment

/-- Comments are out of the way in the first construct of a kind, too. -/
lemma of_namedChild? (h : tree.CommentsAside language) {kind : String} {child : ParseTree}
    (hChild : tree.namedChild? kind = some child) (hKind : kind ∉ NodeKinds.comments) :
    child.CommentsAside language := by
  refine h.of_mem_namedChildren (List.mem_of_find?_eq_some hChild) (isComment_eq_false ?_ hKind)
  simpa using List.find?_some hChild

end CommentsAside

end ParseTree

namespace Subject

/-! ## Reading nodes -/

section

variable {subject : Subject} {node : ParseTree}

/-- A comment is no type with a name. -/
private lemma typeName?_eq_none_of_isComment {type : ParseTree} (h : type.isComment) :
    subject.typeName? type = none := by
  have hKind := List.contains_iff_mem.1 h
  rw [typeName?_eq]
  split <;> simp_all [NodeKinds.comments]

/-- The name of a type does not depend on comments.

**Proof sketch.** Induction on the size of the type. The types that it is built on are children in
fields. -/
theorem typeName?_withoutComments {type : ParseTree} (h : type.CommentsAside subject.language) :
    subject.typeName? type.withoutComments = subject.typeName? type := by
  induction hSize : type.size using Nat.strongRecOn generalizing type with
  | ind size ih =>
    have hInner : ∀ inner? : Option ParseTree,
        (∀ inner ∈ inner?, ∃ name, type.child? name = some inner) →
          inner?.map ParseTree.withoutComments >>= subject.typeName? =
            inner? >>= subject.typeName? := by
      intro inner? hChild
      cases inner? with
      | none => rfl
      | some inner =>
        obtain ⟨name, hName⟩ := hChild inner rfl
        exact ih inner.size (hSize ▸ ParseTree.size_lt_of_child? hName) (h.of_child? hName) rfl
    rw [typeName?_eq, subject.typeName?_eq type, type.kind_withoutComments,
      h.child?_withoutComments, h.child?_withoutComments, h.fieldText?_withoutComments,
      type.text?_withoutComments, ← Option.map_or, hInner _ fun inner hMem => ⟨_, hMem⟩,
      hInner _ fun inner hMem => ?_]
    rcases Option.or_eq_some_iff.1 hMem with hName | ⟨-, hType⟩
    · exact ⟨_, hName⟩
    · exact ⟨_, hType⟩

/-- The names of the types right below a node do not depend on comments. -/
lemma filterMap_typeName?_withoutComments (h : node.CommentsAside subject.language) :
    node.withoutComments.namedChildren.filterMap subject.typeName? =
      node.namedChildren.filterMap subject.typeName? := by
  rw [node.namedChildren_withoutComments, List.filterMap_map, List.filterMap_filter]
  refine List.filterMap_congr fun child hChild => ?_
  cases hComment : child.isComment with
  | true => simp [typeName?_eq_none_of_isComment hComment]
  | false => simp [typeName?_withoutComments (h.of_mem_namedChildren hChild hComment)]

/-! ### Imports -/

/-- The leading path of a use tree is left. -/
private lemma useRoot?_withoutComments (h : node.CommentsAside .rust) :
    useRoot? node.withoutComments = (useRoot? node).map ParseTree.withoutComments := by
  unfold useRoot?
  rw [node.kind_withoutComments, h.child?_withoutComments]
  split
  case h_3 hKind =>
    have hHead : ∀ trees : List ParseTree, trees.head? = trees.find? fun _ => true := by
      intro trees
      cases trees <;> rfl
    rw [hHead, hHead]
    refine @ParseTree.find?_namedChildren_withoutComments node (fun _ => true) ?_
    intro found hFound
    refine h.here.byPlace found ?_
    rw [ParseTree.readByPlace?, if_pos hKind, hHead]
    exact hFound
  all_goals rfl

/-- The modules that a Python import names do not depend on comments. -/
private lemma pythonSpecifiers_withoutComments (h : node.CommentsAside subject.language) :
    subject.pythonSpecifiers node.withoutComments = subject.pythonSpecifiers node := by
  unfold pythonSpecifiers
  rw [node.kind_withoutComments, h.fieldText?_withoutComments, h.childrenIn_withoutComments,
    List.filterMap_map]
  split
  · rfl
  · refine List.filterMap_congr fun name hName => ?_
    have hPlain := (h.of_mem_childrenIn hName).child?_withoutComments "name"
    simp only [Function.comp_apply, name.kind_withoutComments, hPlain]
    split
    · cases name.child? "name" <;> simp
    · simp

/-- The modules that an import names do not depend on comments.

**Proof sketch.** Python has a lemma of its own (`pythonSpecifiers_withoutComments`), for Rust it is
the text of the root of the use path (`useRoot?_withoutComments`), and for the others a text that is
read by field. -/
theorem specifiers_withoutComments (h : node.CommentsAside subject.language) :
    subject.specifiers node.withoutComments = subject.specifiers node := by
  unfold specifiers
  rw [pythonSpecifiers_withoutComments h, h.fieldText?_withoutComments, h.child?_withoutComments]
  split
  case h_2 hRust =>
    cases hArgument : node.child? "argument" with
    | none => rfl
    | some argument =>
      have hRoot := useRoot?_withoutComments (hRust ▸ h.of_child? hArgument)
      have hText : ∀ root : Option ParseTree,
          root.map ParseTree.withoutComments >>= (·.text? subject.text) =
            root >>= (·.text? subject.text) := by
        intro root
        cases root <;> simp
      show (useRoot? argument.withoutComments >>= _).toList = (useRoot? argument >>= _).toList
      rw [hRoot, hText]
  all_goals rfl

/-! ### Classes and interfaces -/

/-- The first base class of a Python class does not depend on comments.

**Proof sketch.** The first argument that counts is picked by its place, and it is no comment by
assumption, so that it is the first one without comments as well
(`ParseTree.find?_namedChildren_withoutComments`). What is read of it is read by field. -/
private lemma pythonBase?_withoutComments (h : node.CommentsAside .python) :
    subject.pythonBase? node.withoutComments = subject.pythonBase? node := by
  unfold pythonBase?
  rw [h.child?_withoutComments]
  cases hArguments : node.child? "superclasses" with
  | none => rfl
  | some arguments =>
    have hPlace : ∀ found, arguments.namedChildren.find? (fun argument =>
        argument.kind != "keyword_argument" && argument.kind != "comment") = some found →
          found.isComment = false := by
      intro found hFound
      refine h.here.byPlace found ?_
      rw [ParseTree.readByPlace?, hArguments]
      exact hFound
    have hFirst := @ParseTree.find?_namedChildren_withoutComments arguments
      (fun kind => kind != "keyword_argument" && kind != "comment") hPlace
    simp only [Option.map_some, Option.bind_eq_bind, Option.bind_some, hFirst]
    cases hFound : arguments.namedChildren.find? fun argument =>
        argument.kind != "keyword_argument" && argument.kind != "comment" with
    | none => rfl
    | some first =>
      have hAside : first.CommentsAside .python :=
        (h.of_child? hArguments).of_mem_namedChildren (List.mem_of_find?_eq_some hFound)
          (hPlace first hFound)
      simp only [Option.map_some, Option.bind_some, first.kind_withoutComments,
        hAside.child?_withoutComments]
      split
      · cases first.child? "value" <;> simp
      · simp

/-- The clauses behind a class do not depend on comments if the first one that is the base class
itself is no comment.

**Proof sketch.** Induction on the clauses. Clauses of the two named kinds are no comments, and the
first one of another kind is the base class, behind which nothing counts. -/
private lemma heritage_withoutComments (clauses : List ParseTree)
    (hBelow : ∀ clause ∈ clauses, clause.isComment = false →
      clause.CommentsAside subject.language)
    (hPlace : ∀ found, clauses.find? (fun clause =>
      clause.kind != "extends_clause" && clause.kind != "implements_clause") = some found →
        found.isComment = false) :
    subject.heritage ((clauses.filter fun clause => !clause.isComment).map
      ParseTree.withoutComments) = subject.heritage clauses := by
  induction clauses with
  | nil => rfl
  | cons clause rest ih =>
    by_cases hClause : clause.kind = "extends_clause" ∨ clause.kind = "implements_clause"
    · have hComment : clause.isComment = false := by
        rcases hClause with hKind | hKind <;>
          exact ParseTree.isComment_eq_false hKind (by decide)
      have hAside := hBelow clause List.mem_cons_self hComment
      have hRest := ih (fun other hOther => hBelow other (List.mem_cons_of_mem _ hOther))
        fun found hFound => hPlace found (by
          rcases hClause with hKind | hKind <;> simpa [hKind] using hFound)
      rcases hClause with hKind | hKind
      · simp [hComment, heritage, hKind, hRest, hAside.fieldText?_withoutComments]
      · simp [hComment, heritage, hKind, hRest, filterMap_typeName?_withoutComments hAside]
    · -- the base class itself: it is no comment, and the last clause to count
      rw [not_or] at hClause
      have hComment := hPlace clause (by simp [hClause])
      simp [hComment, heritage, hClause]

/-- What a class extends and implements does not depend on comments.

**Proof sketch.** For Python this is the first base class. For the others the clauses stand below a
node that is found by its kind, and the one that is taken for the base class is no comment by
assumption. -/
theorem ancestry_withoutComments (h : node.CommentsAside subject.language) :
    subject.ancestry node.withoutComments = subject.ancestry node := by
  unfold ancestry
  split
  case h_1 hPython => rw [pythonBase?_withoutComments (hPython ▸ h)]
  case h_2 => rfl
  case h_3 hPython hRust =>
    rw [node.namedChild?_withoutComments (by decide)]
    cases hClauses : node.namedChild? "class_heritage" with
    | none => rfl
    | some clauses =>
      have hAside := h.of_namedChild? hClauses (by decide)
      show subject.heritage clauses.withoutComments.namedChildren = _
      rw [clauses.namedChildren_withoutComments]
      refine heritage_withoutComments _ (fun clause => hAside.of_mem_namedChildren)
        fun found hFound => h.here.byPlace found ?_
      unfold ParseTree.readByPlace?
      split
      · next hEq => exact absurd hEq hRust
      · next hEq => exact absurd hEq hPython
      · rw [hClauses]
        exact hFound

/-- The constructs that are left in the body of a node. -/
private lemma bodyItems_withoutComments (h : node.CommentsAside subject.language) :
    bodyItems node.withoutComments =
      ((bodyItems node).filter fun item => !item.isComment).map ParseTree.withoutComments := by
  unfold bodyItems
  rw [h.child?_withoutComments]
  cases node.child? "body" with
  | none => rfl
  | some body => exact body.namedChildren_withoutComments

/-- Comments are out of the way in the constructs of a body, too. -/
lemma commentsAside_of_mem_bodyItems (h : node.CommentsAside subject.language)
    {item : ParseTree} (hItem : item ∈ bodyItems node) (hComment : item.isComment = false) :
    item.CommentsAside subject.language := by
  unfold bodyItems at hItem
  cases hBody : node.child? "body" with
  | none =>
    rw [hBody] at hItem
    cases hItem
  | some body =>
    rw [hBody] at hItem
    exact (h.of_child? hBody).of_mem_namedChildren hItem hComment

/-- A comment holds no method. -/
lemma methodOf?_eq_none_of_isComment {item : ParseTree} (h : item.isComment) :
    methodOf? item = none := by
  have hKind := List.contains_iff_mem.1 h
  unfold methodOf?
  split <;> simp_all [NodeKinds.comments]

/-- The method that a node of a class body holds is left. -/
private lemma methodOf?_withoutComments {language : Language} {item : ParseTree}
    (h : item.CommentsAside language) :
    methodOf? item.withoutComments = (methodOf? item).map ParseTree.withoutComments := by
  unfold methodOf?
  rw [item.kind_withoutComments, h.child?_withoutComments]
  split
  case h_3 =>
    rw [Option.filter_map]
    congr 2
    funext child
    simp
  all_goals rfl

/-- The methods of a class are left. -/
theorem methods_withoutComments (h : node.CommentsAside subject.language) :
    (bodyItems node.withoutComments).filterMap methodOf? =
      ((bodyItems node).filterMap methodOf?).map ParseTree.withoutComments := by
  rw [bodyItems_withoutComments h, List.filterMap_map, List.filterMap_filter, List.map_filterMap]
  refine List.filterMap_congr fun item hItem => ?_
  cases hComment : item.isComment with
  | true => simp [methodOf?_eq_none_of_isComment hComment]
  | false =>
    simp [methodOf?_withoutComments (commentsAside_of_mem_bodyItems h hItem hComment)]

/-- Comments are out of the way in the methods of a class, too. -/
lemma commentsAside_of_mem_methods (h : node.CommentsAside subject.language)
    {method : ParseTree} (hMethod : method ∈ (bodyItems node).filterMap methodOf?) :
    method.CommentsAside subject.language := by
  obtain ⟨item, hItem, hSome⟩ := List.mem_filterMap.1 hMethod
  have hAside : item.CommentsAside subject.language := by
    refine commentsAside_of_mem_bodyItems h hItem (Bool.eq_false_iff.2 fun hComment => ?_)
    rw [methodOf?_eq_none_of_isComment hComment] at hSome
    cases hSome
  unfold methodOf? at hSome
  split at hSome
  case h_3 => exact hAside.of_child? (Option.filter_eq_some_iff.1 hSome).1
  case h_4 => cases hSome
  all_goals
    cases hSome
    exact hAside

/-- The functions of a block are left. -/
theorem functionItems_withoutComments (h : node.CommentsAside subject.language) :
    functionItems node.withoutComments = (functionItems node).map ParseTree.withoutComments := by
  unfold functionItems bodyItems
  rw [h.child?_withoutComments]
  cases node.child? "body" with
  | none => rfl
  | some body => exact body.filter_kind_namedChildren_withoutComments (by decide)

/-- Comments are out of the way in the functions of a block, too. -/
lemma commentsAside_of_mem_functionItems (h : node.CommentsAside subject.language)
    {item : ParseTree} (hItem : item ∈ functionItems node) :
    item.CommentsAside subject.language := by
  obtain ⟨hMem, hKind⟩ := List.mem_filter.1 hItem
  exact commentsAside_of_mem_bodyItems h hMem
    (ParseTree.isComment_eq_false (beq_iff_eq.1 hKind) (by decide))

/-- The types that an interface extends do not depend on comments. -/
lemma interfaceParents_withoutComments (h : node.CommentsAside subject.language) :
    subject.interfaceParents node.withoutComments = subject.interfaceParents node := by
  have hNames : ∀ list? : Option ParseTree,
      (∀ list ∈ list?, list.CommentsAside subject.language) →
        ((list?.map ParseTree.withoutComments).toList.flatMap ParseTree.namedChildren).filterMap
          subject.typeName? =
            (list?.toList.flatMap ParseTree.namedChildren).filterMap subject.typeName? := by
    intro list? hAside
    cases list? with
    | none => rfl
    | some list => simpa using filterMap_typeName?_withoutComments (hAside list rfl)
  unfold interfaceParents
  rw [h.child?_withoutComments, node.namedChild?_withoutComments (by decide)]
  split
  · exact hNames _ fun list hList => h.of_child? hList
  · exact hNames _ fun list hList => h.of_namedChild? hList (by decide)

/-! ### Exports -/

/-- The name of the first construct of a kind does not depend on comments. -/
private lemma namedChild?_bind_fieldText?_withoutComments (h : node.CommentsAside subject.language)
    {kind : String} (hKind : kind ∉ NodeKinds.comments) :
    (node.withoutComments.namedChild? kind >>= (·.fieldText? "name" subject.text)) =
      (node.namedChild? kind >>= (·.fieldText? "name" subject.text)) := by
  rw [node.namedChild?_withoutComments hKind]
  cases hChild : node.namedChild? kind with
  | none => rfl
  | some child => exact (h.of_namedChild? hChild hKind).fieldText?_withoutComments _ _

/-- The name of an export statement does not depend on comments.

**Proof sketch.** The name is read from the declaration, which is found by field, and otherwise from
the export clause, which is found by its kind. -/
theorem exportStatementName?_withoutComments (h : node.CommentsAside subject.language) :
    subject.exportStatementName? node.withoutComments = subject.exportStatementName? node := by
  unfold exportStatementName?
  rw [h.child?_withoutComments]
  cases hDeclaration : node.child? "declaration" with
  | some declaration =>
    have hAside := h.of_child? hDeclaration
    show (if _ then _ else _) = (if _ then _ else _)
    rw [declaration.kind_withoutComments, hAside.fieldText?_withoutComments,
      namedChild?_bind_fieldText?_withoutComments hAside (by decide)]
  | none =>
    show (node.withoutComments.namedChild? "export_clause" >>= _) = _
    rw [node.namedChild?_withoutComments (by decide)]
    cases hClause : node.namedChild? "export_clause" with
    | none => rfl
    | some clause =>
      exact namedChild?_bind_fieldText?_withoutComments (h.of_namedChild? hClause (by decide))
        (by decide)

/-- Whether an item is public does not depend on comments. -/
lemma isPublic_withoutComments :
    subject.isPublic node.withoutComments = subject.isPublic node := by
  unfold isPublic
  rw [node.children_withoutComments, List.any_map, List.any_filter]
  congr 1
  funext child
  simp only [Function.comp_apply, child.kind_withoutComments, child.text?_withoutComments]
  cases hKind : child.kind == "visibility_modifier" with
  | false => simp
  | true => simp [ParseTree.isComment_eq_false (beq_iff_eq.1 hKind) (by decide)]

end

end Subject

end CodeAtlas
