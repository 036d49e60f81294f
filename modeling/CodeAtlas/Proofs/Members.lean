import CodeAtlas.Proofs.References

/-!
# Members and their owners

A function that stands in a class, in a trait or in a block of methods is left to its owner. Whether
it is one is found by climbing from the function, and its owner finds it by going down. Here the two
are compared on trees that put functions where their grammar has a place for them.

## Main definitions

* `CodeAtlas.Place`, `CodeAtlas.Place.all` — a place for a kind of node, and the places that a
  grammar has for functions and for what may stand between a function and its owner.
* `CodeAtlas.ParseTree.Follows` — a tree puts its functions into places of a grammar.
* `CodeAtlas.Cursor.owner?` — what a function that looks for its owner finds.
* `CodeAtlas.Subject.ownerName?` — the name under which an owner takes down its members.

## Main results

* `CodeAtlas.Subject.exists_owner_of_isMember` — a function that is left to its owner is among the
  functions that the owner takes care of.
* `CodeAtlas.Subject.names_of_function` — every function is taken down, unless it is left to an
  owner without a name.
* `CodeAtlas.SliceMethod.lost_method` — a method of a slice is not taken down.

## Design

Error recovery can put anything below a node of kind `ERROR`, and a tree may lack fields. A place
says only what may stand right below a container or a scope, so such trees are covered.
-/

set_option autoImplicit false

namespace CodeAtlas

/-! ## Places for functions -/

/-- A place that a grammar has for a kind of node. -/
structure Place where
  /-- The kind of the node. -/
  kind : String
  /-- The kind of the parent. -/
  parent : String
  /-- The field of the parent, where it is fixed. -/
  field : Option String := none
  deriving DecidableEq

namespace Place

/-- The kinds of functions, in all grammars. -/
def functions : List String :=
  ["function_declaration", "generator_function_declaration", "function_definition", "function_item"]

/-- The places inside of containers and scopes that a grammar has for functions and containers. -/
def all : Language → List Place
  | .javascript | .typescript | .tsx =>
    [⟨"class_body", "class_declaration", some "body"⟩,
     ⟨"class_body", "abstract_class_declaration", some "body"⟩,
     ⟨"class_body", "class", some "body"⟩]
  | .python =>
    [⟨"function_definition", "block", none⟩,
     ⟨"function_definition", "decorated_definition", some "definition"⟩,
     ⟨"decorated_definition", "block", none⟩,
     ⟨"block", "class_definition", some "body"⟩]
  | .rust =>
    [⟨"function_item", "block", none⟩,
     ⟨"function_item", "declaration_list", none⟩,
     ⟨"block", "block", none⟩,
     ⟨"declaration_list", "impl_item", some "body"⟩,
     ⟨"declaration_list", "trait_item", some "body"⟩]
  | _ => []

/-- A child stands in a place of its parent. -/
def Fits (place : Place) (parent child : ParseTree) : Prop :=
  child.kind = place.kind ∧ parent.kind = place.parent ∧
    (place.field = none ∨ child.info.field = place.field)

instance (place : Place) (parent child : ParseTree) : Decidable (place.Fits parent child) :=
  inferInstanceAs (Decidable (_ ∧ _ ∧ (_ ∨ _)))

/-- A parent has a child in a place, and finds it in the field of the place. -/
structure Holds (place : Place) (parent child : ParseTree) : Prop where
  kind_eq : child.kind = place.kind
  parent_eq : parent.kind = place.parent
  child?_eq : ∀ field, place.field = some field → parent.child? field = some child

end Place

namespace ParseTree

/-- A container or a scope has the functions and containers right below it in places that the
grammar has for them, and no two children in the fields that lead to members. -/
def WellPlaced (grammar : Language) (parent : ParseTree) : Prop :=
  parent.kind ∈ NodeKinds.memberContainers ++ NodeKinds.memberScopes →
    (∀ child ∈ parent.namedChildren, child.kind ∈ Place.functions ++ NodeKinds.memberContainers →
      ∃ place ∈ Place.all grammar, place.Fits parent child) ∧
    ∀ field ∈ ["body", "definition"], (parent.childrenIn field).length ≤ 1

instance (grammar : Language) (parent : ParseTree) : Decidable (parent.WellPlaced grammar) :=
  inferInstanceAs (Decidable (_ → _ ∧ _))

/-- A tree puts its functions into places of a grammar. -/
def Follows (grammar : Language) (root : ParseTree) : Prop :=
  ∀ node ∈ Cursor.nodes ⟨root, []⟩, node.tree.WellPlaced grammar

instance (grammar : Language) (root : ParseTree) : Decidable (root.Follows grammar) :=
  inferInstanceAs (Decidable (∀ node ∈ Cursor.nodes ⟨root, []⟩, _))

/-- The only child in a field is the one that is found there. -/
private lemma child?_eq_some {tree child : ParseTree} {field : String}
    (hMem : child ∈ tree.children) (hField : child.info.field = some field)
    (hSingle : (tree.childrenIn field).length ≤ 1) :
    tree.child? field = some child := by
  have hThere : child ∈ tree.childrenIn field := by
    rw [childrenIn, List.mem_filter]
    exact ⟨hMem, by simp [hField]⟩
  obtain ⟨only, hOnly⟩ : ∃ only, tree.childrenIn field = [only] :=
    List.length_eq_one_iff.1 (by
      have := List.length_pos_of_mem hThere
      omega)
  rw [child?, ← List.head?_filter, ← childrenIn, hOnly]
  rw [hOnly, List.mem_singleton] at hThere
  rw [hThere]
  rfl

/-- A container or a scope holds the functions and containers right below it in places. -/
private lemma WellPlaced.exists_holds {grammar : Language} {parent child : ParseTree}
    (h : parent.WellPlaced grammar)
    (hParent : parent.kind ∈ NodeKinds.memberContainers ++ NodeKinds.memberScopes)
    (hChild : child ∈ parent.namedChildren)
    (hKind : child.kind ∈ Place.functions ++ NodeKinds.memberContainers) :
    ∃ place ∈ Place.all grammar, place.Holds parent child := by
  obtain ⟨hPlaces, hSingle⟩ := h hParent
  obtain ⟨place, hPlace, hChildKind, hParentKind, hField⟩ := hPlaces child hChild hKind
  refine ⟨place, hPlace, hChildKind, hParentKind, fun field hFixed => ?_⟩
  have hKnown : field ∈ ["body", "definition"] := by
    have hFields : ∀ place ∈ Place.all grammar, ∀ field ∈ place.field,
        field ∈ ["body", "definition"] := by
      cases grammar <;> decide
    exact hFields place hPlace field hFixed
  have hThere : child.info.field = some field := by
    rcases hField with hNone | hSome
    · rw [hFixed] at hNone
      cases hNone
    · rw [hSome, hFixed]
  exact child?_eq_some (List.mem_of_mem_filter hChild) hThere (hSingle field hKnown)

end ParseTree

/-! ## The way up -/

namespace Cursor

/-- The first construct around a node that is no container. -/
def owner? (cursor : Cursor) : Option ParseTree :=
  (cursor.ancestors.dropWhile fun a => NodeKinds.memberContainers.contains a.kind).head?

/-- A node in a container has the owner of the container, and any other node is right below its
owner. -/
private lemma owner?_of_mem_namedChildren {parent cursor : Cursor}
    (h : cursor ∈ parent.namedChildren) :
    cursor.owner? =
      if parent.tree.kind ∈ NodeKinds.memberContainers then parent.owner?
      else some parent.tree := by
  obtain ⟨child, -, rfl⟩ := List.mem_map.1 h
  unfold owner? down
  rw [List.dropWhile_cons]
  simp only [List.contains_iff_mem]
  split <;> rfl

end Cursor

namespace Subject

variable {subject : Subject} {grammar : Language} {root : ParseTree} {cursor : Cursor}

/-- A function is a member if its owner is a scope that takes care of functions. -/
lemma isMember_iff : isMember cursor ↔
    ∃ owner, cursor.owner? = some owner ∧ owner.kind ∈ NodeKinds.memberScopes := by
  unfold isMember Cursor.owner?
  dsimp only
  split
  · next owner hOwner =>
    rw [hOwner]
    simp
  · next hNone =>
    rw [hNone]
    simp

/-- What is entered is a construct of the tree. -/
lemma mem_nodes_of_mem_entered {start : Cursor} (h : cursor ∈ subject.entered start) :
    cursor ∈ start.nodes := by
  induction start using Cursor.induct with
  | h start ih =>
    rw [Cursor.nodes_eq]
    rcases mem_entered_iff.1 h with rfl | ⟨-, child, hChild, hMem⟩
    · exact List.mem_cons_self
    · exact List.mem_cons_of_mem _ (List.mem_flatMap.2 ⟨child, hChild, ih child hChild hMem⟩)

/-- A node that is entered is the first one, or it is right below one that is entered. -/
private lemma exists_parent_of_mem_entered {start : Cursor} (h : cursor ∈ subject.entered start) :
    cursor = start ∨ ∃ parent ∈ subject.entered start, cursor ∈ parent.namedChildren := by
  induction start using Cursor.induct with
  | h start ih =>
    rcases mem_entered_iff.1 h with rfl | ⟨hDescends, child, hChild, hMem⟩
    · exact Or.inl rfl
    · refine Or.inr ?_
      rcases ih child hChild hMem with rfl | ⟨parent, hParent, hBelow⟩
      · exact ⟨start, mem_entered_iff.2 (Or.inl rfl), hChild⟩
      · exact ⟨parent, mem_entered_iff.2 (Or.inr ⟨hDescends, child, hChild, hParent⟩), hBelow⟩

/-- The tree of a node right below is right below the tree. -/
lemma tree_mem_namedChildren {parent : Cursor} (h : cursor ∈ parent.namedChildren) :
    cursor.tree ∈ parent.tree.namedChildren := by
  rw [← Cursor.map_tree_namedChildren]
  exact List.mem_map_of_mem h

/-- **One step up.** A function or a container that has a scope for its owner stands in a place of
its parent. The parent is a container with the same owner, or it is the owner.

**Proof sketch.** It has an owner, so it is not the root, and its parent was entered as well. If the
parent is a container, the owner is that of the parent, and otherwise it is the parent; in both
cases the grammar says which places there are below the parent. -/
theorem exists_place_of_isMember (hFollows : root.Follows grammar)
    (hEntered : cursor ∈ subject.entered ⟨root, []⟩)
    (hKind : cursor.tree.kind ∈ Place.functions ++ NodeKinds.memberContainers)
    (hMember : isMember cursor) :
    ∃ parent ∈ subject.entered ⟨root, []⟩, cursor ∈ parent.namedChildren ∧
      (∃ place ∈ Place.all grammar, place.Holds parent.tree cursor.tree) ∧
      (parent.tree.kind ∈ NodeKinds.memberContainers ∧ isMember parent ∧
          cursor.owner? = parent.owner? ∨
        parent.tree.kind ∈ NodeKinds.memberScopes ∧ cursor.owner? = some parent.tree) := by
  obtain ⟨owner, hOwner, hScope⟩ := isMember_iff.1 hMember
  rcases exists_parent_of_mem_entered hEntered with rfl | ⟨parent, hParent, hBelow⟩
  · cases hOwner
  · have hPlaced := hFollows parent (mem_nodes_of_mem_entered hParent)
    have hTree := tree_mem_namedChildren hBelow
    have hUp := Cursor.owner?_of_mem_namedChildren hBelow
    split at hUp
    · next hContainer =>
      refine ⟨parent, hParent, hBelow, ?_, Or.inl ⟨hContainer, ?_, hUp⟩⟩
      · exact hPlaced.exists_holds (List.mem_append_left _ hContainer) hTree hKind
      · exact isMember_iff.2 ⟨owner, hUp ▸ hOwner, hScope⟩
    · have hSame : owner = parent.tree := Option.some.inj (hOwner.symm.trans hUp)
      rw [hSame] at hScope
      refine ⟨parent, hParent, hBelow, ?_, Or.inr ⟨hScope, hUp⟩⟩
      exact hPlaced.exists_holds (List.mem_append_right _ hScope) hTree hKind

/-- A container that the grammar has only as the body of scopes is the body of its owner. -/
lemma exists_owner_of_body (hFollows : root.Follows grammar)
    (hEntered : cursor ∈ subject.entered ⟨root, []⟩)
    (hKind : cursor.tree.kind ∈ NodeKinds.memberContainers) (hMember : isMember cursor)
    (hPlaces : ∀ place ∈ Place.all grammar, place.kind = cursor.tree.kind →
      place.field = some "body" ∧ place.parent ∉ NodeKinds.memberContainers) :
    ∃ owner ∈ subject.entered ⟨root, []⟩, cursor.owner? = some owner.tree ∧
      (∃ place ∈ Place.all grammar, place.Holds owner.tree cursor.tree) ∧
      bodyItems owner.tree = cursor.tree.namedChildren := by
  obtain ⟨parent, hParent, -, ⟨place, hPlace, hHolds⟩, hUp⟩ :=
    exists_place_of_isMember hFollows hEntered (List.mem_append_right _ hKind) hMember
  obtain ⟨hField, hNot⟩ := hPlaces place hPlace hHolds.kind_eq.symm
  rcases hUp with ⟨hContainer, -⟩ | ⟨-, hOwner⟩
  · exact absurd (hHolds.parent_eq ▸ hContainer) hNot
  · refine ⟨parent, hParent, hOwner, ⟨place, hPlace, hHolds⟩, ?_⟩
    unfold bodyItems
    rw [hHolds.child?_eq _ hField]

/-- A function or a container that the grammar does not have right below scopes has the owner of the
container around it. -/
lemma exists_container_of_isMember (hFollows : root.Follows grammar)
    (hEntered : cursor ∈ subject.entered ⟨root, []⟩)
    (hKind : cursor.tree.kind ∈ Place.functions ++ NodeKinds.memberContainers)
    (hMember : isMember cursor)
    (hPlaces : ∀ place ∈ Place.all grammar, place.kind = cursor.tree.kind →
      place.parent ∉ NodeKinds.memberScopes) :
    ∃ parent ∈ subject.entered ⟨root, []⟩, cursor ∈ parent.namedChildren ∧
      (∃ place ∈ Place.all grammar, place.Holds parent.tree cursor.tree) ∧
      parent.tree.kind ∈ NodeKinds.memberContainers ∧ isMember parent ∧
      cursor.owner? = parent.owner? := by
  obtain ⟨parent, hParent, hBelow, ⟨place, hPlace, hHolds⟩, hUp⟩ :=
    exists_place_of_isMember hFollows hEntered hKind hMember
  rcases hUp with hContainer | ⟨hScope, -⟩
  · exact ⟨parent, hParent, hBelow, ⟨place, hPlace, hHolds⟩, hContainer⟩
  · exact absurd (hHolds.parent_eq ▸ hScope) (hPlaces place hPlace hHolds.kind_eq.symm)

/-- Blocks in Rust are in blocks and in what is no scope, so they have no scope for their owner. -/
private lemma not_isMember_of_block (hFollows : root.Follows .rust)
    (hEntered : cursor ∈ subject.entered ⟨root, []⟩) (hKind : cursor.tree.kind = "block") :
    ¬isMember cursor := by
  -- the block around a block has one node less around it
  induction hAround : cursor.ancestors generalizing cursor with
  | nil => simp [isMember_iff, Cursor.owner?, hAround]
  | cons first others ih =>
    intro hMember
    obtain ⟨parent, hParent, hBelow, ⟨place, hPlace, hHolds⟩, -, hParentMember, -⟩ :=
      exists_container_of_isMember hFollows hEntered (by rw [hKind]; decide) hMember
        (by rw [hKind]; decide)
    have hBlocks : ∀ place ∈ Place.all .rust, place.kind = "block" → place.parent = "block" := by
      decide
    have hBlock : parent.tree.kind = "block" :=
      hHolds.parent_eq.trans (hBlocks place hPlace (hHolds.kind_eq ▸ hKind))
    refine ih hParent hBlock ?_ hParentMember
    obtain ⟨child, -, rfl⟩ := List.mem_map.1 hBelow
    exact (List.cons.inj hAround).2

/-- A Rust function that is left to its owner is one of the functions in the body of a block of
methods or of a trait.

**Proof sketch.** Up from the function by places of the grammar. Its parent is a block or a list of
declarations, and a block has no scope for an owner. The list is the body of a block of methods or
of a trait, and the function is one of its items. -/
private lemma exists_owner_of_function_item (hFollows : root.Follows .rust)
    (hEntered : cursor ∈ subject.entered ⟨root, []⟩) (hKind : cursor.tree.kind = "function_item")
    (hMember : isMember cursor) :
    ∃ owner ∈ subject.entered ⟨root, []⟩, cursor.owner? = some owner.tree ∧
      (owner.tree.kind = "impl_item" ∨ owner.tree.kind = "trait_item") ∧
      cursor.tree ∈ functionItems owner.tree := by
  obtain ⟨parent, hParent, hBelow, ⟨place, hPlace, hHolds⟩, hContainer, hParentMember, hSame⟩ :=
    exists_container_of_isMember hFollows hEntered (by rw [hKind]; decide) hMember
      (by rw [hKind]; decide)
  have hParents : ∀ place ∈ Place.all .rust, place.kind = "function_item" →
      place.parent = "block" ∨ place.parent = "declaration_list" := by decide
  rcases hParents place hPlace (hHolds.kind_eq ▸ hKind) with hBlock | hList
  · exact absurd hParentMember
      (not_isMember_of_block hFollows hParent (hHolds.parent_eq.trans hBlock))
  · have hListKind : parent.tree.kind = "declaration_list" := hHolds.parent_eq.trans hList
    obtain ⟨owner, hOwner, hFound, ⟨place, hPlace, hHolds⟩, hItems⟩ :=
      exists_owner_of_body hFollows hParent hContainer hParentMember (by rw [hListKind]; decide)
    have hOwners : ∀ place ∈ Place.all .rust, place.kind = "declaration_list" →
        place.parent = "impl_item" ∨ place.parent = "trait_item" := by decide
    refine ⟨owner, hOwner, hSame.trans hFound, ?_, ?_⟩
    · rw [hHolds.parent_eq]
      exact hOwners place hPlace (hHolds.kind_eq ▸ hListKind)
    · rw [functionItems, hItems, List.mem_filter]
      exact ⟨tree_mem_namedChildren hBelow, by rw [hKind]; rfl⟩

/-- What is in a Python block with a scope for its owner is in the body of a class. -/
private lemma exists_class_of_block (hFollows : root.Follows .python)
    (hEntered : cursor ∈ subject.entered ⟨root, []⟩) (hKind : cursor.tree.kind = "block")
    (hMember : isMember cursor) :
    ∃ owner ∈ subject.entered ⟨root, []⟩, cursor.owner? = some owner.tree ∧
      owner.tree.kind = "class_definition" ∧ bodyItems owner.tree = cursor.tree.namedChildren := by
  obtain ⟨owner, hOwner, hFound, ⟨place, hPlace, hHolds⟩, hItems⟩ :=
    exists_owner_of_body hFollows hEntered (by rw [hKind]; decide) hMember
      (by rw [hKind]; decide)
  have hOwners : ∀ place ∈ Place.all .python, place.kind = "block" →
      place.parent = "class_definition" := by decide
  exact ⟨owner, hOwner, hFound,
    hHolds.parent_eq.trans (hOwners place hPlace (hHolds.kind_eq ▸ hKind)), hItems⟩

/-- A Python function that is left to its owner is one of the methods in the body of a class, with
decorators or without.

**Proof sketch.** Up from the function by places of the grammar. Its parent is a block, which is the
body of a class (`exists_class_of_block`), or a decorated definition, which holds it as its
definition and stands in such a block itself. -/
private lemma exists_owner_of_function_definition (hFollows : root.Follows .python)
    (hEntered : cursor ∈ subject.entered ⟨root, []⟩)
    (hKind : cursor.tree.kind = "function_definition") (hMember : isMember cursor) :
    ∃ owner ∈ subject.entered ⟨root, []⟩, cursor.owner? = some owner.tree ∧
      owner.tree.kind = "class_definition" ∧
      cursor.tree ∈ (bodyItems owner.tree).filterMap methodOf? := by
  obtain ⟨parent, hParent, hBelow, ⟨place, hPlace, hHolds⟩, hContainer, hParentMember, hSame⟩ :=
    exists_container_of_isMember hFollows hEntered (by rw [hKind]; decide) hMember
      (by rw [hKind]; decide)
  have hParents : ∀ place ∈ Place.all .python, place.kind = "function_definition" →
      place.parent = "block" ∨
        place.parent = "decorated_definition" ∧ place.field = some "definition" := by decide
  rcases hParents place hPlace (hHolds.kind_eq ▸ hKind) with hBlock | ⟨hDecorated, hField⟩
  · obtain ⟨owner, hOwner, hFound, hClass, hItems⟩ :=
      exists_class_of_block hFollows hParent (hHolds.parent_eq.trans hBlock) hParentMember
    refine ⟨owner, hOwner, hSame.trans hFound, hClass, List.mem_filterMap.2 ⟨cursor.tree, ?_, ?_⟩⟩
    · rw [hItems]
      exact tree_mem_namedChildren hBelow
    · simp [methodOf?, hKind]
  · -- one step more, from the decorated definition to the block around it
    have hDecoratedKind : parent.tree.kind = "decorated_definition" :=
      hHolds.parent_eq.trans hDecorated
    obtain ⟨block, hBlock, hInBlock, ⟨outer, hOuter, hOuterHolds⟩, -, hBlockMember, hBlockSame⟩ :=
      exists_container_of_isMember hFollows hParent (List.mem_append_right _ hContainer)
        hParentMember (by rw [hDecoratedKind]; decide)
    have hBlocks : ∀ place ∈ Place.all .python, place.kind = "decorated_definition" →
        place.parent = "block" := by decide
    obtain ⟨owner, hOwner, hFound, hClass, hItems⟩ :=
      exists_class_of_block hFollows hBlock (hOuterHolds.parent_eq.trans
        (hBlocks outer hOuter (hOuterHolds.kind_eq ▸ hDecoratedKind))) hBlockMember
    refine ⟨owner, hOwner, (hSame.trans hBlockSame).trans hFound, hClass,
      List.mem_filterMap.2 ⟨parent.tree, ?_, ?_⟩⟩
    · rw [hItems]
      exact tree_mem_namedChildren hInBlock
    · simp [methodOf?, hDecoratedKind, hHolds.child?_eq _ hField, hKind]

end Subject

/-! ## The way down -/

/-- The kinds of functions tell the grammars apart. -/
private lemma Category.kind_of_function {language : Language} {kind : String}
    (h : Category.of? language kind = some .function) :
    kind = "function_declaration" ∨ kind = "generator_function_declaration" ∨
      kind = "function_definition" ∧ language = .python ∨
      kind = "function_item" ∧ language = .rust := by
  have hEcmaScript : ∀ {kind : String}, ofEcmaScript? kind = some .function →
      kind = "function_declaration" ∨ kind = "generator_function_declaration" := by
    intro kind h
    unfold ofEcmaScript? at h
    split at h <;> simp_all
  unfold of? at h
  split at h
  · exact (hEcmaScript h).imp_right Or.inl
  · exact (hEcmaScript h).imp_right Or.inl
  · exact (hEcmaScript h).imp_right Or.inl
  · unfold ofPython? at h
    split at h <;> simp_all
  · unfold ofRust? at h
    split at h <;> simp_all
  · cases h

namespace Subject

/-- The name under which an owner takes down its members: the type that a block of methods is for,
or the name that a class or a trait declares. -/
def ownerName? (subject : Subject) (owner : ParseTree) : Option String :=
  if owner.kind = "impl_item" then owner.child? "type" >>= subject.typeName?
  else owner.fieldText? "name" subject.text

variable {subject : Subject} {grammar : Language} {root : ParseTree} {cursor : Cursor}

/-- A class takes down its methods. -/
lemma member_subset_classSteps {node method : ParseTree} {name : String}
    (hName : node.fieldText? "name" subject.text = some name)
    (hMethod : method ∈ (bodyItems node).filterMap methodOf?) :
    subject.member (subject.symbolId name) name method ⊆ subject.classSteps node := by
  intro step hStep
  rw [classSteps, hName]
  exact List.mem_append_right _ (List.mem_flatMap.2 ⟨method, hMethod, hStep⟩)

/-- A trait takes down its functions that have a body. -/
lemma member_subset_interfaceSteps {node method : ParseTree} {name : String}
    (hRust : subject.language = .rust)
    (hName : node.fieldText? "name" subject.text = some name)
    (hMethod : method ∈ functionItems node) :
    subject.member (subject.symbolId name) name method ⊆ subject.interfaceSteps node := by
  intro step hStep
  rw [interfaceSteps, hName]
  dsimp only
  rw [if_pos hRust]
  exact List.mem_append_right _ (List.mem_flatMap.2 ⟨method, hMethod, hStep⟩)

/-- A block of methods takes down its functions, if the type that it is for has a name. -/
lemma member_subset_implementationSteps {node method : ParseTree} {name : String}
    (hName : node.child? "type" >>= subject.typeName? = some name)
    (hMethod : method ∈ functionItems node) :
    subject.member (subject.symbolId name) name method ⊆ subject.implementationSteps node := by
  intro step hStep
  rw [implementationSteps, hName]
  exact List.mem_append_right _ (List.mem_flatMap.2 ⟨method, hMethod, hStep⟩)

/-- **A function that is left to its owner is taken down by it.** In a tree that follows a grammar,
what a function finds when it looks for its owner is a node that the walk enters, and this node
takes the steps of the function as a member, if it has a name.

**Proof sketch.** Each grammar has few ways from a function up to a scope. On each of them the
function is found again on the way down from the scope. -/
theorem exists_owner_of_isMember (hFollows : root.Follows grammar)
    (hEntered : cursor ∈ subject.entered ⟨root, []⟩)
    (hFunction : subject.category? cursor = some .function) (hMember : isMember cursor) :
    ∃ owner ∈ subject.entered ⟨root, []⟩, cursor.owner? = some owner.tree ∧
      ∀ name, subject.ownerName? owner.tree = some name →
        subject.member (subject.symbolId name) name cursor.tree ⊆ subject.steps owner := by
  -- two grammars have places for functions, each for functions of its own
  have hPlaces : ∀ place ∈ Place.all grammar, place.kind ≠ "function_declaration" ∧
      place.kind ≠ "generator_function_declaration" ∧
      (place.kind = "function_definition" → grammar = .python) ∧
      (place.kind = "function_item" → grammar = .rust) := by
    cases grammar <;> decide
  have hKinds : cursor.tree.kind ∈ Place.functions := by
    rcases Category.kind_of_function hFunction with h | h | ⟨h, -⟩ | ⟨h, -⟩ <;> rw [h] <;> decide
  obtain ⟨_, -, -, ⟨place, hPlace, hHolds⟩, -⟩ :=
    exists_place_of_isMember hFollows hEntered (List.mem_append_left _ hKinds) hMember
  obtain ⟨hDeclaration, hGenerator, hDefinition, hItem⟩ := hPlaces place hPlace
  rcases Category.kind_of_function hFunction with
    hKind | hKind | ⟨hKind, hPython⟩ | ⟨hKind, hRust⟩
  · exact absurd (hHolds.kind_eq.symm.trans hKind) hDeclaration
  · exact absurd (hHolds.kind_eq.symm.trans hKind) hGenerator
  · obtain rfl := hDefinition (hHolds.kind_eq.symm.trans hKind)
    obtain ⟨owner, hOwner, hFound, hClass, hMethod⟩ :=
      exists_owner_of_function_definition hFollows hEntered hKind hMember
    refine ⟨owner, hOwner, hFound, fun name hName => ?_⟩
    have hCategory : subject.category? owner = some .classLike := by
      rw [category?, hPython, hClass]
      rfl
    rw [ownerName?, hClass, if_neg (by decide)] at hName
    rw [steps, hCategory]
    exact member_subset_classSteps hName hMethod
  · obtain rfl := hItem (hHolds.kind_eq.symm.trans hKind)
    obtain ⟨owner, hOwner, hFound, hOwnerKind, hMethod⟩ :=
      exists_owner_of_function_item hFollows hEntered hKind hMember
    refine ⟨owner, hOwner, hFound, fun name hName => ?_⟩
    rcases hOwnerKind with hImpl | hTrait
    · have hCategory : subject.category? owner = some .implementation := by
        rw [category?, hRust, hImpl]
        rfl
      rw [ownerName?, if_pos hImpl] at hName
      rw [steps, hCategory]
      exact member_subset_implementationSteps hName hMethod
    · have hCategory : subject.category? owner = some .interface := by
        rw [category?, hRust, hTrait]
        rfl
      rw [ownerName?, hTrait, if_neg (by decide)] at hName
      rw [steps, hCategory]
      exact member_subset_interfaceSteps hRust hName hMethod

/-- An entity that an entered node records is in the extraction. -/
private lemma id_mem_of_mem_steps {fileModule entity : Entity} {node : Cursor}
    (hNode : node ∈ subject.entered ⟨root, []⟩)
    (hStep : Step.record (.entity entity) ∈ subject.steps node) :
    entity.id ∈ (Extraction.ofFacts
      (.entity fileModule :: subject.visit ⟨root, []⟩)).entities.map Entity.id := by
  refine Extraction.mem_ids_ofFacts.2 ⟨entity, List.mem_cons_of_mem _ ?_, rfl⟩
  refine mem_visit_iff.2 ⟨node, hNode, Or.inl ?_⟩
  exact List.mem_flatMap.2 ⟨_, hStep, List.mem_singleton_self _⟩

/-- A tree without anything below its root has no name to read. -/
private lemma children_ne_nil_of_name {name : String}
    (hEntered : cursor ∈ subject.entered ⟨root, []⟩)
    (hName : cursor.tree.fieldText? "name" subject.text = some name) : root.children ≠ [] := by
  intro hEmpty
  have hBelow : (⟨root, []⟩ : Cursor).namedChildren = [] := by
    simp [Cursor.namedChildren, ParseTree.namedChildren, hEmpty]
  rcases mem_entered_iff.1 hEntered with rfl | ⟨-, child, hChild, -⟩
  · simp [ParseTree.fieldText?, ParseTree.child?, hEmpty] at hName
  · rw [hBelow] at hChild
    cases hChild

/-- **Every function is taken down, unless its owner has no name.** Let a tree follow a grammar and
its cost be within the limit. Then the extraction succeeds, and for every function that the walk
enters and whose name can be read there is an entity: under the name of the function if it is no
member, and else under the name of the owner that it finds and its own, if the owner has a name.

**Proof sketch.** A function that is no member declares itself. Any other is found by its owner,
which the walk enters before it. -/
theorem names_of_function (subject : Subject) (limits : ExtractionLimits) (fileModule : Entity)
    (grammar : Language) (root : ParseTree) (hFollows : root.Follows grammar)
    (hCost : subject.cost ⟨root, []⟩ ≤ limits.maxNodes) (cursor : Cursor) (name : String)
    (hEntered : cursor ∈ subject.entered ⟨root, []⟩)
    (hFunction : subject.category? cursor = some .function)
    (hName : cursor.tree.fieldText? "name" subject.text = some name) :
    ∃ extraction, subject.extraction limits fileModule root = .ok extraction ∧
      (isMember cursor = false →
        subject.symbolId name ∈ extraction.entities.map Entity.id) ∧
      (isMember cursor = true → ∃ owner, cursor.owner? = some owner ∧
        owner.kind ∈ NodeKinds.memberScopes ∧
        ∀ ownerName, subject.ownerName? owner = some ownerName →
          subject.memberId ownerName name ∈ extraction.entities.map Entity.id) := by
  have hRoot := children_ne_nil_of_name hEntered hName
  refine ⟨_, by rw [extraction_eq, if_neg (by simpa using hRoot), if_pos hCost], ?_, ?_⟩
  · intro hFree
    have hStep : Step.record (.entity (subject.entityOf (subject.symbolId name) name .function
        cursor.tree)) ∈ subject.steps cursor := by
      rw [steps, hFunction]
      show _ ∈ subject.functionSteps cursor
      rw [functionSteps, hFree, hName]
      exact List.mem_cons_self
    exact id_mem_of_mem_steps hEntered hStep
  · intro hMember
    obtain ⟨owner, hOwner, hFound, hTaken⟩ :=
      exists_owner_of_isMember hFollows hEntered hFunction hMember
    obtain ⟨found, hSame, hScope⟩ := isMember_iff.1 hMember
    refine ⟨found, hSame, hScope, fun ownerName hOwnerName => ?_⟩
    cases hSame.symm.trans hFound
    have hStep : Step.record (.entity (subject.entityOf (subject.memberId ownerName name) name
        .method cursor.tree)) ∈ subject.steps owner := by
      refine hTaken ownerName hOwnerName ?_
      rw [member, hName]
      exact List.mem_cons_self
    exact id_mem_of_mem_steps hOwner hStep

end Subject

/-! ## A decorated method -/

namespace DecoratedMethod

/-- The text of the file. -/
def text : String := "class A:\n  @p\n  def m(): pass\n"

/-- The definition of the method. -/
def definition : ParseTree :=
  .node ⟨"function_definition", true, some "definition", 16, 29, 2, 2⟩
    [.node ⟨"def", false, none, 16, 19, 2, 2⟩ [],
     .node ⟨"identifier", true, some "name", 20, 21, 2, 2⟩ [],
     .node ⟨"parameters", true, some "parameters", 21, 23, 2, 2⟩ [],
     .node ⟨":", false, none, 23, 24, 2, 2⟩ [],
     .node ⟨"block", true, some "body", 25, 29, 2, 2⟩
       [.node ⟨"pass_statement", true, none, 25, 29, 2, 2⟩ []]]

/-- The method with its decorator. -/
def decorated : ParseTree :=
  .node ⟨"decorated_definition", true, none, 11, 29, 1, 2⟩
    [.node ⟨"decorator", true, none, 11, 13, 1, 1⟩ [], definition]

/-- The body of the class. -/
def body : ParseTree := .node ⟨"block", true, some "body", 11, 29, 1, 2⟩ [decorated]

/-- The class. -/
def owner : ParseTree :=
  .node ⟨"class_definition", true, none, 0, 29, 0, 2⟩
    [.node ⟨"class", false, none, 0, 5, 0, 0⟩ [],
     .node ⟨"identifier", true, some "name", 6, 7, 0, 0⟩ [],
     .node ⟨":", false, none, 7, 8, 0, 0⟩ [], body]

/-- The file, as a tree. -/
def root : ParseTree := .node ⟨"module", true, none, 0, 30, 0, 3⟩ [owner]

/-- The file. -/
def subject : Subject := ⟨.python, "a.py", text, none⟩

/-- The method, on the way down to it. -/
def method : Cursor := ⟨definition, [decorated, body, owner, root]⟩

/-- The walk enters the method. -/
private lemma method_mem_entered : method ∈ subject.entered ⟨root, []⟩ :=
  List.mem_of_getElem? (show (subject.entered ⟨root, []⟩)[6]? = some method from rfl)

/-- The method is left to its class, and taken down there. -/
theorem names_method :
    root.Follows .python ∧ subject.cost ⟨root, []⟩ ≤ 500000 ∧
    method ∈ subject.entered ⟨root, []⟩ ∧ Subject.isMember method = true ∧
    ∃ extraction, subject.extraction {} (.ofFile "a.py" text none) root = .ok extraction ∧
      "a.py#A.m" ∈ extraction.entities.map Entity.id := by
  have hFollows : root.Follows .python := by decide +kernel
  have hCost : subject.cost ⟨root, []⟩ ≤ 500000 := by decide +kernel
  have hMember : Subject.isMember method = true := by decide +kernel
  obtain ⟨extraction, hExtraction, -, hNamed⟩ :=
    subject.names_of_function {} (.ofFile "a.py" text none) .python root hFollows hCost method "m"
      method_mem_entered (by decide +kernel) (by decide +kernel)
  obtain ⟨found, hFound, -, hNames⟩ := hNamed hMember
  obtain rfl : owner = found := Option.some.inj hFound
  exact ⟨hFollows, hCost, method_mem_entered, hMember, extraction, hExtraction,
    hNames "A" (by decide +kernel)⟩

end DecoratedMethod

/-! ## A method of a slice -/

namespace SliceMethod

/-- The text of the file. -/
def text : String := "impl [u8] { fn m() {} }\n"

/-- The method. -/
def definition : ParseTree :=
  .node ⟨"function_item", true, none, 12, 21, 0, 0⟩
    [.node ⟨"fn", false, none, 12, 14, 0, 0⟩ [],
     .node ⟨"identifier", true, some "name", 15, 16, 0, 0⟩ [],
     .node ⟨"parameters", true, some "parameters", 16, 18, 0, 0⟩
       [.node ⟨"(", false, none, 16, 17, 0, 0⟩ [], .node ⟨")", false, none, 17, 18, 0, 0⟩ []],
     .node ⟨"block", true, some "body", 19, 21, 0, 0⟩
       [.node ⟨"\x7b", false, none, 19, 20, 0, 0⟩ [],
        .node ⟨"\x7d", false, none, 20, 21, 0, 0⟩ []]]

/-- The type that the method is for. -/
def slice : ParseTree :=
  .node ⟨"array_type", true, some "type", 5, 9, 0, 0⟩
    [.node ⟨"[", false, none, 5, 6, 0, 0⟩ [],
     .node ⟨"primitive_type", true, some "element", 6, 8, 0, 0⟩ [],
     .node ⟨"]", false, none, 8, 9, 0, 0⟩ []]

/-- The body of the block. -/
def body : ParseTree :=
  .node ⟨"declaration_list", true, some "body", 10, 23, 0, 0⟩
    [.node ⟨"\x7b", false, none, 10, 11, 0, 0⟩ [], definition,
     .node ⟨"\x7d", false, none, 22, 23, 0, 0⟩ []]

/-- The block of methods. -/
def owner : ParseTree :=
  .node ⟨"impl_item", true, none, 0, 23, 0, 0⟩
    [.node ⟨"impl", false, none, 0, 4, 0, 0⟩ [], slice, body]

/-- The file, as a tree. -/
def root : ParseTree := .node ⟨"source_file", true, none, 0, 24, 0, 1⟩ [owner]

/-- The file. -/
def subject : Subject := ⟨.rust, "hid.rs", text, none⟩

/-- The method, on the way down to it. -/
def method : Cursor := ⟨definition, [body, owner, root]⟩

/-- The walk enters the method. -/
private lemma method_mem_entered : method ∈ subject.entered ⟨root, []⟩ :=
  List.mem_of_getElem? (show (subject.entered ⟨root, []⟩)[5]? = some method from rfl)

/-- No node of the tree takes down anything: the type of the block has no name. -/
private lemma steps_eq_nil : ∀ node ∈ subject.entered ⟨root, []⟩, subject.steps node = [] := by
  have hOthers : ∀ node ∈ subject.entered ⟨root, []⟩, node.tree.kind ≠ "impl_item" →
      (subject.steps node).isEmpty = true := by decide +kernel
  have hSlice : ∀ node ∈ subject.entered ⟨root, []⟩, node.tree.kind = "impl_item" →
      (node.tree.child? "type").map ParseTree.kind = some "array_type" := by decide +kernel
  intro node hNode
  by_cases hKind : node.tree.kind = "impl_item"
  · obtain ⟨type, hType, hArray⟩ := Option.map_eq_some_iff.1 (hSlice node hNode hKind)
    have hCategory : subject.category? node = some .implementation := by
      rw [Subject.category?, hKind]
      rfl
    have hUnnamed : subject.typeName? type = none := by
      rw [Subject.typeName?, hArray]
      rfl
    rw [Subject.steps, hCategory]
    show subject.implementationSteps node.tree = []
    rw [Subject.implementationSteps, hType]
    simp [hUnnamed]
  · exact List.isEmpty_iff.1 (hOthers node hNode hKind)

/-- The walk enters nine nodes and scans none. -/
private lemma cost_root : subject.cost ⟨root, []⟩ = 9 := by
  have hOnes : (subject.entered ⟨root, []⟩).map subject.nodeCost =
      (subject.entered ⟨root, []⟩).map fun _ => 1 := by
    refine List.map_congr_left fun node hNode => ?_
    rw [Subject.nodeCost, steps_eq_nil node hNode]
    rfl
  rw [Subject.cost, hOnes]
  decide +kernel

/-- The tree tells nothing. -/
private lemma visit_root : subject.visit ⟨root, []⟩ = [] := by
  have hExports : ∀ node ∈ subject.entered ⟨root, []⟩, subject.exportedName? node = none := by
    decide +kernel
  refine List.eq_nil_iff_forall_not_mem.2 fun fact hMem => ?_
  obtain ⟨node, hNode, hFact | hFact⟩ := Subject.mem_visit_iff.1 hMem
  · rw [Subject.contribution, steps_eq_nil node hNode] at hFact
    cases hFact
  · rw [Subject.exportFacts, hExports node hNode] at hFact
    cases hFact

/-- **A method of a slice is lost.** It is left to the block of methods around it, and the block,
whose type has no name, takes down nothing. -/
theorem lost_method :
    root.Follows .rust ∧ subject.cost ⟨root, []⟩ ≤ 500000 ∧
    method ∈ subject.entered ⟨root, []⟩ ∧ subject.category? method = some .function ∧
    method.tree.fieldText? "name" subject.text = some "m" ∧ Subject.isMember method = true ∧
    method.owner? = some owner ∧
    ∃ extraction, subject.extraction {} (.ofFile "hid.rs" text none) root = .ok extraction ∧
      ∀ ownerName, subject.memberId ownerName "m" ∉ extraction.entities.map Entity.id := by
  have hCost : subject.cost ⟨root, []⟩ ≤ 500000 := by
    rw [cost_root]
    decide
  refine ⟨by decide +kernel, hCost, method_mem_entered, by decide +kernel, by decide +kernel,
    by decide +kernel, rfl, .ofFacts [.entity (.ofFile "hid.rs" text none)], ?_, ?_⟩
  · rw [Subject.extraction_eq, if_neg (by decide), if_pos hCost, visit_root]
  · intro ownerName hMem
    have hFile : subject.memberId ownerName "m" = "hid.rs" := List.mem_singleton.1 hMem
    have hLength := congrArg String.length hFile
    simp only [Subject.memberId, subject, String.length_append] at hLength
    have hHash : "#".length = 1 := rfl
    omega

end SliceMethod

end CodeAtlas
