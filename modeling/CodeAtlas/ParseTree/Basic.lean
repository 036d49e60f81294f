import CodeAtlas.Text.Slice

/-!
# Parse trees

A parse tree is what a grammar makes of a text. Its nodes carry a kind, the bytes and rows that
they cover, and the name of the field under which their parent holds them. Named nodes are the
constructs of the language, the others its keywords and punctuation.

## Main definitions

* `CodeAtlas.NodeInfo`, `CodeAtlas.ParseTree` — what a node carries, and trees of nodes.
* `CodeAtlas.ParseTree.namedChildren`, `child?`, `childrenIn` — the constructs right below a
  node, and the children in a field.
* `CodeAtlas.ParseTree.text?` — the text that a node covers.
* `CodeAtlas.ParseTree.size` — the number of nodes.

## Main results

* `CodeAtlas.ParseTree.size_lt_of_child?` — a child is smaller than the tree it is found in, so
  walks down a tree end.
-/

set_option autoImplicit false

namespace CodeAtlas

/-- What a node of a parse tree carries. -/
structure NodeInfo where
  /-- The kind of construct. -/
  kind : String
  /-- Whether the node is a construct rather than a keyword or punctuation. -/
  named : Bool
  /-- The field under which the parent holds the node. -/
  field : Option String
  /-- The first byte. -/
  startByte : Nat
  /-- The byte behind the last. -/
  endByte : Nat
  /-- The row of the first byte, counted from zero. -/
  startRow : Nat
  /-- The row of the end. -/
  endRow : Nat
  deriving DecidableEq, Repr

/-- A parse tree. -/
inductive ParseTree where
  /-- A node and the trees below it, in the order of the text. -/
  | node (info : NodeInfo) (children : List ParseTree)

namespace ParseTree

/-- What the root carries. -/
def info : ParseTree → NodeInfo
  | node info _ => info

/-- The trees right below the root. -/
def children : ParseTree → List ParseTree
  | node _ children => children

/-- The kind of the root. -/
def kind (tree : ParseTree) : String := tree.info.kind

/-- The first byte that the tree covers. -/
def startByte (tree : ParseTree) : Nat := tree.info.startByte

/-- The byte behind the last that the tree covers. -/
def endByte (tree : ParseTree) : Nat := tree.info.endByte

/-- The constructs right below the root. -/
def namedChildren (tree : ParseTree) : List ParseTree := tree.children.filter (·.info.named)

/-- The children in a field. -/
def childrenIn (tree : ParseTree) (field : String) : List ParseTree :=
  tree.children.filter (·.info.field == some field)

/-- The first child in a field. -/
def child? (tree : ParseTree) (field : String) : Option ParseTree :=
  tree.children.find? (·.info.field == some field)

/-- The first construct of a kind right below the root. -/
def namedChild? (tree : ParseTree) (kind : String) : Option ParseTree :=
  tree.namedChildren.find? (·.kind == kind)

/-- The part of a text that the tree covers, if its bytes are a slice of it. -/
def text? (tree : ParseTree) (text : String) : Option String :=
  Text.slice? text tree.startByte tree.endByte

/-- The text of the first child in a field. -/
def fieldText? (tree : ParseTree) (field text : String) : Option String :=
  tree.child? field >>= (·.text? text)

/-! ## Size -/

mutual

/-- The number of nodes. -/
def size : ParseTree → Nat
  | node _ children => sizeAll children + 1

/-- The number of nodes of several trees. -/
def sizeAll : List ParseTree → Nat
  | [] => 0
  | tree :: rest => size tree + sizeAll rest

end

/-- A tree is one node larger than the trees below its root. -/
private theorem size_eq (tree : ParseTree) : tree.size = sizeAll tree.children + 1 := by
  cases tree
  rfl

/-- The size of two lists of trees. -/
@[simp] theorem sizeAll_append (trees more : List ParseTree) :
    sizeAll (trees ++ more) = sizeAll trees + sizeAll more := by
  induction trees with
  | nil => simp [sizeAll]
  | cons tree rest ih => simp [sizeAll, ih, Nat.add_assoc]

/-- Some of the trees have no more nodes than all of them. -/
private theorem sizeAll_filter_le (p : ParseTree → Bool) (trees : List ParseTree) :
    sizeAll (trees.filter p) ≤ sizeAll trees := by
  induction trees with
  | nil => simp
  | cons tree rest ih =>
    by_cases h : p tree <;> simp [h, sizeAll] <;> omega

/-- A tree has no more nodes than a list that holds it. -/
theorem size_le_of_mem {tree : ParseTree} {trees : List ParseTree} (h : tree ∈ trees) :
    tree.size ≤ sizeAll trees := by
  induction trees with
  | nil => simp at h
  | cons first rest ih =>
    rcases List.mem_cons.1 h with rfl | h
    · simp [sizeAll]
    · have := ih h
      simp only [sizeAll]
      omega

/-- The constructs right below the root are together smaller than the tree. -/
theorem sizeAll_namedChildren_lt (tree : ParseTree) : sizeAll tree.namedChildren < tree.size := by
  have := sizeAll_filter_le (·.info.named) tree.children
  rw [size_eq, namedChildren]
  omega

/-- **Descent.** The child in a field is smaller than the tree. -/
theorem size_lt_of_child? {tree child : ParseTree} {field : String}
    (h : tree.child? field = some child) : child.size < tree.size := by
  have := size_le_of_mem (List.mem_of_find?_eq_some h)
  rw [size_eq tree]
  omega

end ParseTree

end CodeAtlas
