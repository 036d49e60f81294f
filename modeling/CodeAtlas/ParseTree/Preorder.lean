import CodeAtlas.ParseTree.Basic

/-!
# The constructs of a tree

## Main definitions

* `CodeAtlas.ParseTree.constructs` — the root and all trees that are reached from it through
  named children, a parent before its children and these from left to right.
-/

set_option autoImplicit false

namespace CodeAtlas

namespace ParseTree

/-- Goes through the trees that wait, from the first on, adding to the trees seen, newest
first. -/
def traverse : (waiting : List ParseTree) → (seen : List ParseTree) → List ParseTree
  | [], seen => seen
  | tree :: rest, seen => traverse (tree.namedChildren ++ rest) (tree :: seen)
termination_by waiting => sizeAll waiting
decreasing_by
  have := tree.sizeAll_namedChildren_lt
  simp only [sizeAll_append, sizeAll]
  omega

/-- The root and all trees below that are reached through named children, in pre-order. -/
def constructs (tree : ParseTree) : List ParseTree := (traverse [tree] []).reverse

end ParseTree

end CodeAtlas
