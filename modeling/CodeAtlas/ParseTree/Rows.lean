import CodeAtlas.ParseTree.Basic

/-!
# Trees from rows

A tree travels as the list of its nodes in pre-order, each with the index of its parent.

## Main definitions

* `CodeAtlas.TreeRow` — a node of a flattened tree.
* `CodeAtlas.ParseTree.ofRows?` — the tree that rows spell.

## Implementation notes

The rows are taken from the last to the first. When a row's turn comes, its children have been
assembled and head the list of trees that still wait for their parent.
-/

set_option autoImplicit false

namespace CodeAtlas

/-- A node of a flattened tree. -/
structure TreeRow where
  /-- The index of the row of the parent; the root has none. -/
  parent : Option Nat
  /-- What the node carries. -/
  info : NodeInfo

namespace ParseTree

/-- Puts a row in front of the trees that wait for their parent: those that wait for this row
become its children. -/
def adopt (index : Nat) (row : TreeRow) (waiting : List (Option Nat × ParseTree)) :
    List (Option Nat × ParseTree) :=
  let (mine, others) := waiting.span (·.1 == some index)
  (row.parent, node row.info (mine.map Prod.snd)) :: others

/-- The tree that rows in pre-order spell, if they spell one. -/
def ofRows? (rows : List TreeRow) : Option ParseTree :=
  match rows.zipIdx.foldr (fun (row, index) waiting => adopt index row waiting) [] with
  | [(none, tree)] => some tree
  | _ => none

end ParseTree

end CodeAtlas
