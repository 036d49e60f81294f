import CodeAtlas.ParseTree.Basic

/-!
# Cursors

A cursor is a tree together with the way down to it, so that the constructs around it can be
asked for.

## Main definitions

* `CodeAtlas.Cursor` — a tree and the trees around it, nearest first.
* `CodeAtlas.Cursor.namedChildren` — the cursors one step down.
-/

set_option autoImplicit false

namespace CodeAtlas

/-- A tree and the trees around it. -/
structure Cursor where
  /-- The tree itself. -/
  tree : ParseTree
  /-- The trees around it, nearest first. -/
  ancestors : List ParseTree := []

namespace Cursor

/-- The cursor of a tree below this one. -/
def down (cursor : Cursor) (child : ParseTree) : Cursor :=
  ⟨child, cursor.tree :: cursor.ancestors⟩

/-- The constructs right below. -/
def namedChildren (cursor : Cursor) : List Cursor := cursor.tree.namedChildren.map cursor.down

/-- The number of nodes below several cursors, themselves included. -/
def sizeAll (cursors : List Cursor) : Nat := ParseTree.sizeAll (cursors.map Cursor.tree)

/-- The trees of the cursors one step down. -/
@[simp] theorem map_tree_namedChildren (cursor : Cursor) :
    cursor.namedChildren.map Cursor.tree = cursor.tree.namedChildren := by
  simp [namedChildren, down, Function.comp_def]

/-- The cursors one step down are together smaller. -/
theorem sizeAll_namedChildren_lt (cursor : Cursor) :
    sizeAll cursor.namedChildren < cursor.tree.size := by
  rw [sizeAll, map_tree_namedChildren]
  exact cursor.tree.sizeAll_namedChildren_lt

end Cursor

end CodeAtlas
