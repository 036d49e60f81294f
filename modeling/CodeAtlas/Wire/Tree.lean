import CodeAtlas.ParseTree.Rows
import CodeAtlas.Wire.Record

/-!
# Parse trees on the wire

A tree travels as the array of its nodes in pre-order. A node is an array: the index of its
parent, or minus one for the root; its kind; one if it is named, else zero; its field or null; its
first byte and the one behind its last; and the rows of both.

## Main definitions

* `CodeAtlas.ParseTree.ofJson?` — the tree that a value spells.
-/

set_option autoImplicit false

namespace CodeAtlas

open Json

/-- The node that a value spells. -/
def TreeRow.ofJson? : Json → Option TreeRow
  | .array [.whole parent, .text kind, .whole named, field, startByte, endByte, startRow,
      endRow] => do
    let info : NodeInfo :=
      { kind
        named := named = 1
        field := ← nullable text? (some field)
        startByte := ← count? startByte
        endByte := ← count? endByte
        startRow := ← count? startRow
        endRow := ← count? endRow }
    pure { parent := if parent < 0 then none else some parent.toNat, info }
  | _ => none

/-- The tree that a value spells. -/
def ParseTree.ofJson? (json : Json) : Option ParseTree := do
  ofRows? (← list? TreeRow.ofJson? json)

end CodeAtlas
