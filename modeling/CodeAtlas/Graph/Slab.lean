/-!
# Slabs

A slab keeps values in numbered slots. A freed slot is used again by the next insertion, the most
recently freed one first, so a number may come to stand for another value later.

## Main definitions

* `CodeAtlas.Slab` — slots and the free ones among them.
* `CodeAtlas.Slab.get?`, `insert`, `erase`, `modify` — the value in a slot and its changes.
* `CodeAtlas.Slab.values`, `size` — the values, and their number.
-/

set_option autoImplicit false

namespace CodeAtlas

/-- Values in numbered slots. -/
structure Slab (α : Type) where
  /-- The slots; a free one holds nothing. -/
  slots : List (Option α) := []
  /-- The free slots, the most recently freed first. -/
  free : List Nat := []

namespace Slab

variable {α : Type}

/-- The value in a slot. -/
def get? (slab : Slab α) (slot : Nat) : Option α := slab.slots[slot]?.join

/-- The slot that the next value goes to. -/
def nextSlot (slab : Slab α) : Nat := slab.free.head?.getD slab.slots.length

/-- Puts a value into the next slot. -/
def insert (slab : Slab α) (value : α) : Slab α :=
  match slab.free with
  | [] => { slab with slots := slab.slots ++ [some value] }
  | slot :: rest => ⟨slab.slots.set slot (some value), rest⟩

/-- Frees a slot; nothing happens if it is free or not there. -/
def erase (slab : Slab α) (slot : Nat) : Slab α :=
  if (slab.get? slot).isSome then ⟨slab.slots.set slot none, slot :: slab.free⟩ else slab

/-- Changes the value in a slot, if there is one. -/
def modify (slab : Slab α) (slot : Nat) (change : α → α) : Slab α :=
  { slab with slots := slab.slots.modify slot (Option.map change) }

/-- The values, in the order of their slots. -/
def values (slab : Slab α) : List α := slab.slots.filterMap id

/-- The number of values. -/
def size (slab : Slab α) : Nat := slab.values.length

end Slab

end CodeAtlas
