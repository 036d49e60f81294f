import CodeAtlas.Json.Basic

/-!
# Records on the wire

A record travels as an object whose members are found by name, unknown ones being passed over, or
as an array that holds the fields in order, trailing ones being left out. A choice travels as its
name, or as an object whose only member has that name and the value null.

## Main definitions

* `CodeAtlas.Json.fields?` — the fields of a record, by name.
* `CodeAtlas.Json.required`, `nullable`, `withDefault` — how an absent field is taken.
* `CodeAtlas.Json.text?`, `count?`, `list?`, `choice?` — the values that fields hold.
* `CodeAtlas.Json.present` — the members of the fields that are present.
-/

set_option autoImplicit false

namespace CodeAtlas

namespace Json

variable {α : Type}

/-- The fields of a record. -/
abbrev Fields : Type := String → Option Json

/-- The fields with these names, in this order, of a value that holds a record. -/
def fields? (names : List String) : Json → Option Fields
  | .object members => some fun name => members.lookup name
  | .array items =>
    if items.length ≤ names.length then some fun name => (names.zip items).lookup name else none
  | _ => none

/-- A field that must be there. -/
def required (read : Json → Option α) (field : Option Json) : Option α := field >>= read

/-- A field that may be absent or null. -/
def nullable (read : Json → Option α) : Option Json → Option (Option α)
  | none => some none
  | some .null => some none
  | some value => (read value).map some

/-- A field that stands for a default when absent. -/
def withDefault (read : Json → Option α) (default : α) : Option Json → Option α
  | none => some default
  | some value => read value

/-- A text. -/
def text? : Json → Option String
  | .text value => some value
  | _ => none

/-- A natural number. -/
def count? : Json → Option Nat
  | .whole (.ofNat n) => some n
  | _ => none

/-- A list of values. -/
def list? (read : Json → Option α) : Json → Option (List α)
  | .array items => items.mapM read
  | _ => none

/-- The members of an object. -/
def members? : Json → Option (List (String × Json))
  | .object members => some members
  | _ => none

/-- One of several alternatives by its name. -/
def choice? (alternatives : List α) (name : α → String) : Json → Option α
  | .text value => alternatives.find? (name · == value)
  | .object [(value, .null)] => alternatives.find? (name · == value)
  | _ => none

/-- The member of an optional field: none if there is no value. -/
def present (name : String) (write : α → Json) : Option α → List (String × Json)
  | none => []
  | some value => [(name, write value)]

end Json

end CodeAtlas
