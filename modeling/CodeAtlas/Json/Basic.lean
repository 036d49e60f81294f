/-!
# JSON values

## Main definitions

* `CodeAtlas.Json` — a JSON value. Whole numbers are kept apart from all other numbers, since a
  count is never read from `512.0`.
* `CodeAtlas.Json.member?` — a member of an object.
-/

set_option autoImplicit false

namespace CodeAtlas

/-- A JSON value. -/
inductive Json where
  /-- The null value. -/
  | null
  /-- A truth value. -/
  | bool (value : Bool)
  /-- A whole number. -/
  | whole (value : Int)
  /-- Any other number: `digits` times ten to the `exponent`, negated if `negative`. -/
  | decimal (negative : Bool) (digits : Nat) (exponent : Int)
  /-- A text. -/
  | text (value : String)
  /-- A list of values. -/
  | array (items : List Json)
  /-- Named values. -/
  | object (members : List (String × Json))
  deriving BEq, Inhabited

namespace Json

/-- The value of a natural number. -/
def ofNat (n : Nat) : Json := .whole n

/-- The member of an object with a given name. -/
def member? (name : String) : Json → Option Json
  | .object members => members.lookup name
  | _ => none

end Json

end CodeAtlas
