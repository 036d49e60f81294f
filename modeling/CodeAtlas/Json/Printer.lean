import CodeAtlas.Json.Basic

/-!
# Writing JSON

## Main definitions

* `CodeAtlas.Json.render` — a value as ASCII text without blanks.
-/

set_option autoImplicit false

namespace CodeAtlas

namespace Json

/-- Four hexadecimal digits. -/
def hexQuad (n : Nat) : List Char :=
  [n / 4096, n / 256, n / 16, n].map fun d => Nat.digitChar (d % 16)

/-- A UTF-16 unit as an escape. -/
def unitEscape (n : Nat) : List Char := '\\' :: 'u' :: hexQuad n

/-- A character inside of a text: quotes, backslashes and all that is not printable ASCII are
escaped, beyond the basic plane as a surrogate pair. -/
def escaped (c : Char) : List Char :=
  let n := c.toNat
  if c = '\x22' || c = '\\' then ['\\', c]
  else if 0x20 ≤ n && n < 0x7F then [c]
  else if n < 0x10000 then unitEscape n
  else unitEscape (0xD800 + (n - 0x10000) / 0x400) ++ unitEscape (0xDC00 + (n - 0x10000) % 0x400)

/-- A text in quotes. -/
def renderText (text : String) : String :=
  String.ofList ('\x22' :: text.toList.flatMap escaped ++ ['\x22'])

/-- A number that is not whole: digits and an exponent, so that it reads back as such. -/
def renderDecimal (negative : Bool) (digits : Nat) (exponent : Int) : String :=
  (if negative then "-" else "") ++ digits.repr ++ "e" ++ exponent.repr

mutual

/-- A value as text. -/
def render : Json → String
  | .null => "null"
  | .bool true => "true"
  | .bool false => "false"
  | .whole n => n.repr
  | .decimal negative digits exponent => renderDecimal negative digits exponent
  | .text t => renderText t
  | .array items => "[" ++ ",".intercalate (renderItems items) ++ "]"
  | .object members => "\x7b" ++ ",".intercalate (renderMembers members) ++ "\x7d"

/-- The texts of an array's items. -/
def renderItems : List Json → List String
  | [] => []
  | item :: rest => render item :: renderItems rest

/-- The texts of an object's members. -/
def renderMembers : List (String × Json) → List String
  | [] => []
  | (name, value) :: rest => (renderText name ++ ":" ++ render value) :: renderMembers rest

end

end Json

end CodeAtlas
