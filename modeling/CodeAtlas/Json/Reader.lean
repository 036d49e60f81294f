import CodeAtlas.Json.Basic
import CodeAtlas.Scan
import CodeAtlas.Word

/-!
# Reading JSON

## Main definitions

* `CodeAtlas.Json.parse?` — the value that a text spells, if it spells exactly one.

## Implementation notes

Arrays and objects nest at most `Json.maxDepth` deep, which also bounds the recursion of the
reader. A whole number outside of the range of 64-bit words is kept as a decimal.
-/

set_option autoImplicit false

namespace CodeAtlas

namespace Json

open Scan

/-- The deepest nesting of arrays and objects. -/
def maxDepth : Nat := 127

/-- Blanks between the parts of a value. -/
def blanks : Scan Unit := do
  let _ ← takeWhile fun c => c == ' ' || c == '\t' || c == '\n' || c == '\r'

/-! ## Texts -/

/-- The character of a code point, unless it is half of a surrogate pair. -/
def charOf? (n : Nat) : Option Char := if n.isValidChar then some (Char.ofNat n) else none

/-- What follows `\u`: four hexadecimal digits, and for the first half of a surrogate pair the
second half too. -/
def unicodeEscape : Scan Char := do
  let high ← hexNumber 4
  if 0xD800 ≤ high ∧ high ≤ 0xDBFF then
    word "\\u"
    let low ← hexNumber 4
    if 0xDC00 ≤ low ∧ low ≤ 0xDFFF then
      match charOf? (0x10000 + (high - 0xD800) * 0x400 + (low - 0xDC00)) with
      | some c => pure c
      | none => refuse
    else refuse
  else match charOf? high with
    | some c => pure c
    | none => refuse

/-- What follows a backslash. -/
def escape : Scan Char := do
  let c ← satisfy fun _ => true
  match c with
  | '\x22' => pure c
  | '\\' => pure c
  | '/' => pure c
  | 'b' => pure '\x08'
  | 'f' => pure '\x0c'
  | 'n' => pure '\n'
  | 'r' => pure '\r'
  | 't' => pure '\t'
  | 'u' => unicodeEscape
  | _ => refuse

/-- One character of a text, plain or escaped. -/
def textChar : Scan Char := do
  let c ← satisfy fun c => c != '\x22' && 0x20 ≤ c.toNat
  if c = '\\' then escape else pure c

/-- A text in quotes. -/
def quoted : Scan String := do
  char '\x22'
  let chars ← many textChar
  char '\x22'
  pure (String.ofList chars)

/-! ## Numbers -/

/-- The digits of a whole part: no leading zero. -/
def wholeDigits : Scan (List Char) := do
  let digits ← takeWhile1 (isDigitOf 10)
  if digits.head? = some '0' ∧ 1 < digits.length then refuse else pure digits

/-- A decimal point and the digits behind it. -/
def fraction : Scan (List Char) := do
  char '.'
  takeWhile1 (isDigitOf 10)

/-- An exponent of ten. -/
def exponent : Scan Int := do
  let _ ← satisfy fun c => c == 'e' || c == 'E'
  let sign ← optional (satisfy fun c => c == '+' || c == '-')
  let digits ← takeWhile1 (isDigitOf 10)
  let n : Int := numberOf 10 digits
  pure (if sign = some '-' then -n else n)

/-- The value of a number without fraction and exponent. Negative zero, and what does not fit into
a word, is no whole number. -/
def ofInteger (negative : Bool) (n : Nat) : Json :=
  if negative then
    if 0 < n ∧ n ≤ Word.half then .whole (-(n : Int)) else .decimal true n 0
  else if n < Word.values then .whole n else .decimal false n 0

/-- A number. -/
def number : Scan Json := do
  let sign ← optional (char '-')
  let digits ← wholeDigits
  let decimals ← optional fraction
  let power ← optional exponent
  match decimals, power with
  | none, none => pure (ofInteger sign.isSome (numberOf 10 digits))
  | _, _ =>
    let behind := decimals.getD []
    pure (.decimal sign.isSome (numberOf 10 (digits ++ behind))
      (power.getD 0 - (behind.length : Int)))

/-! ## Values -/

/-- An array whose items are read by `item`. -/
def arrayOf (item : Scan Json) : Scan Json := do
  char '['
  blanks
  let items ← separated (do let v ← item; blanks; pure v) (do char ','; blanks)
  char ']'
  pure (.array items)

/-- An object whose members are read by `item`. -/
def objectOf (item : Scan Json) : Scan Json := do
  char '\x7b'
  blanks
  let member : Scan (String × Json) := do
    let name ← quoted
    blanks
    char ':'
    blanks
    let value ← item
    blanks
    pure (name, value)
  let members ← separated member (do char ','; blanks)
  char '\x7d'
  pure (.object members)

/-- A value that is neither array nor object. -/
def scalar : Scan Json := do
  match ← peek? with
  | some '\x22' => Json.text <$> quoted
  | some 't' => do word "true"; pure (.bool true)
  | some 'f' => do word "false"; pure (.bool false)
  | some 'n' => do word "null"; pure .null
  | _ => number

/-- A value whose arrays and objects nest at most `depth` deep. -/
def value : (depth : Nat) → Scan Json
  | 0 => scalar
  | depth + 1 => do
    match ← peek? with
    | some '[' => arrayOf (value depth)
    | some '\x7b' => objectOf (value depth)
    | _ => scalar

/-- The value that a text spells, if it spells exactly one. -/
def parse? (text : String) : Option Json :=
  whole? (do blanks; let v ← value maxDepth; blanks; pure v) text

end Json

end CodeAtlas
