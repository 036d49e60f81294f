/-!
# Reading texts from the front

Both data formats that the library reads, JSON and TOML, are read by small readers that take
characters off the front of a text. A reader that fails has taken nothing, so alternatives can be
tried in turn.

## Main definitions

* `CodeAtlas.Scan` — a reader: from the characters ahead to a value and the characters left.
* `CodeAtlas.Scan.satisfy`, `char`, `word`, `takeWhile`, `peek?` — one character, a fixed one, a
  fixed word, a run of characters, and what comes next.
* `CodeAtlas.Scan.many`, `separated` — repetition, bounded by the length of what is ahead.
* `CodeAtlas.Scan.whole?` — the value of a text that is read to its end.
-/

set_option autoImplicit false

namespace CodeAtlas

/-- A reader of a value off the front of a text. -/
abbrev Scan (α : Type) : Type := StateT (List Char) Option α

namespace Scan

variable {α β : Type}

/-- Reads nothing and fails. -/
def refuse : Scan α := fun _ => none

/-- The next character, left in place. -/
def peek? : Scan (Option Char) := fun ahead => some (ahead.head?, ahead)

/-- A character that satisfies a test. -/
def satisfy (p : Char → Bool) : Scan Char
  | c :: rest => if p c then some (c, rest) else none
  | [] => none

/-- A given character. -/
def char (c : Char) : Scan Unit := do
  let _ ← satisfy (· == c)

/-- A given run of characters. -/
def word (text : String) : Scan Unit := fun ahead =>
  if text.toList.isPrefixOf ahead then some ((), ahead.drop text.length) else none

/-- The longest run of characters that satisfy a test. -/
def takeWhile (p : Char → Bool) : Scan (List Char) := fun ahead =>
  some (ahead.takeWhile p, ahead.dropWhile p)

/-- The longest run of characters that satisfy a test, which must not be empty. -/
def takeWhile1 (p : Char → Bool) : Scan (List Char) := do
  let run ← takeWhile p
  if run.isEmpty then refuse else pure run

/-- The end of the text. -/
def atEnd : Scan Unit
  | [] => some ((), [])
  | _ :: _ => none

/-- Items until one fails, at most one for each character of `clock`, behind those already
found, newest first. -/
def manyAlong (item : Scan α) (found : List α) : (clock : List Char) → Scan (List α)
  | [] => pure found.reverse
  | _ :: clock => fun ahead =>
    match item ahead with
    | none => some (found.reverse, ahead)
    | some (a, rest) => manyAlong item (a :: found) clock rest

/-- As many items as can be read. Each item takes a character at least, so there are no more of
them than characters ahead. -/
def many (item : Scan α) : Scan (List α) := fun ahead => manyAlong item [] ahead ahead

/-- Items with a separator between them, possibly none. -/
def separated (item : Scan α) (separator : Scan β) : Scan (List α) := do
  match ← optional item with
  | none => pure []
  | some first => (first :: ·) <$> many (do let _ ← separator; item)

/-- The value of a text that is read to its end. -/
def whole? (reader : Scan α) (text : String) : Option α :=
  ((do let value ← reader; atEnd; pure value : Scan α) text.toList).map Prod.fst

end Scan

/-! ## Numbers -/

namespace Scan

/-- The value of a digit in a base up to sixteen. -/
def digitValue? (base : Nat) (c : Char) : Option Nat :=
  let n := c.toNat
  let value :=
    if '0'.toNat ≤ n && n ≤ '9'.toNat then n - '0'.toNat
    else if 'a'.toNat ≤ n && n ≤ 'f'.toNat then n - 'a'.toNat + 10
    else if 'A'.toNat ≤ n && n ≤ 'F'.toNat then n - 'A'.toNat + 10
    else base
  if value < base then some value else none

/-- Whether a character is a digit of a base. -/
def isDigitOf (base : Nat) (c : Char) : Bool := (digitValue? base c).isSome

/-- The number that digits spell in a base; other characters are passed over. -/
def numberOf (base : Nat) (digits : List Char) : Nat :=
  digits.foldl (fun n c => match digitValue? base c with
    | some d => n * base + d
    | none => n) 0

/-- A given number of hexadecimal digits, as a number. -/
def hexNumber (count : Nat) : Scan Nat := fun ahead =>
  let digits := ahead.take count
  if digits.length = count ∧ digits.all (isDigitOf 16) then
    some (numberOf 16 digits, ahead.drop count)
  else none

end Scan

end CodeAtlas
