import CodeAtlas.Scan
import CodeAtlas.Toml.Value
import CodeAtlas.Word

/-!
# TOML texts, numbers and moments

## Main definitions

* `CodeAtlas.Toml.basicText`, `literalText`, `longText` — texts in double quotes, in single quotes,
  and in three of either.
* `CodeAtlas.Toml.integer`, `float`, `moment`, `boolean` — the other values without parts.
-/

set_option autoImplicit false

namespace CodeAtlas

namespace Toml

open Scan

/-! ## Blanks -/

/-- Whether a character may stand in a comment, and but for delimiters in a text. -/
def isPlain (c : Char) : Bool :=
  c == '\t' || (0x20 ≤ c.toNat && c.toNat ≤ 0x7E) || 0x80 ≤ c.toNat

/-- Spaces and tabs. -/
def blanks : Scan Unit := do
  let _ ← Scan.takeWhile fun c => c == ' ' || c == '\t'

/-- The end of a line. -/
def newline : Scan Unit := word "\n" <|> word "\r\n"

/-- A comment, up to the end of the line. -/
def comment : Scan Unit := do
  char '#'
  let _ ← Scan.takeWhile isPlain

/-- The reader's part of the text, as it is spelled. -/
def spelled (reader : Scan Unit) : Scan String := fun ahead =>
  (reader ahead).map fun (_, rest) =>
    (String.ofList (ahead.take (ahead.length - rest.length)), rest)

/-! ## Texts -/

/-- The double quote. -/
def quote : Char := '\x22'

/-- The single quote. -/
def apostrophe : Char := '\x27'

/-- The character of a code point that is a scalar value. -/
def scalarValue (count : Nat) : Scan Char := do
  let n ← hexNumber count
  if n.isValidChar then pure (Char.ofNat n) else refuse

/-- A backslash and what it stands for. -/
def escape : Scan Char := do
  char '\\'
  let c ← satisfy fun _ => true
  match c with
  | 'b' => pure '\x08'
  | 't' => pure '\t'
  | 'n' => pure '\n'
  | 'f' => pure '\x0c'
  | 'r' => pure '\r'
  | '\x22' => pure c
  | '\\' => pure c
  | 'u' => scalarValue 4
  | 'U' => scalarValue 8
  | _ => refuse

/-- A character of a text in double quotes. -/
def basicChar : Scan Char :=
  satisfy (fun c => isPlain c && c != quote && c != '\\') <|> escape

/-- A character of a text in single quotes. -/
def literalChar : Scan Char := satisfy fun c => isPlain c && c != apostrophe

/-- A text in double quotes on one line. -/
def basicText : Scan String := do
  char quote
  let chars ← many basicChar
  char quote
  pure (String.ofList chars)

/-- A text in single quotes on one line. -/
def literalText : Scan String := do
  char apostrophe
  let chars ← many literalChar
  char apostrophe
  pure (String.ofList chars)

/-- One or two delimiters inside of a long text. -/
def innerQuotes (delimiter : Char) : Scan (List Char) := fun ahead =>
  let run := ahead.takeWhile (· == delimiter)
  if run.isEmpty || 2 < run.length then none else some (run, ahead.drop run.length)

/-- The three delimiters that end a long text, and the up to two before them that belong to it. -/
def closingQuotes (delimiter : Char) : Scan (List Char) := fun ahead =>
  let count := (ahead.takeWhile (· == delimiter)).length
  if count < 3 then none
  else some (List.replicate (min (count - 3) 2) delimiter, ahead.drop (min count 5))

/-- A backslash at the end of a line, with the blanks and line ends that it joins. -/
def continuation : Scan (List Char) := do
  char '\\'
  blanks
  newline
  let _ ← many (newline <|> (do let _ ← satisfy fun c => c == ' ' || c == '\t'))
  pure []

/-- A text between three delimiters, with its characters. A line end right behind the first
delimiters does not count. -/
def longText (delimiter : Char) (part : Scan (List Char)) : Scan String := do
  word (String.ofList (List.replicate 3 delimiter))
  let _ ← optional newline
  let parts ← many (innerQuotes delimiter <|> (do newline; pure ['\n']) <|> part)
  let tail ← closingQuotes delimiter
  pure (String.ofList (parts.flatten ++ tail))

/-- Any text. -/
def anyText : Scan String :=
  longText quote (continuation <|> (([·]) <$> basicChar)) <|> basicText <|>
    longText apostrophe (([·]) <$> literalChar) <|> literalText

/-! ## Numbers -/

/-- Digits with single underscores between them. -/
def digitRun (base : Nat) : Scan (List Char) := do
  let first ← satisfy (isDigitOf base)
  let rest ← many (do let _ ← optional (char '_'); satisfy (isDigitOf base))
  pure (first :: rest)

/-- The digits of a whole part: a single zero, or a run that does not start with one. -/
def wholeDigits : Scan (List Char) := do
  match ← peek? with
  | some '0' => (do let c ← satisfy fun _ => true; pure [c])
  | _ => digitRun 10

/-- A sign; whether it is a minus. -/
def sign : Scan Bool := do
  let c ← optional (satisfy fun c => c == '+' || c == '-')
  pure (c == some '-')

/-- A whole number in another base than ten, which is marked in front and has no sign. -/
def basedInteger (mark : String) (base : Nat) : Scan Nat := do
  word mark
  let digits ← digitRun base
  pure (numberOf base digits)

/-- A whole number that fits into a signed 64-bit word. -/
def integer : Scan Int := do
  let n : Int ←
    (Int.ofNat <$> basedInteger "0x" 16) <|> (Int.ofNat <$> basedInteger "0o" 8) <|>
    (Int.ofNat <$> basedInteger "0b" 2) <|>
    (do
      let negative ← sign
      let digits ← wholeDigits
      let n : Int := numberOf 10 digits
      pure (if negative then -n else n))
  if Word.isSigned n then pure n else refuse

/-- Whether `digits · 10 ^ exponent` rounds to infinity as a double: it is at least half a unit
above the largest double. Far outside of the decisive range the number of digits settles it. -/
def roundsToInfinity (digits : Nat) (exponent : Int) : Bool :=
  let bound := Nat.pow 2 1024 - Nat.pow 2 970
  let magnitude : Int := (digits.repr.length : Int) + exponent
  if digits = 0 ∨ magnitude ≤ 308 then false
  else if 309 < magnitude then true
  else bound * Nat.pow 10 (-exponent).toNat ≤ digits * Nat.pow 10 exponent.toNat

/-- The digits behind a decimal point. -/
def fraction : Scan (List Char) := do
  char '.'
  digitRun 10

/-- An exponent of ten. -/
def exponent : Scan Int := do
  let _ ← satisfy fun c => c == 'e' || c == 'E'
  let negative ← sign
  let digits ← digitRun 10
  let n : Int := numberOf 10 digits
  pure (if negative then -n else n)

/-- A number with a fraction or an exponent. One that would round to infinity is refused. -/
def decimal : Scan Unit := do
  let negative ← sign
  let digits ← wholeDigits
  let behind ← optional fraction
  let power ← optional exponent
  if behind.isNone && power.isNone then refuse
  else
    let fractionDigits := behind.getD []
    let scale := power.getD 0 - (fractionDigits.length : Int)
    if !negative && roundsToInfinity (numberOf 10 (digits ++ fractionDigits)) scale then refuse
    else pure ()

/-- Infinity or not-a-number. -/
def specialFloat : Scan Unit := do
  let _ ← sign
  word "inf" <|> word "nan"

/-- A float, as it is spelled. -/
def float : Scan String := spelled (decimal <|> specialFloat)

/-! ## Moments -/

/-- A number of exactly `count` digits, between two bounds. -/
def fixedNumber (count low high : Nat) : Scan Nat := fun ahead =>
  let digits := ahead.take count
  let n := numberOf 10 digits
  if digits.length = count ∧ digits.all (isDigitOf 10) ∧ low ≤ n ∧ n ≤ high then
    some (n, ahead.drop count)
  else none

/-- Whether a year has a leap day. -/
def isLeapYear (year : Nat) : Bool := year % 4 == 0 && (year % 100 != 0 || year % 400 == 0)

/-- The number of days of a month. -/
def daysIn (year month : Nat) : Nat :=
  if month = 2 then (if isLeapYear year then 29 else 28)
  else if month = 4 ∨ month = 6 ∨ month = 9 ∨ month = 11 then 30
  else 31

/-- A calendar date. -/
def date : Scan Unit := do
  let year ← fixedNumber 4 0 9999
  char '-'
  let month ← fixedNumber 2 1 12
  char '-'
  let _ ← fixedNumber 2 1 (daysIn year month)

/-- A time of day; a leap second is allowed. -/
def time : Scan Unit := do
  let _ ← fixedNumber 2 0 23
  char ':'
  let _ ← fixedNumber 2 0 59
  char ':'
  let _ ← fixedNumber 2 0 60
  let _ ← optional (do char '.'; takeWhile1 (isDigitOf 10))

/-- The distance from universal time. -/
def offset : Scan Unit :=
  (do let _ ← satisfy fun c => c == 'Z' || c == 'z') <|>
    (do
      let _ ← satisfy fun c => c == '+' || c == '-'
      let _ ← fixedNumber 2 0 23
      char ':'
      let _ ← fixedNumber 2 0 59)

/-- A date, a date with a time, or a time, as it is spelled. -/
def moment : Scan String :=
  let dateTime : Scan Unit := do
    date
    let _ ← optional (do
      let _ ← satisfy fun c => c == 'T' || c == 't' || c == ' '
      time
      let _ ← optional offset)
  spelled (dateTime <|> time)

/-- A truth value. -/
def boolean : Scan Bool := (do word "true"; pure true) <|> (do word "false"; pure false)

end Toml

end CodeAtlas
