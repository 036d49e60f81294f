import CodeAtlas.Toml.Scalar

/-!
# Reading TOML documents

A document is a list of statements: headers and assignments. Reading comes first, and then the
statements are carried out one after the other on an empty table.

## Main definitions

* `CodeAtlas.Toml.value` — a value.
* `CodeAtlas.Toml.Statement`, `statements` — the statements of a document and their reader.
* `CodeAtlas.Toml.execute` — the effect of a statement.
* `CodeAtlas.Toml.parse?` — the table that a document spells.

## Implementation notes

Arrays and tables in braces nest less than `Toml.maxDepth` deep, and a dotted key has fewer parts
than that.
-/

set_option autoImplicit false

namespace CodeAtlas

namespace Toml

open Scan

/-- The bound on nesting. -/
def maxDepth : Nat := 80

/-! ## Keys -/

/-- Whether a character may stand in a key without quotes. -/
def isBare (c : Char) : Bool := c.isAlphanum || c == '_' || c == '-'

/-- One part of a key. -/
def keyPart : Scan String := do
  blanks
  let part ← basicText <|> literalText <|> (String.ofList <$> takeWhile1 isBare)
  blanks
  pure part

/-- A dotted key: the parts before the last, and the last. -/
def key : Scan (List String × String) := do
  let parts ← separated keyPart (char '.')
  match parts.getLast? with
  | some last => if parts.length < maxDepth then pure (parts.dropLast, last) else refuse
  | none => refuse

/-! ## Values -/

/-- Blanks, line ends and comments between the items of an array. -/
def gap : Scan Unit := do
  let blank : Scan Unit := do
    let _ ← takeWhile1 fun c => c == ' ' || c == '\t'
  let _ ← many (blank <|> newline <|> comment)

/-- An array of items that are read by `item`; a comma may follow the last. -/
def arrayOf (item : Scan Value) : Scan Value := do
  char '['
  let items ← separated (do gap; let v ← item; gap; pure v) (char ',')
  let _ ← optional (if items.isEmpty then refuse else char ',')
  gap
  char ']'
  pure (.array items)

/-- A table in braces whose values are read by `item`. -/
def tableOf (item : Scan Value) : Scan Value := do
  char '\x7b'
  let entry : Scan ((List String × String) × Value) := do
    let name ← key
    char '='
    blanks
    let v ← item
    blanks
    pure (name, v)
  let pairs ← separated entry (char ',')
  blanks
  char '\x7d'
  match pairs.foldlM (fun entries (name, v) => assign name.1 name.2 v entries) [] with
  | some entries => pure (.table .inline entries)
  | none => refuse

/-- A value without parts. -/
def scalar : Scan Value :=
  (Value.text <$> anyText) <|> (Value.boolean <$> boolean) <|> (Value.moment <$> moment) <|>
    (Value.float <$> float) <|> (Value.integer <$> integer)

/-- A value whose arrays and tables in braces nest at most `depth` deep. -/
def value : (depth : Nat) → Scan Value
  | 0 => scalar
  | depth + 1 => do
    match ← peek? with
    | some '[' => arrayOf (value depth)
    | some '\x7b' => tableOf (value depth)
    | _ => scalar

/-! ## Documents -/

/-- A statement of a document. -/
inductive Statement where
  /-- A table header. -/
  | table (path : List String) (name : String)
  /-- The header of one more table in an array. -/
  | row (path : List String) (name : String)
  /-- A key and its value. -/
  | entry (path : List String) (name : String) (value : Value)

/-- What may follow a statement on its line. -/
def lineEnd : Scan Unit := do
  blanks
  let _ ← optional comment
  newline <|> atEnd

/-- A header in single or double brackets. -/
def header : Scan Statement :=
  (do
    word "[["
    let name ← key
    word "]]"
    pure (.row name.1 name.2)) <|>
  (do
    char '['
    let name ← key
    char ']'
    pure (.table name.1 name.2))

/-- A key and its value. -/
def assignment : Scan Statement := do
  let name ← key
  char '='
  blanks
  let v ← value (maxDepth - 1)
  pure (.entry name.1 name.2 v)

/-- A line of a document, with its statement if it has one. -/
def line : Scan (Option Statement) := do
  blanks
  (do newline; pure none) <|> (do comment; newline <|> atEnd; pure none) <|>
    (do
      let statement ← header <|> assignment
      lineEnd
      pure (some statement))

/-- The statements of a document, which a byte order mark may precede. -/
def statements : Scan (List Statement) := do
  let _ ← optional (char '\uFEFF')
  let lines ← many line
  blanks
  pure (lines.filterMap id)

/-- A document in the making: its table so far, and the path of the table that is open. -/
structure Draft where
  /-- The table of the whole document. -/
  root : Entries := []
  /-- The path of the table that entries go to. -/
  current : List String := []

/-- Carries out a statement. -/
def execute (draft : Draft) : Statement → Option Draft
  | .table path name => do
    let root ← openTable path name draft.root
    pure { root, current := path ++ [name] }
  | .row path name => do
    let root ← openRow path name draft.root
    pure { root, current := path ++ [name] }
  | .entry path name v => do
    let change := fun _ entries => assign path name v entries
    let root ← modifyAt false change .header draft.current draft.root
    pure { draft with root }

/-- The table that a document spells. -/
def parse? (text : String) : Option Entries := do
  let lines ← whole? statements text
  let draft ← lines.foldlM execute {}
  pure draft.root

end Toml

end CodeAtlas
