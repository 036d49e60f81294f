/-!
# TOML values and tables

## Main definitions

* `CodeAtlas.Toml.Value` — a value; floats and moments in time are kept as they are spelled.
* `CodeAtlas.Toml.Origin` — how a table came to be, which decides what may be added to it.
* `CodeAtlas.Toml.modifyAt` — a change to the table at the end of a path.
* `CodeAtlas.Toml.assign`, `openTable`, `openRow` — a key with its value, a table header, and the
  header of one more table in an array of tables.
-/

set_option autoImplicit false

namespace CodeAtlas

namespace Toml

/-- How a table came to be. -/
inductive Origin where
  /-- It was written in braces; nothing can be added to it. -/
  | inline
  /-- It has a header of its own. -/
  | header
  /-- A header further down passes through it. -/
  | implied
  /-- A dotted key passes through it. -/
  | dotted
  deriving DecidableEq, Repr

/-- A value. -/
inductive Value where
  /-- A text. -/
  | text (value : String)
  /-- A whole number. -/
  | integer (value : Int)
  /-- A number with fraction or exponent, or one of the special ones, as it is spelled. -/
  | float (spelling : String)
  /-- A truth value. -/
  | boolean (value : Bool)
  /-- A date, a time or both, as it is spelled. -/
  | moment (spelling : String)
  /-- A list of values. -/
  | array (items : List Value)
  /-- A table. -/
  | table (origin : Origin) (entries : List (String × Value))
  /-- An array of tables, each opened by a header of its own. -/
  | tables (rows : List (List (String × Value)))

/-- The entries of a table, in the order of their first appearance. -/
abbrev Entries : Type := List (String × Value)

/-- The entries with another value under a name that they have. -/
def replace (name : String) (value : Value) (entries : Entries) : Entries :=
  entries.map fun entry => if entry.1 = name then (name, value) else entry

/-- The entries with one more, if its name is new. -/
def add (name : String) (value : Value) (entries : Entries) : Option Entries :=
  match entries.lookup name with
  | none => some (entries ++ [(name, value)])
  | some _ => none

/-- Changes the table at the end of a path, below a table of the given origin, creating the
tables on the way. A path of dotted keys must not enter a table that has a header, no path enters
a table in braces, and in an array of tables a path enters the last one. -/
def modifyAt (dotted : Bool) (change : Origin → Entries → Option Entries) :
    Origin → List String → Entries → Option Entries
  | origin, [], entries => change origin entries
  | _, name :: rest, entries =>
    match entries.lookup name with
    | none => do
      let origin := if dotted then Origin.dotted else Origin.implied
      let inner ← modifyAt dotted change origin rest []
      pure (entries ++ [(name, .table origin inner)])
    | some (.table origin inner) =>
      if origin = .inline ∨ (dotted ∧ origin = .header) then none
      else do
        let inner ← modifyAt dotted change origin rest inner
        pure (replace name (.table origin inner) entries)
    | some (.tables rows) =>
      match rows.getLast? with
      | none => none
      | some last => do
        let last ← modifyAt dotted change .header rest last
        pure (replace name (.tables (rows.dropLast ++ [last])) entries)
    | some _ => none

/-- Gives a value to a dotted key. The tables that the key passes through belong to dotted keys,
the last one strictly so. -/
def assign (path : List String) (name : String) (value : Value) (entries : Entries) :
    Option Entries :=
  if path.isEmpty then add name value entries
  else
    let change := fun origin inner => if origin = .dotted then add name value inner else none
    modifyAt true change .header path entries

/-- Opens a table by its header, which it must not have had before. -/
def openTable (path : List String) (name : String) (root : Entries) : Option Entries :=
  let change := fun _ (entries : Entries) =>
    match entries.lookup name with
    | none => some (entries ++ [(name, .table .header [])])
    | some (.table .implied inner) => some (replace name (.table .header inner) entries)
    | some _ => none
  modifyAt false change .header path root

/-- Opens one more table in an array of tables. -/
def openRow (path : List String) (name : String) (root : Entries) : Option Entries :=
  let change := fun _ (entries : Entries) =>
    match entries.lookup name with
    | none => some (entries ++ [(name, .tables [[]])])
    | some (.tables rows) => some (replace name (.tables (rows ++ [[]])) entries)
    | some _ => none
  modifyAt false change .header path root

end Toml

end CodeAtlas
