import CodeAtlas.Chunk.Budget
import CodeAtlas.Toml.Reader

/-!
# Budgets in settings files

A settings file is a TOML document that names the limits it changes. Entries with other names are
passed over.

## Main definitions

* `CodeAtlas.Budget.ofSettings` — the budget of a settings file, or why there is none.
-/

set_option autoImplicit false

namespace CodeAtlas

namespace Budget

/-- A limit of a settings file: a whole number that is not negative, or the default. -/
def limit? (entries : Toml.Entries) (name : String) (default : Nat) : Option Nat :=
  match entries.lookup name with
  | none => some default
  | some (.integer (.ofNat n)) => some n
  | some _ => none

/-- The limits of a settings file. -/
def ofEntries? (entries : Toml.Entries) : Option Budget := do
  let standard : Budget := {}
  let maxTokens ← limit? entries "maxChunkTokens" standard.maxTokens
  let minTokens ← limit? entries "minChunkTokens" standard.minTokens
  let overlapTokens ← limit? entries "overlapTokens" standard.overlapTokens
  let maxLines ← limit? entries "maxChunkLines" standard.maxLines
  pure { maxTokens, minTokens, overlapTokens, maxLines }

/-- The budget of a settings file. -/
def ofSettings (text : String) : Except ChunkError { b : Budget // b.Valid } :=
  match Toml.parse? text >>= ofEntries? with
  | none => .error (.invalidConfig "Failed to parse config")
  | some budget => budget.validate

end Budget

end CodeAtlas
