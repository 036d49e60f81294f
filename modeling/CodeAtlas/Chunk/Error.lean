/-!
# Errors of chunking

None of these leaves the chunker: an error selects line windows instead of declarations, and is
logged there. Only an invalid configuration is reported to the caller.

## Main definitions

* `CodeAtlas.ChunkError` — the causes; `ChunkError.message` — their wording.
-/

set_option autoImplicit false

namespace CodeAtlas

/-- Why a file cannot be cut along its declarations, or a chunker cannot be built. -/
inductive ChunkError where
  /-- The parser gave no tree. -/
  | parse (detail : String)
  /-- There is no grammar for the language. -/
  | unsupportedLanguage (name : String)
  /-- The budget contradicts itself or cannot be read. -/
  | invalidConfig (detail : String)
  /-- A range of bytes is not a slice of the text. -/
  | invalidBoundaries (start stop : Nat)
  /-- A grammar could not be loaded. -/
  | grammar (detail : String)
  deriving DecidableEq, Repr

namespace ChunkError

/-- The text of an error. -/
def message : ChunkError → String
  | parse detail => "Parse error: " ++ detail
  | unsupportedLanguage name => "Unsupported language: " ++ name
  | invalidConfig detail => "Invalid configuration: " ++ detail
  | invalidBoundaries start stop =>
    "Invalid chunk boundaries: start=" ++ start.repr ++ ", end=" ++ stop.repr
  | grammar detail => "Tree-sitter error: " ++ detail

end ChunkError

end CodeAtlas
