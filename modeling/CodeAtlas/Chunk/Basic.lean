import CodeAtlas.Text.Sha256
import CodeAtlas.Text.Tokens
import CodeAtlas.Word

/-!
# Chunks

A chunk is a stretch of one file that fits a token budget.

## Main definitions

* `CodeAtlas.ChunkKind` — the role of a chunk in its file.
* `CodeAtlas.ChunkMetadata` — what is known of the declaration that a chunk holds.
* `CodeAtlas.Chunk` — a chunk; `Chunk.create` derives its hash and its identifier.
-/

set_option autoImplicit false

namespace CodeAtlas

/-- The role of a chunk in its file. -/
inductive ChunkKind where
  /-- A function on its own. -/
  | function
  /-- A function that belongs to a class, a trait or the like. -/
  | method
  /-- A class, a structure or an enumeration. -/
  | classLike
  /-- An interface, a trait or a type alias. -/
  | interface
  /-- What stands between declarations. -/
  | block
  deriving DecidableEq, Repr

namespace ChunkKind

/-- The written form of a kind. -/
def name : ChunkKind → String
  | function => "function"
  | method => "method"
  | classLike => "class"
  | interface => "interface"
  | block => "block"

/-- All kinds. -/
def all : List ChunkKind := [function, method, classLike, interface, block]

end ChunkKind

/-- What is known of the declaration that a chunk holds. -/
structure ChunkMetadata where
  /-- The name of the language, or a label for it. -/
  language : String
  /-- The name of the function or method. -/
  functionName : Option String := none
  /-- The class around a method, or the name of a class-like declaration. -/
  className : Option String := none
  /-- The first telling line of the declaration. -/
  signature : Option String := none
  deriving DecidableEq, Repr

/-- A stretch of one file. -/
structure Chunk where
  /-- What identifies the chunk: path, lines and the start of the content's hash. -/
  id : String
  /-- The path of the file. -/
  path : String
  /-- The text of the chunk. -/
  content : String
  /-- The first line, counted from one. -/
  startLine : Nat
  /-- The last line. -/
  endLine : Nat
  /-- The place among the chunks of the file, counted from zero. -/
  index : Nat
  /-- The hash of the content. -/
  contentHash : String
  /-- The role of the chunk. -/
  kind : ChunkKind
  /-- What is known of the declaration. -/
  metadata : ChunkMetadata
  deriving DecidableEq, Repr

namespace Chunk

/-- The number of hash digits in an identifier. -/
def idDigits : Nat := 12

/-- The identifier of a chunk with these lines and this hash. -/
def idOf (path : String) (startLine endLine : Nat) (hash : String) : String :=
  path ++ ":" ++ startLine.repr ++ "-" ++ endLine.repr ++ ":" ++
    String.ofList (hash.toList.take idDigits)

/-- A chunk with its derived parts, at the front of its file. -/
def create (path : String) (startLine endLine : Nat) (content : String) (kind : ChunkKind)
    (metadata : ChunkMetadata) : Chunk :=
  let hash := Text.contentHash content
  { id := idOf path startLine endLine hash
    path, content, startLine, endLine
    index := 0
    contentHash := hash
    kind, metadata }

/-- The number of lines of a chunk, one if its lines run backwards. It is counted in a word, so
the chunk of all lines that a word can number has count zero. -/
def lineCount (chunk : Chunk) : Nat := (chunk.endLine - chunk.startLine + 1) % Word.values

/-- The estimated tokens of a chunk. -/
def tokens (chunk : Chunk) : Nat := Text.tokens chunk.content

/-- Whether a line lies in a chunk. -/
def containsLine (chunk : Chunk) (line : Nat) : Bool :=
  chunk.startLine ≤ line && line ≤ chunk.endLine

end Chunk

end CodeAtlas
