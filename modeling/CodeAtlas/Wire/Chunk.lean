import CodeAtlas.Chunk.Basic
import CodeAtlas.Chunk.Budget
import CodeAtlas.Wire.Record

/-!
# Chunks and budgets on the wire

## Main definitions

* `CodeAtlas.ChunkKind.toJson`, `ofJson?`, and the same for `ChunkMetadata`, `Chunk` and `Budget`
  — the written form of a value and its reader.
-/

set_option autoImplicit false

namespace CodeAtlas

open Json

namespace ChunkKind

/-- The written form of a kind. -/
def toJson (kind : ChunkKind) : Json := .text kind.name

/-- The kind that a value spells. -/
def ofJson? : Json → Option ChunkKind := choice? all name

end ChunkKind

namespace ChunkMetadata

/-- The fields of metadata, in order. -/
def fieldNames : List String := ["language", "functionName", "className", "signature"]

/-- The written form of metadata. -/
def toJson (metadata : ChunkMetadata) : Json :=
  .object (("language", .text metadata.language) ::
    present "functionName" .text metadata.functionName ++
    present "className" .text metadata.className ++
    present "signature" .text metadata.signature)

/-- The metadata that a value spells. -/
def ofJson? (json : Json) : Option ChunkMetadata := do
  let field ← fields? fieldNames json
  let language ← required text? (field "language")
  let functionName ← nullable text? (field "functionName")
  let className ← nullable text? (field "className")
  let signature ← nullable text? (field "signature")
  pure { language, functionName, className, signature }

end ChunkMetadata

namespace Chunk

/-- The fields of a chunk, in order. -/
def fieldNames : List String :=
  ["id", "filepath", "content", "startLine", "endLine", "index", "contentHash", "type", "metadata"]

/-- The written form of a chunk. -/
def toJson (chunk : Chunk) : Json :=
  .object
    [("id", .text chunk.id),
     ("filepath", .text chunk.path),
     ("content", .text chunk.content),
     ("startLine", .ofNat chunk.startLine),
     ("endLine", .ofNat chunk.endLine),
     ("index", .ofNat chunk.index),
     ("contentHash", .text chunk.contentHash),
     ("type", chunk.kind.toJson),
     ("metadata", chunk.metadata.toJson)]

/-- The chunk that a value spells. -/
def ofJson? (json : Json) : Option Chunk := do
  let field ← fields? fieldNames json
  let id ← required text? (field "id")
  let path ← required text? (field "filepath")
  let content ← required text? (field "content")
  let startLine ← required count? (field "startLine")
  let endLine ← required count? (field "endLine")
  let index ← required count? (field "index")
  let contentHash ← required text? (field "contentHash")
  let kind ← required ChunkKind.ofJson? (field "type")
  let metadata ← required ChunkMetadata.ofJson? (field "metadata")
  pure { id, path, content, startLine, endLine, index, contentHash, kind, metadata }

end Chunk

namespace Budget

/-- The fields of a budget, in order. -/
def fieldNames : List String :=
  ["maxChunkTokens", "minChunkTokens", "overlapTokens", "maxChunkLines"]

/-- The written form of a budget. -/
def toJson (budget : Budget) : Json :=
  .object
    [("maxChunkTokens", .ofNat budget.maxTokens),
     ("minChunkTokens", .ofNat budget.minTokens),
     ("overlapTokens", .ofNat budget.overlapTokens),
     ("maxChunkLines", .ofNat budget.maxLines)]

/-- The budget that a value spells; absent limits have their defaults. -/
def ofJson? (json : Json) : Option Budget := do
  let standard : Budget := {}
  let field ← fields? fieldNames json
  let maxTokens ← withDefault count? standard.maxTokens (field "maxChunkTokens")
  let minTokens ← withDefault count? standard.minTokens (field "minChunkTokens")
  let overlapTokens ← withDefault count? standard.overlapTokens (field "overlapTokens")
  let maxLines ← withDefault count? standard.maxLines (field "maxChunkLines")
  pure { maxTokens, minTokens, overlapTokens, maxLines }

end Budget

end CodeAtlas
