import CodeAtlas.Chunk.Basic
import CodeAtlas.Chunk.Budget

/-!
# Merging small chunks

Neighbouring chunks that are both small are merged from left to right, as long as the result
stays within the budget.

## Main definitions

* `CodeAtlas.Chunk.mergeable` — whether a chunk and its successor are merged.
* `CodeAtlas.Chunk.merge` — the chunk that two become.
* `CodeAtlas.Chunk.mergeAll` — the chunks after all mergers.
* `CodeAtlas.Chunk.arrange` — chunks in order, merged and numbered.
-/

set_option autoImplicit false

namespace CodeAtlas

namespace Chunk

/-- The contents of two chunks, one below the other. -/
def joinedContent (chunk next : Chunk) : String := chunk.content ++ "\n" ++ next.content

/-- Whether a chunk and its successor are merged: they belong to one file, both are small, and
together they keep to the budget. -/
def mergeable (budget : Budget) (chunk next : Chunk) : Bool :=
  chunk.path == next.path && chunk.tokens < budget.minTokens && next.tokens < budget.minTokens &&
    max chunk.endLine next.endLine - chunk.startLine < budget.maxLines &&
    Text.tokens (joinedContent chunk next) ≤ budget.maxTokens

/-- What two optional names have in common. -/
def agreed (a b : Option String) : Option String := if a = b then a else none

/-- The chunk that two become. What the two do not have in common is dropped. -/
def merge (chunk next : Chunk) : Chunk :=
  create chunk.path chunk.startLine (max chunk.endLine next.endLine) (joinedContent chunk next)
    (if chunk.kind = next.kind then chunk.kind else .block)
    { language := chunk.metadata.language
      functionName := agreed chunk.metadata.functionName next.metadata.functionName
      className := agreed chunk.metadata.className next.metadata.className
      signature := agreed chunk.metadata.signature next.metadata.signature }

/-- The chunks after merging, when `chunk` is the last one so far. -/
def mergeFrom (budget : Budget) (chunk : Chunk) : List Chunk → List Chunk
  | [] => [chunk]
  | next :: rest =>
    if mergeable budget chunk next then mergeFrom budget (merge chunk next) rest
    else chunk :: mergeFrom budget next rest

/-- The chunks after all mergers, from left to right. -/
def mergeAll (budget : Budget) : List Chunk → List Chunk
  | [] => []
  | chunk :: rest => mergeFrom budget chunk rest

/-- Each chunk with its place in the list. -/
def numbered (chunks : List Chunk) : List Chunk :=
  chunks.mapIdx fun index chunk => { chunk with index }

/-- Chunks in the order of their first lines, merged and numbered. -/
def arrange (budget : Budget) (chunks : List Chunk) : List Chunk :=
  numbered (mergeAll budget (chunks.mergeSort fun a b => decide (a.startLine ≤ b.startLine)))

end Chunk

end CodeAtlas
