import CodeAtlas.Chunk.Target
import CodeAtlas.Chunk.Window

/-!
# Regions

The targets of a tree and the gaps between them make up the regions of a file. A region becomes
one chunk if it fits the budget, and one chunk for each of its windows otherwise. A gap loses its
outer blanks and is dropped if it is small.

## Main definitions

* `CodeAtlas.Region`, `CodeAtlas.Region.list` — a gap or a target, and all of them in order.
* `CodeAtlas.Cutting` — what a file is cut with; `Cutting.region` cuts one region and
  `Cutting.tree` the whole file.
-/

set_option autoImplicit false

namespace CodeAtlas

/-- A part of a file. -/
inductive Region where
  /-- The bytes between two targets. -/
  | gap (start stop : Nat)
  /-- The bytes of a target. -/
  | target (target : ChunkTarget)

/-- The regions of a file of `length` bytes from `position` on, given the targets ahead in the
order of their first bytes. -/
def Region.list (length : Nat) : (position : Nat) → List ChunkTarget → List Region
  | position, [] => if position < length then [.gap position length] else []
  | position, t :: rest =>
    let ahead := .target t :: list length (max position t.node.endByte) rest
    if position < t.node.startByte then .gap position t.node.startByte :: ahead else ahead

/-- What a file is cut with. -/
structure Cutting where
  /-- The limits of chunks. -/
  budget : Budget
  /-- The language of the file. -/
  language : Language
  /-- The path of the file. -/
  path : String
  /-- The text of the file. -/
  source : Source

namespace Cutting

/-- A stretch of the file as one chunk if it fits the budget, else as its windows. -/
def stretch (cutting : Cutting) (start stop : Nat) (text : String) (kind : ChunkKind)
    (metadata : ChunkMetadata) : List Chunk :=
  let (first, last) := cutting.source.lineSpan start stop
  if Text.tokens text ≤ cutting.budget.maxTokens ∧ last - first + 1 ≤ cutting.budget.maxLines then
    [Chunk.create cutting.path first last text kind metadata]
  else
    (Window.split cutting.budget text first).map fun window =>
      Chunk.create cutting.path window.startLine window.endLine window.content kind metadata

/-- The bytes of the file between two offsets. -/
def slice (cutting : Cutting) (start stop : Nat) : Except ChunkError String :=
  match Text.slice? cutting.source.text start stop with
  | some text => .ok text
  | none => .error (.invalidBoundaries start stop)

/-- The metadata of a chunk that nothing is known of but the language. -/
def plainMetadata (cutting : Cutting) : ChunkMetadata := { language := cutting.language.name }

/-- The chunks of a gap. -/
def gap (cutting : Cutting) (start stop : Nat) : Except ChunkError (List Chunk) := do
  let text ← cutting.slice start stop
  let trimmed := String.ofList (Text.trim text.toList)
  if trimmed.isEmpty ∨ Text.tokens trimmed < cutting.budget.minTokens then pure []
  else
    let blanks := String.ofList (text.toList.takeWhile Text.isBlank)
    let first := start + blanks.utf8ByteSize
    pure (cutting.stretch first (first + trimmed.utf8ByteSize) trimmed .block
      cutting.plainMetadata)

/-- What is known of a target with this text. -/
def metadata (cutting : Cutting) (target : ChunkTarget) (text : String) : ChunkMetadata :=
  let source := cutting.source.text
  let name := target.declaration.tree.fieldText? "name" source
  let plain := { cutting.plainMetadata with signature := Text.headline text }
  match target.kind with
  | .function => { plain with functionName := name }
  | .method =>
    { plain with
      functionName := name
      className := ChunkTarget.ownerName? cutting.language source target.declaration }
  | .classLike => { plain with className := name }
  | .interface => { plain with className := name }
  | .block => plain

/-- The chunks of a target. -/
def target (cutting : Cutting) (target : ChunkTarget) : Except ChunkError (List Chunk) := do
  let text ← cutting.slice target.node.startByte target.node.endByte
  if Text.allBlank text then pure []
  else
    pure (cutting.stretch target.node.startByte target.node.endByte text target.kind
      (cutting.metadata target text))

/-- The chunks of a region. -/
def region (cutting : Cutting) : Region → Except ChunkError (List Chunk)
  | .gap start stop => cutting.gap start stop
  | .target t => cutting.target t

/-- The chunks of a file along its parse tree. Without any target there is none. -/
def tree (cutting : Cutting) (root : ParseTree) : Except ChunkError (List Chunk) := do
  let targets := (ChunkTarget.collect cutting.language root).mergeSort fun a b =>
    decide (a.node.startByte ≤ b.node.startByte)
  if targets.isEmpty then pure []
  else
    let regions := Region.list cutting.source.text.utf8ByteSize 0 targets
    List.flatten <$> regions.mapM cutting.region

end Cutting

end CodeAtlas
