import CodeAtlas.Admission
import CodeAtlas.Chunk.Merge
import CodeAtlas.Chunk.Region
import CodeAtlas.Language.Label
import CodeAtlas.Parser.Pool
import CodeAtlas.SourceFile

/-!
# The chunker

A file that is not admitted, or blank, has no chunks. Any other file is cut along its parse tree
where there is one, and into line windows where there is none, the tree does not fit the text, or
no declaration is found. The chunker never fails on a file.

## Main definitions

* `CodeAtlas.Chunk.ofLines` — the chunks of a file by line windows.
* `CodeAtlas.Chunker`, `CodeAtlas.Chunker.create` — a valid budget and a pool of parsers.
* `CodeAtlas.Chunker.chunkFile` — the chunks of a file.
-/

set_option autoImplicit false

namespace CodeAtlas

/-- The chunks of a file by line windows. -/
def Chunk.ofLines (budget : Budget) (path content : String) : List Chunk :=
  (Window.split budget content 1).map fun window =>
    Chunk.create path window.startLine window.endLine window.content .block
      { language := Language.label path }

/-- What files are cut with. -/
structure Chunker where
  /-- The limits of chunks. -/
  budget : Budget
  /-- The limits do not contradict each other. -/
  valid : budget.Valid
  /-- The parsers. -/
  pool : ParserPool

namespace Chunker

/-- A chunker with fresh parsers, if the budget is valid. -/
def create (budget : Budget) (provider : Provider) : Except ChunkError Chunker := do
  let checked ← budget.validate
  pure { budget := checked.1, valid := checked.2, pool := { provider } }

/-- What chunking a file gives. -/
structure Outcome where
  /-- The chunks of the file. -/
  chunks : List Chunk
  /-- What is logged. -/
  log : List LogRecord
  /-- The chunker afterwards. -/
  chunker : Chunker

/-- The record of a file that is left out. -/
def skipRecord (path : String) (reason : SkipReason) : LogRecord :=
  ⟨.debug, "Skipping " ++ path ++ ": " ++ reason.name⟩

/-- The record of a file without declarations. -/
def plainRecord (path : String) : LogRecord :=
  ⟨.debug, "No chunkable nodes in " ++ path ++ ", using line-based chunking"⟩

/-- The record of a file that could not be cut along its tree. -/
def failureRecord (path : String) (language : Language) (error : ChunkError) : LogRecord :=
  ⟨.warn, "AST chunking failed for " ++ path ++ " (" ++ language.name ++
    "), falling back to line-based: " ++ error.message⟩

/-- The chunks of a file before they are arranged, and what is logged, when the attempt to have
its tree ended as given. -/
def cut (budget : Budget) (language : Language) (file : SourceFile) :
    Except ChunkError ParseTree → List Chunk × List LogRecord := fun tree =>
  let cutting : Cutting := ⟨budget, language, file.path, { text := file.content }⟩
  match tree >>= cutting.tree with
  | .ok [] => (Chunk.ofLines budget file.path file.content, [plainRecord file.path])
  | .ok chunks => (chunks, [])
  | .error error =>
    (Chunk.ofLines budget file.path file.content, [failureRecord file.path language error])

/-- The chunks of a file. -/
def chunkFile (chunker : Chunker) (grammars : Grammars) (file : SourceFile) : Outcome :=
  match skipReason? file.path file.content with
  | some reason => ⟨[], [skipRecord file.path reason], chunker⟩
  | none =>
    if Text.allBlank file.content then ⟨[], [], chunker⟩
    else match chunker.pool.provider.detect file.path with
      | none =>
        let chunks := Chunk.ofLines chunker.budget file.path file.content
        ⟨Chunk.arrange chunker.budget chunks, [], chunker⟩
      | some language =>
        let use := chunker.pool.treeOf grammars language file.content file.tree?
        let (chunks, log) := cut chunker.budget language file use.result
        ⟨Chunk.arrange chunker.budget chunks, use.log ++ log, { chunker with pool := use.pool }⟩

end Chunker

end CodeAtlas
