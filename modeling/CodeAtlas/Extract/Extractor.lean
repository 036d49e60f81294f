import CodeAtlas.Extract.Limits
import CodeAtlas.Extract.Walk
import CodeAtlas.Parser.Pool
import CodeAtlas.SourceFile
import CodeAtlas.Text.Binary

/-!
# The extractor

The extraction of a file starts with the file's module, and whatever goes wrong leaves the module
alone. The extractor never fails on a file.

## Main definitions

* `CodeAtlas.Entity.ofFile` — the module of a file.
* `CodeAtlas.Extraction.ofFacts` — facts in order, each identifier and each relation once.
* `CodeAtlas.Extractor`, `CodeAtlas.Extractor.extract` — the limits and the parsers, and the
  extraction of a file.
-/

set_option autoImplicit false

namespace CodeAtlas

/-- The module of a file. -/
def Entity.ofFile (path content : String) (chunkId : Option String) : Entity :=
  { id := path
    name := (Path.fileName? path).getD path
    kind := .module
    path
    startLine := 1
    endLine := max (Text.lineCount content) 1
    chunkId }

namespace Extraction

/-- One fact more: an entity whose identifier is known already, and a relation that is there
already, are passed over. -/
def insert (extraction : Extraction) : Fact → Extraction
  | .entity entity =>
    if extraction.entities.any (·.id == entity.id) then extraction
    else { extraction with entities := extraction.entities ++ [entity] }
  | .relation source target kind =>
    if extraction.relations.any (·.key == (source, target, kind)) then extraction
    else
      { extraction with
        relations := extraction.relations ++
          [{ sourceId := source, targetId := target, kind }] }

/-- The facts in order, each identifier and each relation once. -/
def ofFacts (facts : List Fact) : Extraction := facts.foldl insert ⟨[], []⟩

end Extraction

namespace Subject

/-- The extraction of a file from its parse tree. -/
def extraction (subject : Subject) (limits : ExtractionLimits) (fileModule : Entity)
    (root : ParseTree) : Except GraphError Extraction :=
  if root.children.isEmpty then .error .emptyTree
  else do
    let start : Progress := { facts := [.entity fileModule] }
    let progress ← subject.walk limits.maxNodes [.visit ⟨root, []⟩] start
    pure (Extraction.ofFacts progress.facts.reverse)

end Subject

/-- What files are extracted with. -/
structure Extractor where
  /-- The limits of one extraction. -/
  limits : ExtractionLimits
  /-- The parsers. -/
  pool : ParserPool

namespace Extractor

/-- An extractor with fresh parsers. -/
def create (limits : ExtractionLimits) (provider : Provider) : Extractor :=
  ⟨limits, { provider }⟩

/-- What extracting a file gives. -/
structure Outcome where
  /-- The entities and relations of the file. -/
  extraction : Extraction
  /-- What is logged. -/
  log : List LogRecord
  /-- The extractor afterwards. -/
  extractor : Extractor

/-- The record of a file that looks binary. -/
def binaryRecord (path : String) : LogRecord :=
  ⟨.debug, "Binary content in " ++ path ++ ", extracting module only"⟩

/-- The record of a file that could not be extracted. -/
def failureRecord (path : String) (language : Language) (error : GraphError) : LogRecord :=
  ⟨.warn, "Graph extraction failed for " ++ path ++ " (" ++ language.name ++ "): " ++
    error.message⟩

/-- The extraction of a file when the attempt to have its tree ended as given. -/
def ofTree (limits : ExtractionLimits) (subject : Subject) (fileModule : Entity) :
    Except ChunkError ParseTree → Except GraphError Extraction
  | .error error => .error (.parser error)
  | .ok tree => subject.extraction limits fileModule tree

/-- The entities and relations of a file; the entities of its declarations carry the given
chunk. -/
def extract (extractor : Extractor) (grammars : Grammars) (file : SourceFile)
    (chunkId : Option String) : Outcome :=
  let fileModule := Entity.ofFile file.path file.content chunkId
  let alone := Extraction.ofModule fileModule
  if Text.allBlank file.content then ⟨alone, [], extractor⟩
  else if Text.looksBinary file.content then ⟨alone, [binaryRecord file.path], extractor⟩
  else match extractor.pool.provider.detect file.path with
    | none => ⟨alone, [], extractor⟩
    | some language =>
      let use := extractor.pool.treeOf grammars language file.content file.tree?
      let subject : Subject := ⟨language, file.path, file.content, chunkId⟩
      let after := { extractor with pool := use.pool }
      match ofTree extractor.limits subject fileModule use.result with
      | .ok extraction => ⟨extraction, use.log, after⟩
      | .error error => ⟨alone, use.log ++ [failureRecord file.path language error], after⟩

end Extractor

end CodeAtlas
