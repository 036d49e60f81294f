import CodeAtlas.Chunk.Error

/-!
# Errors of extraction and of the code graph

## Main definitions

* `CodeAtlas.GraphError` — the causes; `GraphError.message` — their wording.
-/

set_option autoImplicit false

namespace CodeAtlas

/-- Why an extraction or a query fails. -/
inductive GraphError where
  /-- No parse tree could be had. -/
  | parser (cause : ChunkError)
  /-- The parse tree has nothing below its root. -/
  | emptyTree
  /-- More nodes than allowed had to be visited. -/
  | traversalBudget (limit : Nat)
  /-- The graph has no node with this identifier. -/
  | nodeNotFound (id : String)
  deriving DecidableEq, Repr

/-- The text of an error. -/
def GraphError.message : GraphError → String
  | parser cause => "Parser error: " ++ cause.message
  | emptyTree => "Parse produced an empty tree"
  | traversalBudget limit => "Traversal budget of " ++ limit.repr ++ " nodes exceeded"
  | nodeNotFound id => "Node not found: " ++ id

end CodeAtlas
