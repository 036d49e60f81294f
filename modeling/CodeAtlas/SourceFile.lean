import CodeAtlas.ParseTree.Basic

/-!
# Files to be indexed

## Main definitions

* `CodeAtlas.SourceFile` — a file, with its parse tree if it is at hand.
-/

set_option autoImplicit false

namespace CodeAtlas

/-- A file to be indexed. -/
structure SourceFile where
  /-- The path of the file. -/
  path : String
  /-- The text of the file. -/
  content : String
  /-- The parse tree, if the file has been parsed before. It may stem from another text. -/
  tree? : Option ParseTree := none

end CodeAtlas
