/-!
# File names and extensions

Paths are segments between slashes. Empty segments and `.` name nothing, and a path that ends in
`..` has no file name.

## Main definitions

* `CodeAtlas.Path.segments` — the pieces of a path between its slashes.
* `CodeAtlas.Path.fileName?` — the last segment that names something.
* `CodeAtlas.Path.extension?` — what follows the last dot of the file name.
-/

set_option autoImplicit false

namespace CodeAtlas

namespace Path

/-- The pieces of a path between its slashes. -/
def segments (path : String) : List String := (path.toList.splitOn '/').map String.ofList

/-- Whether a segment leaves the directory as it is. -/
def isStill (segment : String) : Bool := segment == "" || segment == "."

/-- The file name: the last segment that is neither empty nor `.`, unless it is `..`. -/
def fileName? (path : String) : Option String :=
  ((segments path).filter fun s => !isStill s).getLast?.filter (· != "..")

/-- What follows the last dot of a file name, if something precedes that dot. -/
def extensionOfName? (name : String) : Option String :=
  let parts := name.toList.splitOn '.'
  match parts.reverse with
  | last :: before =>
    if before.isEmpty || before == [[]] then none else some (String.ofList last)
  | [] => none

/-- The extension of a path's file name. -/
def extension? (path : String) : Option String := fileName? path >>= extensionOfName?

end Path

end CodeAtlas
