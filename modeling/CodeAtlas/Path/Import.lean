import CodeAtlas.Path.Canonical

/-!
# Import specifiers

A specifier that starts with a dot or a slash points into the file tree and is resolved against
the importing file's directory; any other names a package and stays as it is.

## Main definitions

* `CodeAtlas.Path.isRelative` — whether a specifier points into the file tree.
* `CodeAtlas.Path.parent` — the directory of a path.
* `CodeAtlas.Path.resolveImport` — what a specifier means to an importing file.
* `CodeAtlas.Path.ofDottedModule` — a Python module reference as a specifier.
-/

set_option autoImplicit false

namespace CodeAtlas

namespace Path

/-- Whether a specifier points into the file tree rather than to a package. -/
def isRelative (specifier : String) : Bool :=
  match specifier.toList.head? with
  | some c => c == '.' || c == '/'
  | none => false

/-- The directory of a path: what stands before its last slash. A path without a slash has the
empty directory, and a file at the root has the directory `/`. -/
def parent (path : String) : String :=
  match (segments path).dropLast with
  | [] => ""
  | [""] => "/"
  | directories => "/".intercalate directories

/-- The path that a specifier stands for in a file. A leading slash does not lead to the root:
the specifier is joined to the importing file's directory all the same. -/
def resolveImport (importer specifier : String) : String :=
  if !isRelative specifier then specifier
  else
    let directory := parent importer
    normalize <|
      if directory = "" then String.ofList (specifier.toList.dropWhile (· == '/'))
      else directory ++ "/" ++ specifier

/-- A dotted module reference as a specifier: one leading dot stands for the package itself, each
further one for the package around it, and the inner dots separate directories. A reference
without leading dots stays as it is. -/
def ofDottedModule (module : String) : String :=
  let dots := (module.toList.takeWhile (· == '.')).length
  let names := module.toList.dropWhile (· == '.')
  match dots with
  | 0 => module
  | 1 => "./" ++ String.ofList (names.map fun c => if c = '.' then '/' else c)
  | ups + 2 =>
    String.join (List.replicate (ups + 1) "../") ++
      String.ofList (names.map fun c => if c = '.' then '/' else c)

end Path

end CodeAtlas
