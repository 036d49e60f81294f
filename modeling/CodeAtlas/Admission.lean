import CodeAtlas.Path.Name
import CodeAtlas.Text.Binary

/-!
# Admission of files

A file is cut into chunks only if it is small enough, has a name or an extension that is known to
hold text, and does not look binary. The reasons are tried in this order.

## Main definitions

* `CodeAtlas.SkipReason` — why a file is left out.
* `CodeAtlas.skipReason?` — the first reason to leave a file out, if there is one.
-/

set_option autoImplicit false

namespace CodeAtlas

/-- Why a file is left out. -/
inductive SkipReason where
  | tooLarge
  | noExtension
  | unknownExtension
  | binary
  deriving DecidableEq, Repr

/-- The written form of a reason. -/
def SkipReason.name : SkipReason → String
  | tooLarge => "TooLarge"
  | noExtension => "NoExtension"
  | unknownExtension => "UnknownExtension"
  | binary => "Binary"

namespace Admission

/-- The largest size of a file, in bytes. -/
def maxFileBytes : Nat := 1024 * 1024

/-- The file names that need no extension, in lower case. -/
def conventionalNames : List String :=
  ["makefile", "gnumakefile", "dockerfile", "containerfile", "jenkinsfile", "gemfile", "rakefile",
   "procfile", "brewfile", "podfile", "vagrantfile", "justfile", "cmakelists.txt", "license",
   "readme", "changelog", "authors", "codeowners", ".gitignore", ".gitattributes", ".dockerignore",
   ".editorconfig", ".env"]

/-- The extensions of text files, in lower case. -/
def textExtensions : List String :=
  ["rs", "go", "c", "h", "cpp", "cc", "cxx", "hpp", "hh", "hxx", "zig", "nim",
   "java", "kt", "kts", "scala", "sc", "groovy", "gradle", "cs", "fs", "vb",
   "py", "pyw", "pyi", "rb", "php", "pl", "pm", "lua", "r", "jl", "dart", "swift", "m", "mm",
   "js", "jsx", "mjs", "cjs", "ts", "tsx", "mts", "cts", "vue", "svelte", "html", "htm",
   "css", "scss", "sass", "less",
   "ex", "exs", "erl", "hrl", "hs", "ml", "mli", "clj", "cljs", "edn", "elm",
   "sh", "bash", "zsh", "fish", "ps1", "psm1", "bat", "cmd",
   "json", "jsonc", "json5", "yaml", "yml", "toml", "xml", "xsd", "xsl", "ini", "cfg",
   "conf", "properties", "env", "csv", "tsv", "plist", "lock",
   "md", "markdown", "mdx", "rst", "txt", "adoc", "tex",
   "sql", "graphql", "gql", "proto", "tf", "hcl", "cmake", "mk", "dockerfile", "svg"]

/-- Why the name of a file keeps it out, whatever its content. -/
def nameFault? (path : String) : Option SkipReason :=
  if conventionalNames.contains (Text.foldCase ((Path.fileName? path).getD "")) then none
  else match Path.extension? path with
    | none => some .noExtension
    | some ext =>
      if textExtensions.contains (Text.foldCase ext) then none else some .unknownExtension

end Admission

/-- The first reason to leave out a file: its size, then its name, then its content. -/
def skipReason? (path content : String) : Option SkipReason :=
  if Admission.maxFileBytes < content.utf8ByteSize then some .tooLarge
  else Admission.nameFault? path <|>
    if Text.looksBinary content then some .binary else none

end CodeAtlas
