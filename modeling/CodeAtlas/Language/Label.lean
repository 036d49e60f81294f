import CodeAtlas.Language.Basic

/-!
# Language labels

Files without a grammar are still labelled, by their conventional name or their extension.

## Main definitions

* `CodeAtlas.Language.label` — the label of any path.
-/

set_option autoImplicit false

namespace CodeAtlas

namespace Language

/-- The label of a conventional file name in lower case. -/
def labelOfName? : String → Option String
  | "dockerfile" => some "dockerfile"
  | "makefile" | "gnumakefile" => some "makefile"
  | "cmakelists.txt" => some "cmake"
  | "gemfile" | "rakefile" | "brewfile" | "podfile" | "vagrantfile" => some "ruby"
  | "jenkinsfile" => some "groovy"
  | _ => none

/-- The label of an extension in lower case. -/
def labelOfExtension : String → String
  | "md" | "markdown" | "mdx" => "markdown"
  | "rst" => "restructuredtext"
  | "json" | "jsonc" | "json5" => "json"
  | "yaml" | "yml" => "yaml"
  | "toml" => "toml"
  | "xml" | "xsd" | "xsl" | "svg" | "plist" => "xml"
  | "html" | "htm" => "html"
  | "css" => "css"
  | "scss" | "sass" => "scss"
  | "less" => "less"
  | "sql" => "sql"
  | "sh" | "bash" | "zsh" | "fish" => "shell"
  | "ps1" | "psm1" => "powershell"
  | "bat" | "cmd" => "batch"
  | "lua" => "lua"
  | "pl" | "pm" => "perl"
  | "r" => "r"
  | "dart" => "dart"
  | "ex" | "exs" => "elixir"
  | "erl" | "hrl" => "erlang"
  | "hs" => "haskell"
  | "ml" | "mli" => "ocaml"
  | "clj" | "cljs" | "edn" => "clojure"
  | "vue" => "vue"
  | "svelte" => "svelte"
  | "graphql" | "gql" => "graphql"
  | "proto" => "protobuf"
  | "tf" | "hcl" => "hcl"
  | "gradle" | "groovy" => "groovy"
  | "zig" => "zig"
  | "nim" => "nim"
  | "jl" => "julia"
  | "m" | "mm" => "objective-c"
  | "cmake" => "cmake"
  | "ini" | "cfg" | "conf" | "properties" => "ini"
  | "csv" | "tsv" => "csv"
  | _ => "text"

/-- The label of a path: the name of its language if that is known, else the label of its file
name, else that of its extension. -/
def label (path : String) : String :=
  match ofPath path with
  | unknown =>
    let ofExtension := labelOfExtension (Text.foldCase ((Path.extension? path).getD ""))
    (labelOfName? (Text.foldCase ((Path.fileName? path).getD ""))).getD ofExtension
  | language => language.name

end Language

end CodeAtlas
