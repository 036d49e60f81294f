import CodeAtlas.Path.Name
import CodeAtlas.Text.Blank

/-!
# Programming languages

## Main definitions

* `CodeAtlas.Language` — the languages that file extensions tell apart.
* `CodeAtlas.Language.name`, `ofName?` — the written form and its reader.
* `CodeAtlas.Language.ofExtension`, `ofPath` — the language of an extension and of a path.
* `CodeAtlas.Language.hasGrammar` — whether a grammar is at hand, so that texts can be parsed.

## Main results

* `CodeAtlas.Language.ofName?_name` — a language is read back from its name.
-/

set_option autoImplicit false

namespace CodeAtlas

/-- A programming language recognised from a file path. -/
inductive Language where
  | rust
  | python
  | javascript
  | typescript
  | tsx
  | go
  | java
  | c
  | cpp
  | csharp
  | ruby
  | swift
  | kotlin
  | php
  | scala
  | unknown
  deriving DecidableEq, Repr

namespace Language

/-- The written form of a language. -/
def name : Language → String
  | rust => "rust"
  | python => "python"
  | javascript => "javascript"
  | typescript => "typescript"
  | tsx => "tsx"
  | go => "go"
  | java => "java"
  | c => "c"
  | cpp => "cpp"
  | csharp => "csharp"
  | ruby => "ruby"
  | swift => "swift"
  | kotlin => "kotlin"
  | php => "php"
  | scala => "scala"
  | unknown => "unknown"

/-- All languages. -/
def all : List Language :=
  [rust, python, javascript, typescript, tsx, go, java, c, cpp, csharp, ruby, swift, kotlin, php,
    scala, unknown]

/-- The language with a written form. -/
def ofName? (text : String) : Option Language := all.find? (·.name == text)

/-- A language is read back from its name. -/
theorem ofName?_name (language : Language) : ofName? language.name = some language := by
  cases language <;> decide

/-- The language of a file extension, in any case. -/
def ofExtension (ext : String) : Language :=
  match Text.foldCase ext with
  | "rs" => rust
  | "py" | "pyw" | "pyi" => python
  | "js" | "jsx" | "mjs" | "cjs" => javascript
  | "ts" | "mts" | "cts" => typescript
  | "tsx" => tsx
  | "go" => go
  | "java" => java
  | "c" | "h" => c
  | "cpp" | "cc" | "cxx" | "hpp" | "hh" | "hxx" => cpp
  | "cs" => csharp
  | "rb" => ruby
  | "swift" => swift
  | "kt" | "kts" => kotlin
  | "php" => php
  | "scala" | "sc" => scala
  | _ => unknown

/-- The language of a path, by its extension. -/
def ofPath (path : String) : Language :=
  match Path.extension? path with
  | some ext => ofExtension ext
  | none => unknown

/-- Whether a grammar is at hand. -/
def hasGrammar : Language → Bool
  | rust | python | javascript | typescript | tsx => true
  | _ => false

/-- Whether the language belongs to the ECMAScript family, whose grammars share node kinds. -/
def isEcmaScript : Language → Bool
  | javascript | typescript | tsx => true
  | _ => false

/-- The language of a path, if it has a grammar. -/
def detect (path : String) : Option Language := some (ofPath path) |>.filter hasGrammar

end Language

end CodeAtlas
