import CodeAtlas.Language.Basic

/-!
# Node kinds

The grammars name the constructs of their languages by kinds. The kinds collected here are needed
by more than one part of the library.

## Main definitions

* `CodeAtlas.NodeKinds.functionValues` — values that make a binding a function.
* `CodeAtlas.NodeKinds.methodScopes` — constructs whose functions are methods.
* `CodeAtlas.NodeKinds.memberScopes`, `memberContainers` — constructs that take care of their own
  members, and what may stand between them and a member.
* `CodeAtlas.NodeKinds.call` — calls.
-/

set_option autoImplicit false

namespace CodeAtlas

namespace NodeKinds

/-- The kinds of values that make a binding a function. -/
def functionValues : List String :=
  ["arrow_function", "function_expression", "function", "generator_function"]

/-- The kinds of constructs whose functions are methods, in a language. -/
def methodScopes : Language → List String
  | .javascript | .typescript | .tsx =>
    ["class_declaration", "abstract_class_declaration", "class", "interface_declaration"]
  | .python => ["class_definition"]
  | .rust => ["impl_item", "trait_item"]
  | _ => []

/-- The kinds of constructs that take care of the functions in them. -/
def memberScopes : List String :=
  ["class_declaration", "abstract_class_declaration", "class", "class_definition", "impl_item",
   "trait_item"]

/-- The kinds of nodes between a member and the construct that takes care of it. -/
def memberContainers : List String :=
  ["class_body", "block", "decorated_definition", "declaration_list"]

/-- The kind of a call, in a language. -/
def call : Language → String
  | .python => "call"
  | _ => "call_expression"

end NodeKinds

end CodeAtlas
