import CodeAtlas.Language.Basic

/-!
# Categories of nodes

## Main definitions

* `CodeAtlas.Category` — what the extraction makes of a node.
* `CodeAtlas.Category.of?` — the category of a kind of node in a language. To support another
  grammar is to add a table.
-/

set_option autoImplicit false

namespace CodeAtlas

/-- What the extraction makes of a node. -/
inductive Category where
  /-- A statement that imports a module. -/
  | importing
  /-- The declaration of a function. -/
  | function
  /-- A statement that may bind functions to names. -/
  | binding
  /-- A class, a structure or an enumeration. -/
  | classLike
  /-- An interface or a trait. -/
  | interface
  /-- A type alias. -/
  | typeAlias
  /-- A block that gives methods to a type. -/
  | implementation
  /-- A statement that exports names. -/
  | exporting
  deriving DecidableEq, Repr

namespace Category

/-- The categories of the ECMAScript languages. -/
def ofEcmaScript? : String → Option Category
  | "import_statement" => some .importing
  | "function_declaration" => some .function
  | "generator_function_declaration" => some .function
  | "lexical_declaration" => some .binding
  | "variable_declaration" => some .binding
  | "class_declaration" => some .classLike
  | "abstract_class_declaration" => some .classLike
  | "enum_declaration" => some .classLike
  | "interface_declaration" => some .interface
  | "type_alias_declaration" => some .typeAlias
  | "export_statement" => some .exporting
  | _ => none

/-- The categories of Python. -/
def ofPython? : String → Option Category
  | "import_statement" => some .importing
  | "import_from_statement" => some .importing
  | "function_definition" => some .function
  | "class_definition" => some .classLike
  | _ => none

/-- The categories of Rust. -/
def ofRust? : String → Option Category
  | "use_declaration" => some .importing
  | "function_item" => some .function
  | "struct_item" => some .classLike
  | "enum_item" => some .classLike
  | "union_item" => some .classLike
  | "trait_item" => some .interface
  | "type_item" => some .typeAlias
  | "impl_item" => some .implementation
  | _ => none

/-- The category of a kind of node in a language. -/
def of? (language : Language) (kind : String) : Option Category :=
  match language with
  | .javascript | .typescript | .tsx => ofEcmaScript? kind
  | .python => ofPython? kind
  | .rust => ofRust? kind
  | _ => none

/-- Whether the walk goes on below a node of the category. -/
def descends : Category → Bool
  | importing | typeAlias => false
  | _ => true

end Category

end CodeAtlas
