import CodeAtlas.Chunk.Basic
import CodeAtlas.Language.NodeKinds
import CodeAtlas.ParseTree.Cursor

/-!
# Chunk targets

Chunks are cut along the topmost declarations of a parse tree. Which nodes are declarations is
laid down for each language: some are declarations themselves, some wrap one, and some bind a
function to a name.

## Main definitions

* `CodeAtlas.ChunkRule`, `CodeAtlas.ChunkRule.of?` — how a kind of node takes part in chunking.
* `CodeAtlas.ChunkTarget` — a node to be cut out, and the declaration that names it.
* `CodeAtlas.ChunkTarget.match?` — whether a node is a target.
* `CodeAtlas.ChunkTarget.collect` — the topmost targets of a tree.
* `CodeAtlas.ChunkTarget.ownerName?` — the name of the class around a method.
-/

set_option autoImplicit false

namespace CodeAtlas

/-- How a kind of node takes part in chunking. -/
inductive ChunkRule where
  /-- The node is a declaration. -/
  | declaration (kind : ChunkKind)
  /-- The node wraps a declaration in a field. -/
  | wrapper (field : String)
  /-- The node may bind a function to a name. -/
  | binding
  deriving DecidableEq, Repr

namespace ChunkRule

/-- The rule for a kind of node in the ECMAScript languages. -/
def ofEcmaScript? : String → Option ChunkRule
  | "function_declaration" => some (.declaration .function)
  | "generator_function_declaration" => some (.declaration .function)
  | "class_declaration" => some (.declaration .classLike)
  | "abstract_class_declaration" => some (.declaration .classLike)
  | "enum_declaration" => some (.declaration .classLike)
  | "interface_declaration" => some (.declaration .interface)
  | "type_alias_declaration" => some (.declaration .interface)
  | "lexical_declaration" => some .binding
  | "variable_declaration" => some .binding
  | "export_statement" => some (.wrapper "declaration")
  | _ => none

/-- The rule for a kind of node in Python. -/
def ofPython? : String → Option ChunkRule
  | "function_definition" => some (.declaration .function)
  | "class_definition" => some (.declaration .classLike)
  | "decorated_definition" => some (.wrapper "definition")
  | _ => none

/-- The rule for a kind of node in Rust. -/
def ofRust? : String → Option ChunkRule
  | "function_item" => some (.declaration .function)
  | "struct_item" => some (.declaration .classLike)
  | "enum_item" => some (.declaration .classLike)
  | "union_item" => some (.declaration .classLike)
  | "trait_item" => some (.declaration .interface)
  | "type_item" => some (.declaration .interface)
  | _ => none

/-- The rule for a kind of node in a language. -/
def of? (language : Language) (kind : String) : Option ChunkRule :=
  match language with
  | .javascript | .typescript | .tsx => ofEcmaScript? kind
  | .python => ofPython? kind
  | .rust => ofRust? kind
  | _ => none

end ChunkRule

/-- A node to be cut out. -/
structure ChunkTarget where
  /-- The node whose bytes are cut out. -/
  node : ParseTree
  /-- The declaration inside it that carries the name. -/
  declaration : Cursor
  /-- The role of the chunk. -/
  kind : ChunkKind

namespace ChunkTarget

/-- The nearest node around a cursor whose functions are methods. -/
def scope? (language : Language) (cursor : Cursor) : Option ParseTree :=
  cursor.ancestors.find? fun ancestor => (NodeKinds.methodScopes language).contains ancestor.kind

/-- The first declarator of a statement, if it binds a function. -/
def functionDeclarator? (statement : ParseTree) : Option ParseTree := do
  let declarator ← statement.namedChild? "variable_declarator"
  let value ← declarator.child? "value"
  if NodeKinds.functionValues.contains value.kind then some declarator else none

/-- The declaration that makes a node a target, with the role of its chunk. -/
def match? (language : Language) (cursor : Cursor) : Option (Cursor × ChunkKind) :=
  match ChunkRule.of? language cursor.tree.kind with
  | none => none
  | some (.declaration .function) =>
    some (cursor, if (scope? language cursor).isSome then .method else .function)
  | some (.declaration kind) => some (cursor, kind)
  | some (.wrapper field) =>
    match _h : cursor.tree.child? field with
    | none => none
    | some inner => match? language (cursor.down inner)
  | some .binding =>
    (functionDeclarator? cursor.tree).map fun declarator => (cursor.down declarator, .function)
termination_by cursor.tree.size
decreasing_by exact ParseTree.size_lt_of_child? _h

/-- The target at a cursor. -/
def of? (language : Language) (cursor : Cursor) : Option ChunkTarget :=
  (match? language cursor).map fun (declaration, kind) => ⟨cursor.tree, declaration, kind⟩

/-! ## Collecting -/

/-- The cursors right below that are no targets. -/
def passed (language : Language) (cursor : Cursor) : List Cursor :=
  cursor.namedChildren.filter fun child => (of? language child).isNone

/-- The targets right below a cursor. -/
def found (language : Language) (cursor : Cursor) : List ChunkTarget :=
  cursor.namedChildren.filterMap (of? language)

/-- What is passed over is smaller than what it is found in. -/
private theorem sizeAll_passed_lt (language : Language) (cursor : Cursor) :
    Cursor.sizeAll (passed language cursor) < cursor.tree.size := by
  have h : ∀ (p : Cursor → Bool) (cursors : List Cursor),
      Cursor.sizeAll (cursors.filter p) ≤ Cursor.sizeAll cursors := by
    intro p cursors
    induction cursors with
    | nil => simp
    | cons c rest ih =>
      simp only [Cursor.sizeAll] at ih ⊢
      by_cases hp : p c <;> simp [hp, ParseTree.sizeAll] <;> omega
  exact Nat.lt_of_le_of_lt (h _ _) cursor.sizeAll_namedChildren_lt

/-- Goes through the cursors that wait, from the first on, adding to the targets, newest first.
Nothing below a target is looked at. -/
def gather (language : Language) : (waiting : List Cursor) → List ChunkTarget → List ChunkTarget
  | [], targets => targets
  | cursor :: rest, targets =>
    gather language (passed language cursor ++ rest) (found language cursor ++ targets)
termination_by waiting => Cursor.sizeAll waiting
decreasing_by
  have := sizeAll_passed_lt language cursor
  simp only [Cursor.sizeAll, List.map_append, ParseTree.sizeAll_append, List.map_cons,
    ParseTree.sizeAll] at this ⊢
  omega

/-- The topmost targets of a tree, its root apart. -/
def collect (language : Language) (root : ParseTree) : List ChunkTarget :=
  (gather language [⟨root, []⟩] []).reverse

/-! ## Names -/

/-- The plain type that a generic or qualified type is built on. -/
def baseType (type : ParseTree) : ParseTree :=
  match type.kind with
  | "generic_type" =>
    match _h : type.child? "type" with
    | none => type
    | some inner => baseType inner
  | "scoped_type_identifier" => (type.child? "name").getD type
  | _ => type
termination_by type.size
decreasing_by exact ParseTree.size_lt_of_child? _h

/-- The name of the class, trait or implemented type around a declaration. -/
def ownerName? (language : Language) (text : String) (declaration : Cursor) : Option String := do
  let scope ← scope? language declaration
  if scope.kind = "impl_item" then (baseType (← scope.child? "type")).text? text
  else scope.fieldText? "name" text

end ChunkTarget

end CodeAtlas
