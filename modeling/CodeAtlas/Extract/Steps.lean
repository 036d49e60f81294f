import CodeAtlas.Extract.Category
import CodeAtlas.Extract.Entity
import CodeAtlas.Language.NodeKinds
import CodeAtlas.ParseTree.Cursor
import CodeAtlas.Path.Import
import CodeAtlas.Text.Lines

/-!
# What a node contributes

Each node of a category contributes steps to the extraction of its file: facts, that is entities
and relations, and scans for the calls in a function.

## Main definitions

* `CodeAtlas.Subject` — the file under extraction.
* `CodeAtlas.Fact`, `CodeAtlas.Step` — an entity or a relation, and a fact or a scan.
* `CodeAtlas.Subject.steps` — the steps of a node.
* `CodeAtlas.Subject.exportedName?` — the name that a node exports.
* `CodeAtlas.Subject.typeName?` — the name of a type without its arguments and its path.
-/

set_option autoImplicit false

namespace CodeAtlas

/-- An entity or a relation that was found. -/
inductive Fact where
  /-- An entity. -/
  | entity (entity : Entity)
  /-- A relation between two identifiers. -/
  | relation (source target : String) (kind : RelationKind)
  deriving DecidableEq, Repr

/-- A step of an extraction. -/
inductive Step where
  /-- Records a fact. -/
  | record (fact : Fact)
  /-- Records the calls in a scope for their caller. -/
  | scan (caller : String) (scope : ParseTree)

/-- The file under extraction. -/
structure Subject where
  /-- The language of the file. -/
  language : Language
  /-- The path of the file. -/
  path : String
  /-- The text of the file. -/
  text : String
  /-- The chunk that the entities are extracted with. -/
  chunkId : Option String := none

namespace Subject

/-- The identifier of a declaration. -/
def symbolId (subject : Subject) (name : String) : String := subject.path ++ "#" ++ name

/-- The identifier of a member. -/
def memberId (subject : Subject) (owner name : String) : String :=
  subject.path ++ "#" ++ owner ++ "." ++ name

/-- The entity that a node declares. -/
def entityOf (subject : Subject) (id name : String) (kind : EntityKind) (node : ParseTree) :
    Entity :=
  { id, name, kind
    path := subject.path
    startLine := node.info.startRow + 1
    endLine := node.info.endRow + 1
    signature := node.text? subject.text >>= Text.headline
    chunkId := subject.chunkId }

/-- The steps that declare an entity inside of an owner. -/
def declare (subject : Subject) (ownerId id name : String) (kind : EntityKind) (node : ParseTree) :
    List Step :=
  [.record (.entity (subject.entityOf id name kind node)),
   .record (.relation ownerId id .contains)]

/-- The part of a function that holds its statements: its body, or all of it. -/
def bodyOf (node : ParseTree) : ParseTree := (node.child? "body").getD node

/-- The steps that declare a member of an owner. A member without a name declares nothing. -/
def member (subject : Subject) (ownerId owner : String) (node : ParseTree) : List Step :=
  match node.fieldText? "name" subject.text with
  | none => []
  | some name =>
    let id := subject.memberId owner name
    subject.declare ownerId id name .method node ++ [.scan id (bodyOf node)]

/-- The name of a type: references, arguments and paths are left out. -/
def typeName? (subject : Subject) (type : ParseTree) : Option String :=
  match type.kind with
  | "reference_type" | "pointer_type" =>
    match _h : type.child? "type" with
    | none => none
    | some inner => subject.typeName? inner
  | "generic_type" =>
    match _h : type.child? "name" with
    | some inner => subject.typeName? inner
    | none =>
      match _h' : type.child? "type" with
      | none => none
      | some inner => subject.typeName? inner
  | "scoped_type_identifier" => type.fieldText? "name" subject.text
  | "type_identifier" | "nested_type_identifier" | "identifier" | "member_expression" =>
    type.text? subject.text
  | _ => none
termination_by type.size
decreasing_by all_goals exact ParseTree.size_lt_of_child? (by assumption)

/-! ## Imports -/

/-- A literal without the quotes around it. -/
def unquote (literal : String) : String :=
  let isQuote := fun c => c == '\x22' || c == '\x27' || c == '\x60'
  String.ofList ((literal.toList.dropWhile isQuote).reverse.dropWhile isQuote).reverse

/-- The modules that a Python import names. -/
def pythonSpecifiers (subject : Subject) (node : ParseTree) : List String :=
  if node.kind = "import_from_statement" then
    (node.fieldText? "module_name" subject.text).toList.map fun reference =>
      Path.ofDottedModule (String.ofList (Text.trim reference.toList))
  else
    (node.childrenIn "name").filterMap fun name => do
      let plain ← if name.kind = "aliased_import" then name.child? "name" else some name
      plain.text? subject.text

/-- The leading path of a Rust use tree; a bare list has none. -/
def useRoot? (argument : ParseTree) : Option ParseTree :=
  match argument.kind with
  | "use_as_clause" | "scoped_use_list" => argument.child? "path"
  | "use_wildcard" => argument.namedChildren.head?
  | "use_list" => none
  | _ => some argument

/-- The modules that an import names. -/
def specifiers (subject : Subject) (node : ParseTree) : List String :=
  match subject.language with
  | .python => subject.pythonSpecifiers node
  | .rust => (node.child? "argument" >>= useRoot? >>= (·.text? subject.text)).toList
  | _ =>
    ((node.fieldText? "source" subject.text).map unquote).toList.filter fun s => !s.isEmpty

/-- The steps of an import: a module from outside of the file set is an entity of its own. -/
def importSteps (subject : Subject) (specifier : String) : List Step :=
  let target := Path.resolveImport subject.path specifier
  let entity :=
    if Path.isRelative specifier then [] else [Step.record (.entity (.external target))]
  entity ++ [.record (.relation subject.path target .imports)]

/-! ## Functions -/

/-- Whether a function is a member that its owner takes care of. -/
def isMember (cursor : Cursor) : Bool :=
  let outside := cursor.ancestors.dropWhile fun a => NodeKinds.memberContainers.contains a.kind
  match outside.head? with
  | some owner => NodeKinds.memberScopes.contains owner.kind
  | none => false

/-- The steps that declare a function and scan its calls. -/
def function (subject : Subject) (name : String) (node value : ParseTree) : List Step :=
  let id := subject.symbolId name
  subject.declare subject.path id name .function node ++ [.scan id (bodyOf value)]

/-- The steps of a function that is no member. -/
def functionSteps (subject : Subject) (cursor : Cursor) : List Step :=
  if isMember cursor then []
  else match cursor.tree.fieldText? "name" subject.text with
    | none => []
    | some name => subject.function name cursor.tree cursor.tree

/-- The steps of one declarator of a statement, if it binds a function. -/
def declaratorSteps (subject : Subject) (statement declarator : ParseTree) : List Step :=
  match declarator.child? "value", declarator.fieldText? "name" subject.text with
  | some value, some name =>
    if NodeKinds.functionValues.contains value.kind then subject.function name statement value
    else []
  | _, _ => []

/-- The steps of a statement that binds names. -/
def bindingSteps (subject : Subject) (statement : ParseTree) : List Step :=
  (statement.namedChildren.filter (·.kind == "variable_declarator")).flatMap
    (subject.declaratorSteps statement)

/-! ## Classes and interfaces -/

/-- The first base class of a Python class, without its type arguments. -/
def pythonBase? (subject : Subject) (node : ParseTree) : Option String := do
  let arguments ← node.child? "superclasses"
  let first ← arguments.namedChildren.find? fun argument =>
    argument.kind != "keyword_argument" && argument.kind != "comment"
  let base := if first.kind = "subscript" then (first.child? "value").getD first else first
  base.text? subject.text

/-- The types that the clauses behind an ECMAScript class extend and implement. A clause of
another kind is the base class itself, and the last clause to count. -/
def heritage (subject : Subject) : List ParseTree → List (String × RelationKind)
  | [] => []
  | clause :: rest =>
    match clause.kind with
    | "extends_clause" =>
      (clause.fieldText? "value" subject.text).toList.map (·, .inherits) ++ subject.heritage rest
    | "implements_clause" =>
      (clause.namedChildren.filterMap subject.typeName?).map (·, .implements) ++
        subject.heritage rest
    | _ => (clause.text? subject.text).toList.map (·, .inherits)

/-- The types that a class extends and implements. -/
def ancestry (subject : Subject) (node : ParseTree) : List (String × RelationKind) :=
  match subject.language with
  | .python => (subject.pythonBase? node).toList.map (·, .inherits)
  | .rust => []
  | _ =>
    match node.namedChild? "class_heritage" with
    | none => []
    | some clauses => subject.heritage clauses.namedChildren

/-- The method that a node of a class body holds. -/
def methodOf? (node : ParseTree) : Option ParseTree :=
  match node.kind with
  | "method_definition" | "function_definition" => some node
  | "decorated_definition" =>
    (node.child? "definition").filter (·.kind == "function_definition")
  | _ => none

/-- The constructs in the body of a node. -/
def bodyItems (node : ParseTree) : List ParseTree :=
  match node.child? "body" with
  | none => []
  | some body => body.namedChildren

/-- The steps of a class. -/
def classSteps (subject : Subject) (node : ParseTree) : List Step :=
  match node.fieldText? "name" subject.text with
  | none => []
  | some name =>
    let id := subject.symbolId name
    subject.declare subject.path id name .classLike node ++
      (subject.ancestry node).map (fun (base, kind) => .record (.relation id base kind)) ++
      ((bodyItems node).filterMap methodOf?).flatMap (subject.member id name)

/-- The functions with a body among the items of a Rust block. -/
def functionItems (node : ParseTree) : List ParseTree :=
  (bodyItems node).filter (·.kind == "function_item")

/-- The types that an interface or a trait extends. -/
def interfaceParents (subject : Subject) (node : ParseTree) : List String :=
  let list :=
    if subject.language = .rust then node.child? "bounds"
    else node.namedChild? "extends_type_clause"
  (list.toList.flatMap ParseTree.namedChildren).filterMap subject.typeName?

/-- The steps of an interface or a trait. Only the functions of a trait that have a body are
declared. -/
def interfaceSteps (subject : Subject) (node : ParseTree) : List Step :=
  match node.fieldText? "name" subject.text with
  | none => []
  | some name =>
    let id := subject.symbolId name
    let methods :=
      if subject.language = .rust then (functionItems node).flatMap (subject.member id name)
      else []
    subject.declare subject.path id name .interface node ++
      (subject.interfaceParents node).map (fun base => .record (.relation id base .inherits)) ++
      methods

/-- The steps of a type alias. -/
def aliasSteps (subject : Subject) (node : ParseTree) : List Step :=
  match node.fieldText? "name" subject.text with
  | none => []
  | some name => subject.declare subject.path (subject.symbolId name) name .type node

/-- The steps of a block that gives methods to a type. -/
def implementationSteps (subject : Subject) (node : ParseTree) : List Step :=
  match node.child? "type" >>= subject.typeName? with
  | none => []
  | some type =>
    let id := subject.symbolId type
    let contract := (node.child? "trait" >>= subject.typeName?).toList
    contract.map (fun name => .record (.relation id name .implements)) ++
      (functionItems node).flatMap (subject.member id type)

/-! ## Exports -/

/-- The name of an export statement: of its declaration, or the first in its clause. -/
def exportStatementName? (subject : Subject) (node : ParseTree) : Option String :=
  match node.child? "declaration" with
  | some declaration =>
    if declaration.kind = "lexical_declaration" ∨ declaration.kind = "variable_declaration" then
      declaration.namedChild? "variable_declarator" >>= (·.fieldText? "name" subject.text)
    else declaration.fieldText? "name" subject.text
  | none => do
    let clause ← node.namedChild? "export_clause"
    let specifier ← clause.namedChild? "export_specifier"
    specifier.fieldText? "name" subject.text

/-- Whether a Rust item is public without restriction. -/
def isPublic (subject : Subject) (node : ParseTree) : Bool :=
  node.children.any fun child =>
    child.kind == "visibility_modifier" && child.text? subject.text == some "pub"

/-- The name of a public Rust item at the top of its file. -/
def publicItemName? (subject : Subject) (cursor : Cursor) : Option String :=
  if cursor.ancestors.head?.map ParseTree.kind = some "source_file" ∧ subject.isPublic cursor.tree
  then cursor.tree.fieldText? "name" subject.text
  else none

/-- The category of a node. -/
def category? (subject : Subject) (cursor : Cursor) : Option Category :=
  Category.of? subject.language cursor.tree.kind

/-- The name that a node exports. -/
def exportedName? (subject : Subject) (cursor : Cursor) : Option String :=
  match subject.category? cursor with
  | none => none
  | some .exporting => subject.exportStatementName? cursor.tree
  | some .importing => none
  | some .implementation => none
  | some _ => if subject.language = .rust then subject.publicItemName? cursor else none

/-! ## All steps -/

/-- The steps of a node. -/
def steps (subject : Subject) (cursor : Cursor) : List Step :=
  match subject.category? cursor with
  | none => []
  | some .importing => (subject.specifiers cursor.tree).flatMap subject.importSteps
  | some .function => subject.functionSteps cursor
  | some .binding => subject.bindingSteps cursor.tree
  | some .classLike => subject.classSteps cursor.tree
  | some .interface => subject.interfaceSteps cursor.tree
  | some .typeAlias => subject.aliasSteps cursor.tree
  | some .implementation => subject.implementationSteps cursor.tree
  | some .exporting => []

/-- Whether the walk goes on below a node. -/
def descends (subject : Subject) (cursor : Cursor) : Bool :=
  match subject.category? cursor with
  | none => true
  | some category => category.descends

end Subject

end CodeAtlas
