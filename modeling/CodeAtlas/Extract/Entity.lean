import CodeAtlas.Json.Basic

/-!
# Entities and relations

## Main definitions

* `CodeAtlas.Entity`, `CodeAtlas.Relation` — a named construct of a program, and a typed link
  between two of them.
* `CodeAtlas.Extraction` — the entities and relations of one file, its module first.
-/

set_option autoImplicit false

namespace CodeAtlas

/-- The sort of an entity. -/
inductive EntityKind where
  | module
  | function
  | method
  | classLike
  | interface
  | type
  deriving DecidableEq, Repr

namespace EntityKind

/-- The written form of a kind. -/
def name : EntityKind → String
  | module => "module"
  | function => "function"
  | method => "method"
  | classLike => "class"
  | interface => "interface"
  | type => "type"

/-- All kinds. -/
def all : List EntityKind := [module, function, method, classLike, interface, type]

end EntityKind

/-- The sort of a relation. -/
inductive RelationKind where
  | contains
  | imports
  | exports
  | calls
  | inherits
  | implements
  deriving DecidableEq, Repr

namespace RelationKind

/-- The written form of a kind. -/
def name : RelationKind → String
  | contains => "CONTAINS"
  | imports => "IMPORTS"
  | exports => "EXPORTS"
  | calls => "CALLS"
  | inherits => "EXTENDS"
  | implements => "IMPLEMENTS"

/-- All kinds. -/
def all : List RelationKind := [contains, imports, exports, calls, inherits, implements]

end RelationKind

/-- A named construct of a program. -/
structure Entity where
  /-- The path of a module, the path and name of a declaration. -/
  id : String
  /-- The name alone. -/
  name : String
  /-- The sort of the entity. -/
  kind : EntityKind
  /-- The file that declares the entity. -/
  path : String
  /-- The first line, counted from one; zero for a module outside of the file set. -/
  startLine : Nat
  /-- The last line. -/
  endLine : Nat
  /-- The first telling line of the declaration. -/
  signature : Option String := none
  /-- The chunk that the entity was extracted with. -/
  chunkId : Option String := none
  deriving DecidableEq, Repr

/-- The module that stands for an import from outside of the file set. -/
def Entity.external (specifier : String) : Entity :=
  { id := specifier
    name := specifier
    kind := .module
    path := specifier
    startLine := 0
    endLine := 0 }

/-- A typed link between two entities, which may be known by name only. -/
structure Relation where
  /-- The entity that the link starts from. -/
  sourceId : String
  /-- The entity that it leads to. -/
  targetId : String
  /-- The sort of the relation. -/
  kind : RelationKind
  /-- Members of an object that travels with the relation. -/
  metadata : Option (List (String × Json)) := none

/-- The part of a relation that tells it from others. -/
def Relation.key (relation : Relation) : String × String × RelationKind :=
  (relation.sourceId, relation.targetId, relation.kind)

/-- The entities and relations of one file. -/
structure Extraction where
  /-- The entities, the file's module first. -/
  entities : List Entity
  /-- The relations, in the order in which they were found. -/
  relations : List Relation

namespace Extraction

/-- The result that holds a module and nothing else. -/
def ofModule (module : Entity) : Extraction := ⟨[module], []⟩

/-- The file's module. -/
def module? (extraction : Extraction) : Option Entity := extraction.entities.head?

/-- The relations of one sort. -/
def relationsOf (extraction : Extraction) (kind : RelationKind) : List Relation :=
  extraction.relations.filter (·.kind = kind)

end Extraction

end CodeAtlas
