import CodeAtlas.Extract.Entity
import CodeAtlas.Extract.Limits
import CodeAtlas.Wire.Record

/-!
# Extractions on the wire

## Main definitions

* `CodeAtlas.Entity.toJson`, `ofJson?`, and the same for `EntityKind`, `RelationKind`, `Relation`,
  `Extraction` and `ExtractionLimits` — the written form of a value and its reader.
-/

set_option autoImplicit false

namespace CodeAtlas

open Json

namespace EntityKind

/-- The written form of a kind. -/
def toJson (kind : EntityKind) : Json := .text kind.name

/-- The kind that a value spells. -/
def ofJson? : Json → Option EntityKind := choice? all name

end EntityKind

namespace RelationKind

/-- The written form of a kind. -/
def toJson (kind : RelationKind) : Json := .text kind.name

/-- The kind that a value spells. -/
def ofJson? : Json → Option RelationKind := choice? all name

end RelationKind

namespace Entity

/-- The fields of an entity, in order. -/
def fieldNames : List String :=
  ["id", "name", "type", "filePath", "startLine", "endLine", "signature", "chunkId"]

/-- The written form of an entity. -/
def toJson (entity : Entity) : Json :=
  .object
    ([("id", .text entity.id),
      ("name", .text entity.name),
      ("type", entity.kind.toJson),
      ("filePath", .text entity.path),
      ("startLine", .ofNat entity.startLine),
      ("endLine", .ofNat entity.endLine)] ++
      present "signature" .text entity.signature ++ present "chunkId" .text entity.chunkId)

/-- The entity that a value spells. -/
def ofJson? (json : Json) : Option Entity := do
  let field ← fields? fieldNames json
  let id ← required text? (field "id")
  let name ← required text? (field "name")
  let kind ← required EntityKind.ofJson? (field "type")
  let path ← required text? (field "filePath")
  let startLine ← required count? (field "startLine")
  let endLine ← required count? (field "endLine")
  let signature ← nullable text? (field "signature")
  let chunkId ← nullable text? (field "chunkId")
  pure { id, name, kind, path, startLine, endLine, signature, chunkId }

end Entity

namespace Relation

/-- The fields of a relation, in order. -/
def fieldNames : List String := ["sourceId", "targetId", "type", "metadata"]

/-- The written form of a relation. -/
def toJson (relation : Relation) : Json :=
  .object
    ([("sourceId", .text relation.sourceId),
      ("targetId", .text relation.targetId),
      ("type", relation.kind.toJson)] ++ present "metadata" .object relation.metadata)

/-- The relation that a value spells. -/
def ofJson? (json : Json) : Option Relation := do
  let field ← fields? fieldNames json
  let sourceId ← required text? (field "sourceId")
  let targetId ← required text? (field "targetId")
  let kind ← required RelationKind.ofJson? (field "type")
  let metadata ← nullable members? (field "metadata")
  pure { sourceId, targetId, kind, metadata }

end Relation

namespace Extraction

/-- The fields of an extraction, in order. -/
def fieldNames : List String := ["entities", "relations"]

/-- The written form of an extraction. -/
def toJson (extraction : Extraction) : Json :=
  .object
    [("entities", .array (extraction.entities.map Entity.toJson)),
     ("relations", .array (extraction.relations.map Relation.toJson))]

/-- The extraction that a value spells. -/
def ofJson? (json : Json) : Option Extraction := do
  let field ← fields? fieldNames json
  let entities ← required (list? Entity.ofJson?) (field "entities")
  let relations ← required (list? Relation.ofJson?) (field "relations")
  pure { entities, relations }

end Extraction

namespace ExtractionLimits

/-- The fields of limits, in order. -/
def fieldNames : List String := ["maxTraversalNodes"]

/-- The written form of limits. -/
def toJson (limits : ExtractionLimits) : Json :=
  .object [("maxTraversalNodes", .ofNat limits.maxNodes)]

/-- The limits that a value spells; an absent limit has its default. -/
def ofJson? (json : Json) : Option ExtractionLimits := do
  let standard : ExtractionLimits := {}
  let field ← fields? fieldNames json
  let maxNodes ← withDefault count? standard.maxNodes (field "maxTraversalNodes")
  pure { maxNodes }

end ExtractionLimits

end CodeAtlas
