import Mathlib.Data.List.Nodup
import CodeAtlas.Wire.Chunk
import CodeAtlas.Wire.Extraction

/-!
# Written forms are read back

Every value that travels can be read back from its written form, whether its fields hold texts,
counts, choices, lists or other records, and whether optional fields are there or not. So what is
accepted and written again is accepted once more, and written in the same form.

An optional field is left out if it holds nothing, and null is read as nothing. It can be read back
because no value that it may hold is written as null.

## Main definitions

* `CodeAtlas.Json.rewrite` — an accepted value in the form in which it is written.
* `CodeAtlas.Json.Lossless` — written forms are read back, and rewriting twice is rewriting once.

## Main results

* `CodeAtlas.Json.choice?_text`, `list?_array`, `nullable_map` — choices, lists and optional fields
  are read back.
* `CodeAtlas.Json.lookup_present` — where an optional field is found.
* `CodeAtlas.lossless_wire` — all records and choices that travel are written losslessly.
-/

set_option autoImplicit false

namespace CodeAtlas

namespace Json

variable {α : Type}

/-- An accepted value in the form in which it is written. -/
def rewrite (write : α → Json) (read : Json → Option α) (json : Json) : Option Json :=
  (read json).map write

/-- What is written is read back, and what is accepted and rewritten stays as it is when it is
rewritten again. -/
structure Lossless (write : α → Json) (read : Json → Option α) : Prop where
  read_write : ∀ value, read (write value) = some value
  rewrite_rewrite : ∀ json, rewrite write read json >>= rewrite write read =
    rewrite write read json

variable {write : α → Json} {read : Json → Option α}

/-- Where written forms are read back, rewriting twice is rewriting once. -/
private lemma Lossless.of_read_write (h : ∀ value, read (write value) = some value) :
    Lossless write read where
  read_write := h
  rewrite_rewrite json := by
    cases hRead : read json with
    | none => simp [rewrite, hRead]
    | some value => simp [rewrite, hRead, h]

/-! ## Values of fields -/

/-- A text is read back. -/
@[simp] lemma text?_text (value : String) : text? (.text value) = some value := rfl

/-- A natural number is read back. -/
@[simp] lemma count?_ofNat (n : Nat) : count? (.ofNat n) = some n := rfl

/-- The members of an object are read back. -/
@[simp] lemma members?_object (members : List (String × Json)) :
    members? (.object members) = some members := rfl

/-- **A choice is read back** if it is among the alternatives and no two of these have the same
name. -/
theorem choice?_text {alternatives : List α} {name : α → String}
    (hNames : (alternatives.map name).Nodup) {value : α} (h : value ∈ alternatives) :
    choice? alternatives name (.text (name value)) = some value := by
  show alternatives.find? (fun other => name other == name value) = some value
  cases hFind : alternatives.find? fun other => name other == name value with
  | none => exact absurd (beq_self_eq_true _) (List.find?_eq_none.1 hFind value h)
  | some other =>
    have hSame : name other = name value := by simpa using List.find?_some hFind
    rw [List.inj_on_of_nodup_map hNames (List.mem_of_find?_eq_some hFind) h hSame]

/-- **A list is read back** if its items are. -/
theorem list?_array (h : ∀ value, read (write value) = some value) (values : List α) :
    list? read (.array (values.map write)) = some values := by
  show (values.map write).mapM read = some values
  induction values with
  | nil => rfl
  | cons value rest ih => simp [h, ih]

/-- **An optional field is read back** if what it holds is, and is not written as null. -/
theorem nullable_map (h : ∀ value, read (write value) = some value)
    (hNull : ∀ value, write value ≠ .null) (field : Option α) :
    nullable read (field.map write) = some field := by
  cases field with
  | none => rfl
  | some value =>
    have hRead : nullable read (some (write value)) = (read (write value)).map some := by
      cases hWritten : write value with
      | null => exact absurd hWritten (hNull value)
      | _ => rfl
    rw [Option.map_some, hRead, h, Option.map_some]

/-- An optional text is read back. -/
lemma nullable_text (field : Option String) : nullable text? (field.map .text) = some field :=
  nullable_map text?_text (by simp) field

/-! ## Fields of records -/

/-- A field that is there is read. -/
@[simp] lemma required_some (field : Json) : required read (some field) = read field := rfl

/-- A field that is there does not have its default. -/
@[simp] lemma withDefault_some (default : α) (field : Json) :
    withDefault read default (some field) = read field := rfl

/-- The fields of an object are its members. -/
@[simp] lemma fields?_object (names : List String) (members : List (String × Json)) :
    fields? names (.object members) = some fun name => members.lookup name := rfl

/-- Where a field is found: under its name. -/
lemma lookup_member (name other : String) (field : Json) (rest : List (String × Json)) :
    ((name, field) :: rest).lookup other =
      if other = name then some field else rest.lookup other := by
  rw [List.lookup_cons]
  by_cases h : other = name
  · simp [h]
  · simp [h, beq_false_of_ne h]

/-- Where an optional field is found: under its name, if it holds something. -/
theorem lookup_present (name other : String) (write : α → Json) (field : Option α) :
    (present name write field).lookup other = if other = name then field.map write else none := by
  cases field with
  | none => simp [present]
  | some value => rw [present, lookup_member, List.lookup_nil, Option.map_some]

end Json

open Json

/-! ## Chunks and budgets -/

/-- A kind of chunk is read back. -/
lemma ChunkKind.ofJson?_toJson (kind : ChunkKind) : ofJson? kind.toJson = some kind :=
  choice?_text (by decide) (by cases kind <;> decide)

/-- Metadata is read back. -/
lemma ChunkMetadata.ofJson?_toJson (metadata : ChunkMetadata) :
    ofJson? metadata.toJson = some metadata := by
  simp [ofJson?, toJson, lookup_member, lookup_present, List.lookup_append, nullable_text]

/-- A chunk is read back. -/
private lemma Chunk.ofJson?_toJson (chunk : Chunk) : ofJson? chunk.toJson = some chunk := by
  simp [ofJson?, toJson, lookup_member, ChunkKind.ofJson?_toJson, ChunkMetadata.ofJson?_toJson]

/-- A budget is read back. -/
private lemma Budget.ofJson?_toJson (budget : Budget) : ofJson? budget.toJson = some budget := by
  simp [ofJson?, toJson, lookup_member]

/-! ## Extractions -/

/-- A kind of entity is read back. -/
lemma EntityKind.ofJson?_toJson (kind : EntityKind) : ofJson? kind.toJson = some kind :=
  choice?_text (by decide) (by cases kind <;> decide)

/-- A kind of relation is read back. -/
lemma RelationKind.ofJson?_toJson (kind : RelationKind) : ofJson? kind.toJson = some kind :=
  choice?_text (by decide) (by cases kind <;> decide)

/-- An entity is read back. -/
lemma Entity.ofJson?_toJson (entity : Entity) : ofJson? entity.toJson = some entity := by
  simp [ofJson?, toJson, lookup_member, lookup_present, List.lookup_append, nullable_text,
    EntityKind.ofJson?_toJson]

/-- A relation is read back. -/
lemma Relation.ofJson?_toJson (relation : Relation) :
    ofJson? relation.toJson = some relation := by
  have hMembers : ∀ field : Option (List (String × Json)),
      nullable members? (field.map .object) = some field :=
    nullable_map members?_object (by simp)
  simp [ofJson?, toJson, lookup_member, lookup_present, hMembers, RelationKind.ofJson?_toJson]

/-- An extraction is read back. -/
private lemma Extraction.ofJson?_toJson (extraction : Extraction) :
    ofJson? extraction.toJson = some extraction := by
  simp [ofJson?, toJson, lookup_member, list?_array Entity.ofJson?_toJson,
    list?_array Relation.ofJson?_toJson]

/-- Limits are read back. -/
private lemma ExtractionLimits.ofJson?_toJson (limits : ExtractionLimits) :
    ofJson? limits.toJson = some limits := by
  simp [ofJson?, toJson, lookup_member]

/-! ## All that travels -/

/-- **All that travels is written losslessly.** Each record and each choice is read back from its
written form, and what is accepted in another form is rewritten to the written form, where it
stays.

**Proof sketch.** One lemma for each type says that its written form is read back: a field is found
under its name (`Json.lookup_member`), an optional one if it holds something
(`Json.lookup_present`), and the values of lists and records by the lemmas of their types. The other
half follows, as what is accepted is rewritten to the written form of some value
(`Lossless.of_read_write`). -/
theorem lossless_wire :
    Lossless Chunk.toJson Chunk.ofJson? ∧
    Lossless ChunkMetadata.toJson ChunkMetadata.ofJson? ∧
    Lossless ChunkKind.toJson ChunkKind.ofJson? ∧
    Lossless Budget.toJson Budget.ofJson? ∧
    Lossless ExtractionLimits.toJson ExtractionLimits.ofJson? ∧
    Lossless Entity.toJson Entity.ofJson? ∧
    Lossless Relation.toJson Relation.ofJson? ∧
    Lossless Extraction.toJson Extraction.ofJson? ∧
    Lossless EntityKind.toJson EntityKind.ofJson? ∧
    Lossless RelationKind.toJson RelationKind.ofJson? :=
  ⟨.of_read_write Chunk.ofJson?_toJson, .of_read_write ChunkMetadata.ofJson?_toJson,
    .of_read_write ChunkKind.ofJson?_toJson, .of_read_write Budget.ofJson?_toJson,
    .of_read_write ExtractionLimits.ofJson?_toJson, .of_read_write Entity.ofJson?_toJson,
    .of_read_write Relation.ofJson?_toJson, .of_read_write Extraction.ofJson?_toJson,
    .of_read_write EntityKind.ofJson?_toJson, .of_read_write RelationKind.ofJson?_toJson⟩

/-- A budget may be told by its first limit alone, and is written with all of them. -/
example : rewrite Budget.toJson Budget.ofJson? (.array [.ofNat 64]) =
    some (Budget.toJson { maxTokens := 64 }) := rfl

end CodeAtlas
