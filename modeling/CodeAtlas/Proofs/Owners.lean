import Mathlib.Data.List.Basic
import CodeAtlas.Proofs.Chunking
import CodeAtlas.Proofs.Members

/-!
# The owner of a method, by chunker and by extractor

A method of a Rust type is told twice: its chunk carries the name of the class around it, and its
entity is identified by the name of its owner. Both names come from the type that the block of
methods is for, but are found in different ways. The chunker leaves out type arguments and paths,
the extractor leaves out references and pointers as well.

So the two agree on every type that is not, behind its type arguments, a reference or a pointer. On
such a type the chunk carries the type as it is written.

## Main definitions

* `CodeAtlas.ParseTree.BuiltOn` — a type and what is left of it without its type arguments.
* `CodeAtlas.ParseTree.isIndirect` — references and pointers.

## Main results

* `CodeAtlas.Subject.typeName?_of_builtOn`, `CodeAtlas.ChunkTarget.baseType_of_builtOn` — both ways
  to find a name go through type arguments.
* `CodeAtlas.ChunkTarget.text?_baseType_eq` — where the extractor finds a name, the chunker finds
  the same, unless there is a reference or a pointer.
* `CodeAtlas.Cutting.className_eq_owner` — the class of a method chunk and the owner in the
  identifiers of methods.
-/

set_option autoImplicit false

namespace CodeAtlas

/-! ## Types and their names -/

namespace ParseTree

/-- A type is built on another: that is what is left of it without its type arguments. Generic
types hold the type in front of their arguments in a field of its own, and have no field for a
name. -/
inductive BuiltOn : ParseTree → ParseTree → Prop
  /-- A type without arguments is built on itself. -/
  | plain {type : ParseTree} (hKind : type.kind ≠ "generic_type") : BuiltOn type type
  /-- A generic type is built on what the type in front of its arguments is built on. -/
  | generic {type inner core : ParseTree} (hKind : type.kind = "generic_type")
      (hName : type.child? "name" = none) (hInner : type.child? "type" = some inner)
      (hCore : BuiltOn inner core) : BuiltOn type core

/-- What a type is built on is no generic type. -/
private lemma BuiltOn.kind_ne {type core : ParseTree} (h : BuiltOn type core) :
    core.kind ≠ "generic_type" := by
  induction h with
  | plain hKind => exact hKind
  | generic _ _ _ _ ih => exact ih

/-- Whether a type is a reference or a pointer. -/
def isIndirect (type : ParseTree) : Bool :=
  type.kind == "reference_type" || type.kind == "pointer_type"

end ParseTree

/-- The name of a type, step by step. -/
lemma Subject.typeName?_eq (subject : Subject) (type : ParseTree) : subject.typeName? type =
    match type.kind with
    | "reference_type" | "pointer_type" => type.child? "type" >>= subject.typeName?
    | "generic_type" => (type.child? "name").or (type.child? "type") >>= subject.typeName?
    | "scoped_type_identifier" => type.fieldText? "name" subject.text
    | "type_identifier" | "nested_type_identifier" | "identifier" | "member_expression" =>
      type.text? subject.text
    | _ => none := by
  rw [typeName?]
  split
  case h_1 | h_2 => split <;> simp_all
  case h_3 =>
    split
    · simp_all
    · split <;> simp_all
  all_goals simp_all

/-- The name of a type is that of the type it is built on. -/
theorem Subject.typeName?_of_builtOn (subject : Subject) {type core : ParseTree}
    (h : type.BuiltOn core) : subject.typeName? type = subject.typeName? core := by
  induction h with
  | plain => rfl
  | @generic type inner core hKind hName hInner _ ih =>
    rw [typeName?_eq, hKind]
    simpa [hName, hInner] using ih

namespace ChunkTarget

/-- The plain type behind a type is the one behind the type that it is built on.

**Proof sketch.** Induction on what it means to be built on a type. The plain type behind a generic
type is the one behind the type in front of its arguments. -/
theorem baseType_of_builtOn {type core : ParseTree} (h : type.BuiltOn core) :
    baseType type = baseType core := by
  induction h with
  | plain => rfl
  | @generic type inner core hKind _ hInner _ ih =>
    rw [baseType]
    split
    · split <;> simp_all
    · simp_all
    · simp_all

/-- A type that is neither generic nor qualified is its own plain type. -/
private lemma baseType_eq_self {type : ParseTree} (hGeneric : type.kind ≠ "generic_type")
    (hScoped : type.kind ≠ "scoped_type_identifier") : baseType type = type := by
  rw [baseType]
  split
  · next hKind => exact absurd hKind hGeneric
  · next hKind => exact absurd hKind hScoped
  · rfl

/-- **Both ways to find a name agree.** Where the extractor finds a name for a type that is built on
no reference and no pointer, it is the text of the plain type. On a reference or a pointer the plain
type is the type itself.

**Proof sketch.** Both ways go through type arguments to what the type is built on. There the
extractor knows a qualified name, of which both take the last part, and plain names, which both take
as they are. -/
theorem text?_baseType_eq (subject : Subject) {type core : ParseTree} {name : String}
    (hCore : type.BuiltOn core) (hName : subject.typeName? type = some name) :
    (baseType type).text? subject.text =
      if core.isIndirect then core.text? subject.text else some name := by
  have hGeneric := hCore.kind_ne
  rw [subject.typeName?_of_builtOn hCore] at hName
  rw [baseType_of_builtOn hCore]
  by_cases hScoped : core.kind = "scoped_type_identifier"
  · have hDirect : core.isIndirect = false := by simp [ParseTree.isIndirect, hScoped]
    rw [Subject.typeName?, hScoped] at hName
    obtain ⟨last, hLast, hText⟩ := Option.bind_eq_some_iff.1 hName
    rw [baseType, hScoped, hDirect]
    simpa [hLast] using hText
  · rw [baseType_eq_self hGeneric hScoped]
    by_cases hIndirect : core.isIndirect
    · rw [if_pos hIndirect]
    · rw [if_neg hIndirect]
      simp only [ParseTree.isIndirect, Bool.or_eq_true, beq_iff_eq, not_or] at hIndirect
      rw [Subject.typeName?] at hName
      split at hName <;> simp_all

end ChunkTarget

/-! ## Methods and their owner -/

/-- The class of a method is the plain type of the block of methods around it. -/
lemma ChunkTarget.ownerName?_of_scope? {text : String} {declaration : Cursor}
    {owner type : ParseTree} (hScope : scope? .rust declaration = some owner)
    (hOwner : owner.kind = "impl_item") (hType : owner.child? "type" = some type) :
    ownerName? .rust text declaration = (baseType type).text? text := by
  rw [ownerName?, hScope]
  show (if owner.kind = "impl_item" then _ else _) = _
  rw [if_pos hOwner, hType]
  rfl

/-- All chunks of a target carry what is known of it. -/
private lemma Cutting.exists_metadata_of_mem_target {cutting : Cutting} {target : ChunkTarget}
    {chunks : List Chunk} (h : cutting.target target = .ok chunks) {chunk : Chunk}
    (hMem : chunk ∈ chunks) : ∃ text, chunk.metadata = cutting.metadata target text := by
  obtain ⟨text, -, rfl⟩ := target_eq_ok_iff.1 h
  split at hMem
  · cases hMem
  · refine ⟨text, ?_⟩
    unfold stretch at hMem
    dsimp only at hMem
    split at hMem
    · rw [List.mem_singleton] at hMem
      rw [hMem]
      rfl
    · obtain ⟨window, -, rfl⟩ := List.mem_map.1 hMem
      rfl

/-- The chunks of a method carry the name of the class around it. -/
lemma Cutting.className_of_mem_target {cutting : Cutting} {target : ChunkTarget}
    (hMethod : target.kind = .method) {chunks : List Chunk}
    (h : cutting.target target = .ok chunks) {chunk : Chunk} (hMem : chunk ∈ chunks) :
    chunk.metadata.className =
      ChunkTarget.ownerName? cutting.language cutting.source.text target.declaration := by
  obtain ⟨text, hMetadata⟩ := exists_metadata_of_mem_target h hMem
  rw [hMetadata, metadata, hMethod]

/-- The entities that a block of methods takes down are its functions with a name, as members of the
type that the block is for.

**Proof sketch.** The steps of the block are its contracts, which are no entities, and those of its
functions as members. A member with a name declares one entity, whose identifier is that of the
member, and one without a name none. -/
lemma Subject.exists_entity_implementationSteps_iff {subject : Subject} {owner : ParseTree}
    {name : String} (hName : owner.child? "type" >>= subject.typeName? = some name) (id : String) :
    (∃ entity, Step.record (.entity entity) ∈ subject.implementationSteps owner ∧ entity.id = id) ↔
      ∃ method ∈ functionItems owner, ∃ m, method.fieldText? "name" subject.text = some m ∧
        id = subject.memberId name m := by
  constructor
  · rintro ⟨entity, hMem, rfl⟩
    rw [implementationSteps, hName] at hMem
    rcases List.mem_append.1 hMem with hMem | hMem
    · obtain ⟨contract, -, hEq⟩ := List.mem_map.1 hMem
      cases hEq
    · obtain ⟨method, hMethod, hMem⟩ := List.mem_flatMap.1 hMem
      refine ⟨method, hMethod, ?_⟩
      unfold member at hMem
      split at hMem
      · cases hMem
      · next m hm =>
        refine ⟨m, hm, ?_⟩
        simp only [declare, List.mem_append, List.mem_cons, List.not_mem_nil, or_false,
          Step.record.injEq, Fact.entity.injEq, reduceCtorEq] at hMem
        rw [hMem]
        rfl
  · rintro ⟨method, hMethod, m, hm, rfl⟩
    refine ⟨subject.entityOf (subject.memberId name m) m .method method, ?_, rfl⟩
    refine member_subset_implementationSteps hName hMethod ?_
    rw [member, hm]
    simp [declare]

/-- **Chunker and extractor agree on the owner of a method,** but for references and pointers. Take
a block of methods in a Rust file, for a type that the extractor finds a name for, and what the type
is built on. Every method chunk whose nearest scope is the block carries this very name as its
class, unless the type is built on a reference or a pointer; then it carries the text of that
reference or pointer. In either case the block takes down its functions as members of the name that
the extractor finds.

**Proof sketch.** For a declaration whose scope is the block, the chunker reads the text of the
plain type behind the type of the block. Behind a type it is the one behind what it is built on
(`ChunkTarget.baseType_of_builtOn`), and of that the extractor takes the name, but for references
and pointers (`ChunkTarget.text?_baseType_eq`). The entities are those of
`Subject.exists_entity_implementationSteps_iff`. -/
theorem Cutting.className_eq_owner {cutting : Cutting} {subject : Subject}
    (hRust : cutting.language = .rust) (hText : cutting.source.text = subject.text)
    {owner type core : ParseTree} {name : String} (hOwner : owner.kind = "impl_item")
    (hType : owner.child? "type" = some type) (hName : subject.typeName? type = some name)
    (hCore : type.BuiltOn core) :
    (∀ declaration, ChunkTarget.scope? .rust declaration = some owner →
      ChunkTarget.ownerName? .rust subject.text declaration =
        if core.isIndirect then core.text? subject.text else some name) ∧
    (∀ target chunks, target.kind = .method →
      ChunkTarget.scope? .rust target.declaration = some owner →
      cutting.target target = .ok chunks → ∀ chunk ∈ chunks, chunk.metadata.className =
        if core.isIndirect then core.text? subject.text else some name) ∧
    ∀ id, (∃ entity, Step.record (.entity entity) ∈ subject.implementationSteps owner ∧
        entity.id = id) ↔
      ∃ method ∈ Subject.functionItems owner, ∃ m,
        method.fieldText? "name" subject.text = some m ∧ id = subject.memberId name m := by
  have hClass : ∀ declaration, ChunkTarget.scope? .rust declaration = some owner →
      ChunkTarget.ownerName? .rust subject.text declaration =
        if core.isIndirect then core.text? subject.text else some name := by
    intro declaration hScope
    rw [ChunkTarget.ownerName?_of_scope? hScope hOwner hType]
    exact ChunkTarget.text?_baseType_eq subject hCore hName
  refine ⟨hClass, fun target chunks hMethod hScope hChunks chunk hChunk => ?_, fun id => ?_⟩
  · rw [className_of_mem_target hMethod hChunks hChunk, hRust, hText]
    exact hClass target.declaration hScope
  · exact Subject.exists_entity_implementationSteps_iff (by rw [hType]; exact hName) id

/-! ## Two blocks of methods -/

namespace MethodBlocks

/-- A function `m` without parameters and statements, at a byte of the first line. -/
def definition (start : Nat) : ParseTree :=
  .node ⟨"function_item", true, none, start, start + 9, 0, 0⟩
    [.node ⟨"fn", false, none, start, start + 2, 0, 0⟩ [],
     .node ⟨"identifier", true, some "name", start + 3, start + 4, 0, 0⟩ [],
     .node ⟨"parameters", true, some "parameters", start + 4, start + 6, 0, 0⟩ [],
     .node ⟨"block", true, some "body", start + 7, start + 9, 0, 0⟩ []]

/-- The body of a block of methods at a byte of the first line, which holds the function alone. -/
def body (start : Nat) : ParseTree :=
  .node ⟨"declaration_list", true, some "body", start, start + 13, 0, 0⟩
    [.node ⟨"\x7b", false, none, start, start + 1, 0, 0⟩ [], definition (start + 2),
     .node ⟨"\x7d", false, none, start + 12, start + 13, 0, 0⟩ []]

/-- A block of methods with the given nodes before its body. -/
def block (front : List ParseTree) (start : Nat) : ParseTree :=
  .node ⟨"impl_item", true, none, 0, start + 13, 0, 0⟩
    (.node ⟨"impl", false, none, 0, 4, 0, 0⟩ [] :: front ++ [body start])

/-- The file that holds a block of methods. -/
def root (owner : ParseTree) : ParseTree :=
  .node ⟨"source_file", true, none, 0, owner.endByte + 1, 0, 1⟩ [owner]

/-- The function in a block of methods, on the way down to it. -/
def method (owner : ParseTree) (start : Nat) : Cursor :=
  ⟨definition (start + 2), [body start, owner, root owner]⟩

/-- The function as a chunk target. -/
def target (owner : ParseTree) (start : Nat) : ChunkTarget :=
  ⟨definition (start + 2), method owner start, .method⟩

/-- A file under extraction. -/
def subject (text : String) : Subject := ⟨.rust, "a.rs", text, none⟩

/-- What a file is cut with. -/
def cutting (text : String) : Cutting := ⟨{}, .rust, "a.rs", .ofText text⟩

/-- The function is a chunk target, and a method if there is a scope around it. -/
private lemma of?_method {owner : ParseTree} {start : Nat}
    (h : ChunkTarget.scope? .rust (method owner start) = some owner) :
    ChunkTarget.of? .rust (method owner start) = some (target owner start) := by
  have hRule : ChunkRule.of? .rust (method owner start).tree.kind =
      some (.declaration .function) := rfl
  rw [ChunkTarget.of?, ChunkTarget.match?, hRule]
  simp only [h]
  rfl

/-- The function is cut out as one chunk if its bytes are a slice of the text that fits. -/
private lemma exists_chunks {text : String} {owner : ParseTree} {start : Nat}
    (h : ((cutting text).target (target owner start)).toOption.map List.length = some 1) :
    ∃ chunks, (cutting text).target (target owner start) = .ok chunks ∧ chunks.length = 1 := by
  obtain ⟨chunks, hChunks, hLength⟩ := Option.map_eq_some_iff.1 h
  cases hTarget : (cutting text).target (target owner start) with
  | error error => rw [hTarget] at hChunks; cases hChunks
  | ok found =>
    rw [hTarget] at hChunks
    obtain rfl : found = chunks := Option.some.inj hChunks
    exact ⟨found, rfl, hLength⟩

/-- A file whose methods are for a generic type behind a path. -/
def qualifiedText : String := "impl a::S<T> \x7b fn m() \x7b\x7d \x7d\n"

/-- The type behind the path. -/
def pathType : ParseTree :=
  .node ⟨"scoped_type_identifier", true, some "type", 5, 9, 0, 0⟩
    [.node ⟨"identifier", true, some "path", 5, 6, 0, 0⟩ [],
     .node ⟨"::", false, none, 6, 8, 0, 0⟩ [],
     .node ⟨"type_identifier", true, some "name", 8, 9, 0, 0⟩ []]

/-- The generic type. -/
def genericType : ParseTree :=
  .node ⟨"generic_type", true, some "type", 5, 12, 0, 0⟩
    [pathType, .node ⟨"type_arguments", true, some "type_arguments", 9, 12, 0, 0⟩ []]

/-- The block of methods for the generic type. -/
def qualified : ParseTree := block [genericType] 13

/-- The generic type is built on the type behind the path. -/
private lemma builtOn_genericType : genericType.BuiltOn pathType :=
  .generic rfl rfl rfl (.plain (by decide))

/-- The name of the generic type is the last part of the path. -/
private lemma typeName?_genericType : (subject qualifiedText).typeName? genericType = some "S" := by
  rw [Subject.typeName?_of_builtOn _ builtOn_genericType, Subject.typeName?]
  show pathType.fieldText? "name" qualifiedText = some "S"
  decide +kernel

/-- The chunk of the method carries the name under which its entity is identified. -/
theorem className_qualified :
    qualified.kind = "impl_item" ∧ qualified.child? "type" = some genericType ∧
    (subject qualifiedText).typeName? genericType = some "S" ∧
    ChunkTarget.of? .rust (method qualified 13) = some (target qualified 13) ∧
    ChunkTarget.scope? .rust (method qualified 13) = some qualified ∧
    (∃ chunks, (cutting qualifiedText).target (target qualified 13) = .ok chunks ∧
      chunks.length = 1 ∧ ∀ chunk ∈ chunks, chunk.metadata.className = some "S") ∧
    ∃ entity, Step.record (.entity entity) ∈ (subject qualifiedText).implementationSteps qualified ∧
      entity.id = "a.rs#S.m" := by
  obtain ⟨-, hClass, hIds⟩ := @Cutting.className_eq_owner (cutting qualifiedText)
    (subject qualifiedText) rfl rfl qualified genericType pathType "S" (by decide) rfl
    typeName?_genericType builtOn_genericType
  obtain ⟨chunks, hChunks, hLength⟩ := @exists_chunks qualifiedText qualified 13 (by decide +kernel)
  have hDirect : pathType.isIndirect = false := by decide
  simp only [hDirect, Bool.false_eq_true, if_false] at hClass
  refine ⟨by decide, rfl, typeName?_genericType, of?_method rfl, rfl,
    ⟨chunks, hChunks, hLength, hClass _ chunks rfl rfl hChunks⟩, (hIds "a.rs#S.m").2 ?_⟩
  exact ⟨definition 15, List.mem_singleton_self _, "m", by decide +kernel, by decide⟩

/-- A file whose methods are for a reference. -/
def borrowedText : String := "impl T for &S \x7b fn m() \x7b\x7d \x7d\n"

/-- The reference. -/
def referenceType : ParseTree :=
  .node ⟨"reference_type", true, some "type", 11, 13, 0, 0⟩
    [.node ⟨"&", false, none, 11, 12, 0, 0⟩ [],
     .node ⟨"type_identifier", true, some "type", 12, 13, 0, 0⟩ []]

/-- The block of methods for the reference. -/
def borrowed : ParseTree :=
  block [.node ⟨"type_identifier", true, some "trait", 5, 6, 0, 0⟩ [],
    .node ⟨"for", false, none, 7, 10, 0, 0⟩ [], referenceType] 14

/-- The name of the reference is that of the type it refers to. -/
private lemma typeName?_referenceType :
    (subject borrowedText).typeName? referenceType = some "S" := by
  rw [Subject.typeName?]
  show (subject borrowedText).typeName?
    (.node ⟨"type_identifier", true, some "type", 12, 13, 0, 0⟩ []) = some "S"
  rw [Subject.typeName?]
  show Text.slice? borrowedText 12 13 = some "S"
  decide +kernel

/-- **Chunker and extractor disagree on references.** The method is taken down as a member of `S`,
and its chunk carries the class `&S`. -/
theorem className_borrowed :
    borrowed.kind = "impl_item" ∧ borrowed.child? "type" = some referenceType ∧
    (subject borrowedText).typeName? referenceType = some "S" ∧
    ChunkTarget.of? .rust (method borrowed 14) = some (target borrowed 14) ∧
    ChunkTarget.scope? .rust (method borrowed 14) = some borrowed ∧
    (∃ entity, Step.record (.entity entity) ∈ (subject borrowedText).implementationSteps borrowed ∧
      entity.id = "a.rs#S.m") ∧
    ∃ chunks, (cutting borrowedText).target (target borrowed 14) = .ok chunks ∧
      chunks.length = 1 ∧ ∀ chunk ∈ chunks, chunk.metadata.className = some "&S" ∧
        chunk.metadata.className ≠ some "S" := by
  obtain ⟨chunks, hChunks, hLength⟩ := @exists_chunks borrowedText borrowed 14 (by decide +kernel)
  have hPlain : referenceType.BuiltOn referenceType := .plain (by decide)
  have hReference : referenceType.text? borrowedText = some "&S" := by decide +kernel
  have hBase : (ChunkTarget.baseType referenceType).text? borrowedText = some "&S" :=
    (ChunkTarget.text?_baseType_eq _ hPlain typeName?_referenceType).trans hReference
  refine ⟨by decide, rfl, typeName?_referenceType, of?_method rfl, rfl, ?_, chunks, hChunks,
    hLength, fun chunk hChunk => ?_⟩
  · have hName : borrowed.child? "type" >>= (subject borrowedText).typeName? = some "S" :=
      typeName?_referenceType
    refine (Subject.exists_entity_implementationSteps_iff hName _).2 ?_
    exact ⟨definition 16, List.mem_singleton_self _, "m", by decide +kernel, by decide⟩
  · have hClass : chunk.metadata.className = some "&S" := by
      rw [Cutting.className_of_mem_target rfl hChunks hChunk]
      exact (ChunkTarget.ownerName?_of_scope? rfl (by decide) rfl).trans hBase
    exact ⟨hClass, by rw [hClass]; decide⟩

end MethodBlocks

end CodeAtlas
