import Mathlib.Data.Set.Card
import CodeAtlas.Proofs.Uncommented

/-!
# The nodes that an extraction asks for

A node of a tree is known by its address, that is by the numbers of the constructs to go down to.
Equal subtrees may stand at several addresses, so nodes are counted by their addresses. An
extraction asks for one count for each node that its walk enters, and for each of its scans one
count for each node of the scope. Where the limit grants this number the extraction is as if there
were no limit, and below it nothing but the module of the file is left.

## Main definitions

* `CodeAtlas.Cursor.at?` — the node at an address.
* `CodeAtlas.Cursor.reach`, `CodeAtlas.ParseTree.reach` — the number of nodes that are reached from
  a node.
* `CodeAtlas.Subject.scopes` — the scopes that a walk scans.
* `CodeAtlas.Subject.demand` — the number of nodes that a walk and its scans look at.
* `CodeAtlas.Extractor.unlimited` — what is extracted if no limit stands in the way.

## Main results

* `CodeAtlas.Cursor.reach_eq_length_tour` — a tour passes each address once.
* `CodeAtlas.Cursor.mem_tour_iff` — a tour passes the nodes that have an address.
* `CodeAtlas.Subject.demand_eq_cost` — what a walk counts is its demand.
* `CodeAtlas.Extractor.extraction_extract_eq_ite_demand` — the demand is a sharp threshold.

## Design

One notion of address serves the walk and the scans. The walk passes over what is below imports and
type aliases, and a scan passes over nothing, so where the way down may go is a parameter.
-/

set_option autoImplicit false

namespace CodeAtlas

/-! ## Addresses -/

namespace Cursor

variable (descends : Cursor → Bool)

/-- The node at an address. The way down ends at a node that does not let it pass. -/
def at? (cursor : Cursor) : List Nat → Option Cursor
  | [] => some cursor
  | i :: rest => if descends cursor then cursor.namedChildren[i]?.bind (at? · rest) else none

/-- The addresses of the nodes that are reached from a node, itself included. -/
def addresses (cursor : Cursor) : Set (List Nat) := {address | (cursor.at? descends address).isSome}

/-- The number of nodes that are reached from a node, itself included. -/
noncomputable def reach (cursor : Cursor) : Nat := (cursor.addresses descends).ncard

variable {descends}

/-- The addresses that start with the number of a node in a list and lead on from there. -/
def branches (descends : Cursor → Bool) (cursors : List Cursor) : Set (List Nat) :=
  {address | ∃ i cursor rest, address = i :: rest ∧ cursors[i]? = some cursor ∧
    rest ∈ cursor.addresses descends}

/-- The branches of one node more are those of the nodes before it and its own. -/
private lemma branches_concat (cursors : List Cursor) (last : Cursor) :
    branches descends (cursors ++ [last]) =
      branches descends cursors ∪ List.cons cursors.length '' last.addresses descends := by
  ext address
  constructor
  · rintro ⟨i, cursor, rest, rfl, hCursor, hRest⟩
    rcases Nat.lt_or_ge i cursors.length with hLt | hGe
    · rw [List.getElem?_append_left hLt] at hCursor
      exact Or.inl ⟨i, cursor, rest, rfl, hCursor, hRest⟩
    · have hLast : i < (cursors ++ [last]).length := (List.getElem?_eq_some_iff.1 hCursor).1
      rw [List.length_append, List.length_singleton] at hLast
      obtain rfl : i = cursors.length := by omega
      rw [List.getElem?_concat_length] at hCursor
      cases hCursor
      exact Or.inr ⟨rest, hRest, rfl⟩
  · rintro (⟨i, cursor, rest, rfl, hCursor, hRest⟩ | ⟨rest, hRest, rfl⟩)
    · have hLt : i < cursors.length := (List.getElem?_eq_some_iff.1 hCursor).1
      exact ⟨i, cursor, rest, rfl, by rw [List.getElem?_append_left hLt, hCursor], hRest⟩
    · exact ⟨_, last, rest, rfl, List.getElem?_concat_length, hRest⟩

/-- The branches of nodes are as many as the nodes that are reached from them, if each of these is
known to be passed once. -/
private lemma encard_branches (cursors : List Cursor)
    (h : ∀ cursor ∈ cursors, (cursor.addresses descends).encard = (cursor.passed descends).length) :
    (branches descends cursors).encard = (cursors.flatMap (passed descends)).length := by
  -- From the back, so that the nodes before the last one keep their numbers.
  induction cursors using List.reverseRecOn with
  | nil =>
    have hNone : branches descends [] = ∅ := by
      ext address
      simp [branches]
    simp [hNone]
  | append_singleton cursors last ih =>
    have hApart : Disjoint (branches descends cursors)
        (List.cons cursors.length '' last.addresses descends) := by
      rw [Set.disjoint_left]
      rintro _ ⟨i, cursor, rest, rfl, hCursor, -⟩ ⟨other, -, hEq⟩
      have hLt : i < cursors.length := (List.getElem?_eq_some_iff.1 hCursor).1
      have hSame := (List.cons.inj hEq).1
      omega
    rw [branches_concat, Set.encard_union_eq hApart, List.cons_injective.encard_image,
      ih fun cursor hMem => h cursor (List.mem_append_left _ hMem), h last (by simp)]
    simp

/-- The addresses of a node: its own, which is empty, and the branches below it. -/
private lemma addresses_eq (cursor : Cursor) : cursor.addresses descends =
    insert [] (if descends cursor then branches descends cursor.namedChildren else ∅) := by
  ext address
  cases address with
  | nil => simp [addresses, at?]
  | cons i rest =>
    by_cases hDescends : descends cursor
    · cases hChild : cursor.namedChildren[i]? with
      | none => simp [addresses, branches, at?, hDescends, hChild]
      | some child => simp [addresses, branches, at?, hDescends, hChild]
    · simp [addresses, at?, hDescends]

/-- **A tour passes each address once.**

**Proof sketch.** Induction over the tree. The empty address is that of the node itself, and those
that start with different numbers are different. -/
theorem reach_eq_length_tour (cursor : Cursor) :
    cursor.reach descends = (cursor.passed descends).length := by
  suffices hCard : (cursor.addresses descends).encard = (cursor.passed descends).length by
    rw [reach, Set.ncard, hCard, ENat.toNat_natCast]
  induction cursor using Cursor.induct with
  | h cursor ih =>
    rw [addresses_eq, passed_eq]
    split
    · have hOwn : [] ∉ branches descends cursor.namedChildren := by
        rintro ⟨i, child, rest, hEq, -⟩
        cases hEq
      rw [Set.encard_insert_of_notMem hOwn, encard_branches _ ih, List.length_cons]
      rfl
    · simp

/-- **A tour passes the nodes that have an address.**

**Proof sketch.** Induction on the cursor. An address is empty, and then it is that of the cursor
itself, or it starts with the number of a child, and the rest is an address from there. -/
theorem mem_tour_iff {cursor node : Cursor} :
    node ∈ cursor.passed descends ↔ ∃ address, cursor.at? descends address = some node := by
  induction cursor using Cursor.induct with
  | h cursor ih =>
    rw [passed_eq, List.mem_cons]
    constructor
    · rintro (rfl | hBelow)
      · exact ⟨[], rfl⟩
      · split at hBelow
        · next hDescends =>
          obtain ⟨child, hChild, hMem⟩ := List.mem_flatMap.1 hBelow
          obtain ⟨i, hNumber⟩ := List.mem_iff_getElem?.1 hChild
          obtain ⟨rest, hRest⟩ := (ih child hChild).1 hMem
          exact ⟨i :: rest, by simp [at?, hDescends, hNumber, hRest]⟩
        · cases hBelow
    · rintro ⟨address, hAddress⟩
      cases address with
      | nil => exact Or.inl (Option.some.inj hAddress).symm
      | cons i rest =>
        rw [at?] at hAddress
        split at hAddress
        · next hDescends =>
          obtain ⟨child, hNumber, hRest⟩ := Option.bind_eq_some_iff.1 hAddress
          have hChild := List.mem_of_getElem? hNumber
          rw [if_pos hDescends]
          exact Or.inr (List.mem_flatMap.2 ⟨child, hChild, (ih child hChild).2 ⟨rest, hRest⟩⟩)
        · cases hAddress

end Cursor

/-! ## The demand of a walk -/

/-- The number of nodes that are reached from a tree through constructs, itself included. -/
noncomputable def ParseTree.reach (tree : ParseTree) : Nat :=
  Cursor.reach (fun _ => true) ⟨tree, []⟩

/-- The scope that a step scans. -/
def Step.scope? : Step → Option ParseTree
  | .record _ => none
  | .scan _ scope => some scope

namespace Subject

variable (subject : Subject)

/-- The scopes that a walk scans, one for each scan. -/
def scopes (root : Cursor) : List ParseTree :=
  (subject.entered root).flatMap fun node => (subject.steps node).filterMap Step.scope?

/-- The number of nodes that a walk and its scans look at: those that the walk enters, and for each
scan those that are reached from its scope through constructs. -/
noncomputable def demand (root : Cursor) : Nat :=
  root.reach subject.descends + ((subject.scopes root).map ParseTree.reach).sum

/-- Steps look at the nodes of the scopes that they scan. -/
private lemma sum_scanned (steps : List Step) :
    (steps.map Step.scanned).sum = ((steps.filterMap Step.scope?).map ParseTree.reach).sum := by
  induction steps with
  | nil => rfl
  | cons step rest ih =>
    cases step with
    | record fact => simpa [List.filterMap_cons, Step.scanned, Step.scope?] using ih
    | scan caller scope =>
      have hScope : Step.scanned (.scan caller scope) = scope.reach :=
        (Cursor.reach_eq_length_tour _).symm
      simp [Step.scope?, hScope, ih]

/-- **What a walk counts is its demand.**

**Proof sketch.** The demand adds up the nodes that are entered and what is reached in their scopes.
Both can be added node by node, and so counted they are the costs of the nodes. -/
theorem demand_eq_cost (root : Cursor) : subject.demand root = subject.cost root := by
  have hScans : ((subject.scopes root).map ParseTree.reach).sum =
      ((subject.entered root).map fun node => ((subject.steps node).map Step.scanned).sum).sum := by
    rw [scopes, List.map_flatMap, List.flatMap_def, List.sum_flatten, List.map_map]
    congr 1
    refine List.map_congr_left fun node _ => ?_
    exact (sum_scanned _).symm
  have hEntered : root.reach subject.descends = (subject.entered root).length :=
    Cursor.reach_eq_length_tour root
  rw [demand, hScans, hEntered, cost]
  generalize subject.entered root = nodes
  induction nodes with
  | nil => rfl
  | cons node rest ih =>
    simp only [List.map_cons, List.sum_cons, List.length_cons, nodeCost] at ih ⊢
    omega

end Subject

/-! ## The limit of an extraction -/

namespace Extractor

/-- What is extracted from a file with a tree if no limit stands in the way: the first occurrences
of what a visit of the tree takes down, or the module alone if the text is not looked into. -/
def unlimited (language : Language) (file : SourceFile) (chunkId : Option String)
    (tree : ParseTree) : Extraction :=
  let fileModule := Entity.ofFile file.path file.content chunkId
  if Text.allBlank file.content ∨ Text.looksBinary file.content then .ofModule fileModule
  else .firstOccurrences (.entity fileModule ::
    Subject.visit ⟨language, file.path, file.content, chunkId⟩ ⟨tree, []⟩)

/-- The extraction of a file from its tree: what a visit takes down if the limit grants the demand,
and the module alone if it does not. -/
lemma fromTree_ok (limits : ExtractionLimits) (language : Language) (file : SourceFile)
    (chunkId : Option String) (root : ParseTree) :
    fromTree limits language file chunkId (.ok root) =
      if Subject.demand ⟨language, file.path, file.content, chunkId⟩ ⟨root, []⟩ ≤ limits.maxNodes
      then .ofFacts (.entity (Entity.ofFile file.path file.content chunkId) ::
        Subject.visit ⟨language, file.path, file.content, chunkId⟩ ⟨root, []⟩)
      else .ofModule (Entity.ofFile file.path file.content chunkId) := by
  rw [Subject.demand_eq_cost]
  split
  · next hGranted => exact fromTree_eq_ofFacts file hGranted
  · next hShort =>
    unfold fromTree ofTree
    dsimp only
    rw [Subject.extraction_eq, if_neg hShort]
    by_cases hEmpty : root.children.isEmpty
    · rw [if_pos hEmpty]
    · rw [if_neg hEmpty]

/-- **The demand is a sharp threshold.** Let a file have a language and a tree, at hand or by
parsing. With a limit that grants the nodes that the walk and its scans look at, the extraction is
the one without limit, whatever the limit is. With any smaller limit the module of the file is left
alone, without relations.

**Proof sketch.** The walk counts what its stack still costs and fails as soon as the limit does not
grant it, wherever it is. The cost of the stack that holds the root alone is the demand. -/
theorem extraction_extract_eq_ite_demand (pool : ParserPool) (grammars : Grammars)
    (file : SourceFile) (chunkId : Option String) (language : Language) (tree : ParseTree)
    (hDetect : pool.provider.detect file.path = some language)
    (hTree : (pool.treeOf grammars language file.content file.tree?).result = .ok tree) :
    ∀ limit : Nat, (extract ⟨⟨limit⟩, pool⟩ grammars file chunkId).extraction =
      if Subject.demand ⟨language, file.path, file.content, chunkId⟩ ⟨tree, []⟩ ≤ limit then
        unlimited language file chunkId tree
      else ⟨[Entity.ofFile file.path file.content chunkId], []⟩ := by
  intro limit
  rw [extraction_extract_eq, unlimited]
  by_cases hSkipped : Text.allBlank file.content ∨ Text.looksBinary file.content
  · rw [if_pos hSkipped, if_pos hSkipped, Extraction.ofModule, ite_self]
  · rw [if_neg hSkipped, if_neg hSkipped]
    simp only [hDetect, hTree]
    rw [fromTree_ok, Extraction.ofFacts_eq, Extraction.ofModule]

end Extractor

/-! ## A function in a function -/

namespace NestedFunction

/-- The text of the file. -/
def text : String := "function f() \x7b function g() \x7b h() \x7d \x7d\n"

/-- The declaration of a function without parameters that has one statement, from byte to byte. -/
def declaration (start stop : Nat) (statement : ParseTree) : ParseTree :=
  .node ⟨"function_declaration", true, none, start, stop, 0, 0⟩
    [.node ⟨"function", false, none, start, start + 8, 0, 0⟩ [],
     .node ⟨"identifier", true, some "name", start + 9, start + 10, 0, 0⟩ [],
     .node ⟨"formal_parameters", true, some "parameters", start + 10, start + 12, 0, 0⟩ [],
     .node ⟨"statement_block", true, some "body", start + 13, stop, 0, 0⟩ [statement]]

/-- The statement of the inner function, which is a call. -/
def call : ParseTree :=
  .node ⟨"expression_statement", true, none, 30, 33, 0, 0⟩
    [.node ⟨"call_expression", true, none, 30, 33, 0, 0⟩
      [.node ⟨"identifier", true, some "function", 30, 31, 0, 0⟩ [],
       .node ⟨"arguments", true, some "arguments", 31, 33, 0, 0⟩ []]]

/-- The program. -/
def program : ParseTree :=
  .node ⟨"program", true, none, 0, 38, 0, 1⟩ [declaration 0 37 (declaration 15 35 call)]

/-- The file, with its tree at hand. -/
def file : SourceFile := ⟨"a.js", text, some program⟩

/-- The parsers, none of them built. -/
def pool : ParserPool := { provider := .bundled }

/-- What is extracted from the file with a limit. -/
def extraction (limit : Nat) : Extraction :=
  (Extractor.extract ⟨⟨limit⟩, pool⟩ (fun _ _ => none) file none).extraction

/-- The walk enters 13 nodes, and the scans of the outer and the inner function look at 9 and 5.
With a limit of 27 both functions and their calls are extracted, and with a limit of 26 there is the
module alone. -/
theorem extraction_nested :
    pool.provider.detect file.path = some .javascript ∧
    (pool.treeOf (fun _ _ => none) .javascript file.content file.tree?).result = .ok program ∧
    Subject.demand ⟨.javascript, file.path, file.content, none⟩ ⟨program, []⟩ = 27 ∧
    (extraction 27).relations.map Relation.key =
      [("a.js", "a.js#f", .contains), ("a.js#f", "h", .calls), ("a.js", "a.js#g", .contains),
       ("a.js#g", "h", .calls)] ∧
    extraction 26 = ⟨[.ofFile file.path file.content none], []⟩ := by
  have hDetect : pool.provider.detect file.path = some .javascript := by decide +kernel
  have hDemand :
      Subject.demand ⟨.javascript, file.path, file.content, none⟩ ⟨program, []⟩ = 27 := by
    rw [Subject.demand_eq_cost]
    decide +kernel
  have hThreshold := Extractor.extraction_extract_eq_ite_demand pool (fun _ _ => none) file none
    .javascript program hDetect rfl
  refine ⟨hDetect, rfl, hDemand, ?_, ?_⟩
  · rw [extraction, hThreshold, if_pos (Nat.le_of_eq hDemand)]
    decide +kernel
  · rw [extraction, hThreshold, if_neg (by rw [hDemand]; decide)]

end NestedFunction

end CodeAtlas
