import CodeAtlas.Extract.Error
import CodeAtlas.Extract.Steps
import CodeAtlas.ParseTree.Preorder

/-!
# The walk

The extraction of a file walks its parse tree with an explicit stack, so that the depth of the
tree does not matter. It counts the nodes that it enters and those that its scans look at, and
gives up when they exceed the limit.

## Main definitions

* `CodeAtlas.Subject.callees` — the names called in a scope.
* `CodeAtlas.Progress` — the nodes counted and the facts recorded so far.
* `CodeAtlas.Frame` — what the stack holds: a node to be visited, or a name to be announced as
  exported once the node that exports it is done with.
* `CodeAtlas.Subject.walk` — the walk.
-/

set_option autoImplicit false

namespace CodeAtlas

/-- The nodes counted and the facts recorded so far. -/
structure Progress where
  /-- The number of nodes entered or looked at. -/
  visited : Nat := 0
  /-- The facts, newest first. -/
  facts : List Fact := []

namespace Progress

/-- One fact more. -/
def record (progress : Progress) (fact : Fact) : Progress :=
  { progress with facts := fact :: progress.facts }

/-- Counts nodes, which must not exceed the limit. -/
def count (progress : Progress) (limit nodes : Nat) : Except GraphError Progress :=
  if progress.visited + nodes ≤ limit then
    .ok { progress with visited := progress.visited + nodes }
  else .error (.traversalBudget limit)

end Progress

/-- What the stack of a walk holds. -/
inductive Frame where
  /-- A node to be visited. -/
  | visit (cursor : Cursor)
  /-- An exported name to be recorded. -/
  | announce (name : String)

namespace Frame

/-- The room that frames take: a visit makes way for the visits below it and an announcement. -/
def weight : List Frame → Nat
  | [] => 0
  | .visit cursor :: rest => 2 * cursor.tree.size + weight rest
  | .announce _ :: rest => 1 + weight rest

/-- The room of two lists of frames. -/
@[simp] theorem weight_append (frames more : List Frame) :
    weight (frames ++ more) = weight frames + weight more := by
  induction frames with
  | nil => simp [weight]
  | cons frame rest ih => cases frame <;> simp [weight, ih] <;> omega

/-- The room of visits. -/
@[simp] theorem weight_map_visit (cursors : List Cursor) :
    weight (cursors.map visit) = 2 * Cursor.sizeAll cursors := by
  induction cursors with
  | nil => simp [weight, Cursor.sizeAll, ParseTree.sizeAll]
  | cons cursor rest ih =>
    simp only [Cursor.sizeAll] at ih ⊢
    simp [weight, ih, ParseTree.sizeAll]
    omega

end Frame

namespace Subject

/-- The name that a node calls, if it is a call of a plain name. -/
def callee? (subject : Subject) (node : ParseTree) : Option String :=
  if node.kind = NodeKinds.call subject.language then do
    let called ← node.child? "function"
    if called.kind = "identifier" then called.text? subject.text else none
  else none

/-- The names called in a scope, in the order of the text. -/
def callees (subject : Subject) (scope : ParseTree) : List String :=
  scope.constructs.filterMap subject.callee?

/-- Carries out a step. A scan counts the nodes of its scope. -/
def perform (subject : Subject) (limit : Nat) (progress : Progress) :
    Step → Except GraphError Progress
  | .record fact => .ok (progress.record fact)
  | .scan caller scope => do
    let progress ← progress.count limit scope.constructs.length
    pure ((subject.callees scope).foldl
      (fun p callee => p.record (.relation caller callee .calls)) progress)

/-- The record of an exported name. -/
def exportFact (subject : Subject) (name : String) : Fact :=
  .relation subject.path (subject.symbolId name) .exports

/-- The announcement of the name that a node exports. -/
def announcement (subject : Subject) (cursor : Cursor) : List Frame :=
  (subject.exportedName? cursor).toList.map .announce

/-- The visits below a node. -/
def visitsBelow (subject : Subject) (cursor : Cursor) : List Frame :=
  if subject.descends cursor then cursor.namedChildren.map .visit else []

/-- A visit takes more room than what it makes way for. -/
private theorem weight_visitsBelow_announcement_lt (subject : Subject) (cursor : Cursor) :
    Frame.weight (subject.visitsBelow cursor ++ subject.announcement cursor) <
      2 * cursor.tree.size := by
  have hBelow : Frame.weight (subject.visitsBelow cursor) + 2 ≤ 2 * cursor.tree.size := by
    have := cursor.sizeAll_namedChildren_lt
    unfold visitsBelow
    split
    · rw [Frame.weight_map_visit]
      omega
    · simp only [Frame.weight]
      omega
  have hName : Frame.weight (subject.announcement cursor) ≤ 1 := by
    unfold announcement
    cases subject.exportedName? cursor <;> simp [Frame.weight]
  rw [Frame.weight_append]
  omega

/-- Works off a stack of frames, its top first. -/
def walk (subject : Subject) (limit : Nat) : List Frame → Progress → Except GraphError Progress
  | [], progress => .ok progress
  | .announce name :: rest, progress =>
    subject.walk limit rest (progress.record (subject.exportFact name))
  | .visit cursor :: rest, progress => do
    let progress ← progress.count limit 1
    let progress ← (subject.steps cursor).foldlM (subject.perform limit) progress
    subject.walk limit
      (subject.visitsBelow cursor ++ subject.announcement cursor ++ rest) progress
termination_by frames => Frame.weight frames
decreasing_by
  · simp [Frame.weight]
  · have := subject.weight_visitsBelow_announcement_lt cursor
    rw [Frame.weight_append]
    simp only [Frame.weight]
    omega

end Subject

end CodeAtlas
