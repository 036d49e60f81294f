import Mathlib.Algebra.GroupWithZero.Nat
import CodeAtlas.Proofs.Grounding

/-!
# The walk as a recursion

The walk works off a stack of frames and gives up when it has counted too many nodes. Here it is
compared with a recursion over the tree that knows neither stack nor limit: visit a node, then what
is below it, then announce the name that it exports.

## Main definitions

* `CodeAtlas.Cursor.tour` — a tree told from the root down: what is said when a node is entered,
  then the nodes below it, then what is said when it is left.
* `CodeAtlas.Cursor.passed` — the nodes that a tour passes.
* `CodeAtlas.Subject.visit` — the facts of a tree, by recursion.
* `CodeAtlas.Cursor.nodes` — the constructs of a tree, by recursion.
* `CodeAtlas.Subject.entered`, `cost` — the nodes that the recursion enters, and the number of nodes
  that it enters or scans.
* `CodeAtlas.Progress.advance` — counts nodes and records facts, all at once.

## Main results

* `CodeAtlas.ParseTree.constructs_eq` — a scan looks at what a recursion goes through.
* `CodeAtlas.Subject.walk_eq_advance` — a walk counts what its stack still costs and records what
  its stack still owes.
* `CodeAtlas.Subject.extraction_eq` — when the extraction of a tree succeeds, and what it gives.
* `CodeAtlas.Extraction.ofFacts_eq` — facts are collected by their first occurrences.
* `CodeAtlas.Subject.walk_eq_visit` — within its limit the walk is the recursion.
-/

set_option autoImplicit false

namespace CodeAtlas

/-! ## Tours of a tree -/

namespace Cursor

section

variable {α : Type} (descends : Cursor → Bool) (enter leave : Cursor → List α)

mutual

/-- A tour of a tree that has the given trees around it. -/
def tourTree (ancestors : List ParseTree) : ParseTree → List α
  | .node info children =>
    let cursor : Cursor := ⟨.node info children, ancestors⟩
    enter cursor ++
      (if descends cursor then tourTrees (.node info children :: ancestors) children else []) ++
      leave cursor

/-- A tour of the constructs among several trees, from left to right. -/
def tourTrees (ancestors : List ParseTree) : List ParseTree → List α
  | [] => []
  | tree :: rest =>
    (if tree.info.named then tourTree ancestors tree else []) ++ tourTrees ancestors rest

end

/-- A tour of the tree at a cursor. -/
def tour (cursor : Cursor) : List α :=
  tourTree descends enter leave cursor.ancestors cursor.tree

/-- The tours of several trees, one after the other. -/
private lemma tourTrees_eq (ancestors trees : List ParseTree) :
    tourTrees descends enter leave ancestors trees =
      (trees.filter (·.info.named)).flatMap fun tree =>
        tour descends enter leave ⟨tree, ancestors⟩ := by
  induction trees with
  | nil => rfl
  | cons tree rest ih =>
    rw [tourTrees, ih]
    by_cases hNamed : tree.info.named <;> simp [hNamed, tour]

/-- **A tour, node by node.** -/
theorem tour_eq (cursor : Cursor) :
    tour descends enter leave cursor =
      enter cursor ++
        (if descends cursor then cursor.namedChildren.flatMap (tour descends enter leave)
          else []) ++
        leave cursor := by
  obtain ⟨⟨info, children⟩, ancestors⟩ := cursor
  rw [tour, tourTree, tourTrees_eq, namedChildren, List.flatMap_map]
  rfl

/-- The nodes that a tour passes, in this order. -/
abbrev passed (cursor : Cursor) : List Cursor :=
  cursor.tour descends (fun node => [node]) fun _ => []

/-- A node is passed first, then what is below it. -/
lemma passed_eq (cursor : Cursor) : cursor.passed descends =
    cursor :: if descends cursor then cursor.namedChildren.flatMap (passed descends) else [] := by
  rw [passed, tour_eq, List.append_nil]
  rfl

end

/-- The constructs of a tree, a parent before its children, each with the way down to it. -/
def nodes (cursor : Cursor) : List Cursor :=
  cursor.tour (fun _ => true) (fun node => [node]) fun _ => []

/-- The root comes first, then the constructs below it. -/
lemma nodes_eq (cursor : Cursor) :
    cursor.nodes = cursor :: cursor.namedChildren.flatMap nodes :=
  passed_eq (fun _ => true) cursor

end Cursor

namespace ParseTree

/-- Trees that wait are gone through as a recursion goes through them. -/
private lemma traverse_map_tree (cursors : List Cursor) (seen : List ParseTree) :
    traverse (cursors.map Cursor.tree) seen =
      ((cursors.flatMap Cursor.nodes).map Cursor.tree).reverse ++ seen := by
  induction hWaiting : cursors.map Cursor.tree, seen using traverse.induct generalizing cursors with
  | case1 seen =>
    rw [List.map_eq_nil_iff.1 hWaiting, traverse]
    rfl
  | case2 tree rest seen ih =>
    obtain ⟨cursor, others, rfl, rfl, rfl⟩ := List.map_eq_cons_iff.1 hWaiting
    rw [traverse]
    have hBelow := ih (cursor.namedChildren ++ others)
      (by rw [List.map_append, Cursor.map_tree_namedChildren])
    rw [hBelow, List.flatMap_append, List.flatMap_cons, Cursor.nodes_eq cursor]
    simp

/-- The constructs that a scan looks at are those of the recursion. -/
theorem constructs_eq (tree : ParseTree) (ancestors : List ParseTree) :
    tree.constructs = (Cursor.nodes ⟨tree, ancestors⟩).map Cursor.tree := by
  have hAlone := traverse_map_tree [⟨tree, ancestors⟩] []
  rw [List.map_singleton, List.append_nil, List.flatMap_singleton] at hAlone
  rw [constructs, hAlone, List.reverse_reverse]

end ParseTree

namespace Subject

variable (subject : Subject)

/-- The record of the name that a node exports, if it exports one. -/
def exportFacts (cursor : Cursor) : List Fact :=
  (subject.exportedName? cursor).toList.map subject.exportFact

/-- The facts of a tree: those of its root, those of the constructs below it from left to right if
the root lets them be seen, and the name that the root exports. -/
def visit (cursor : Cursor) : List Fact :=
  cursor.tour subject.descends subject.contribution subject.exportFacts

/-- The nodes that are entered when a tree is visited, in this order. -/
def entered (cursor : Cursor) : List Cursor :=
  cursor.tour subject.descends (fun node => [node]) fun _ => []

/-- The facts of what is below a node. -/
def visitBelow (cursor : Cursor) : List Fact :=
  if subject.descends cursor then cursor.namedChildren.flatMap subject.visit else []

/-- The facts of a tree, in three parts. -/
lemma visit_eq (cursor : Cursor) : subject.visit cursor =
    subject.contribution cursor ++ subject.visitBelow cursor ++ subject.exportFacts cursor :=
  Cursor.tour_eq _ _ _ cursor

/-- The root is entered first, then what is below it. -/
lemma entered_eq (cursor : Cursor) : subject.entered cursor =
    cursor :: if subject.descends cursor then cursor.namedChildren.flatMap subject.entered
      else [] :=
  Cursor.passed_eq subject.descends cursor

end Subject

/-- The number of nodes that a step looks at. -/
def Step.scanned : Step → Nat
  | .record _ => 0
  | .scan _ scope => (Cursor.nodes ⟨scope, []⟩).length

namespace Subject

variable (subject : Subject)

/-- The number of nodes that are counted at a node: itself, and those that its steps look at. -/
def nodeCost (cursor : Cursor) : Nat := 1 + ((subject.steps cursor).map Step.scanned).sum

/-- The number of nodes that are counted when a tree is visited. -/
def cost (cursor : Cursor) : Nat := ((subject.entered cursor).map subject.nodeCost).sum

/-- The cost of a tree is that of its root and of what is below it. -/
lemma cost_eq (cursor : Cursor) : subject.cost cursor = subject.nodeCost cursor +
    if subject.descends cursor then (cursor.namedChildren.map subject.cost).sum else 0 := by
  rw [cost, entered_eq, List.map_cons, List.sum_cons]
  split
  · rw [List.map_flatMap, List.flatMap_def, List.sum_flatten, List.map_map]
    rfl
  · rfl

end Subject

/-! ## Counting and recording -/

namespace Progress

/-- Counts nodes, which must not exceed the limit, and records facts in order. -/
def advance (progress : Progress) (limit nodes : Nat) (facts : List Fact) :
    Except GraphError Progress :=
  if progress.visited + nodes ≤ limit then
    .ok ⟨progress.visited + nodes, facts.reverse ++ progress.facts⟩
  else .error (.traversalBudget limit)

/-- Within the limit facts are recorded without counting. -/
lemma advance_zero {progress : Progress} {limit : Nat} (h : progress.visited ≤ limit)
    (facts : List Fact) : progress.advance limit 0 facts =
      .ok { progress with facts := facts.reverse ++ progress.facts } := by
  unfold advance
  exact if_pos h

/-- Whoever advances stays within the limit. -/
private lemma visited_le_of_advance {progress after : Progress} {limit nodes : Nat}
    {facts : List Fact} (h : progress.advance limit nodes facts = .ok after) :
    after.visited ≤ limit := by
  unfold advance at h
  split at h
  · next hLe =>
    cases h
    exact hLe
  · cases h

/-- To advance twice is to advance by both together. -/
lemma advance_bind (progress : Progress) (limit nodes more : Nat) (facts others : List Fact) :
    (progress.advance limit nodes facts >>= fun after => after.advance limit more others) =
      progress.advance limit (nodes + more) (facts ++ others) := by
  unfold advance
  by_cases hFirst : progress.visited + nodes ≤ limit
  · rw [if_pos hFirst]
    show (if progress.visited + nodes + more ≤ limit then _ else _) = _
    rw [Nat.add_assoc, List.reverse_append, List.append_assoc]
  · have hBoth : ¬progress.visited + (nodes + more) ≤ limit := by omega
    rw [if_neg hFirst, if_neg hBoth]
    rfl

/-- What comes after an advance need only be known within the limit. -/
lemma advance_bind_congr {progress : Progress} {limit nodes : Nat} {facts : List Fact}
    {next other : Progress → Except GraphError Progress}
    (h : ∀ after : Progress, after.visited ≤ limit → next after = other after) :
    progress.advance limit nodes facts >>= next = progress.advance limit nodes facts >>= other := by
  cases hAdvance : progress.advance limit nodes facts with
  | error error => rfl
  | ok after => exact h after (visited_le_of_advance hAdvance)

end Progress

namespace Subject

variable (subject : Subject)

/-- A step counts what it scans and records its facts. -/
private lemma perform_eq_advance {limit : Nat} {progress : Progress} (h : progress.visited ≤ limit)
    (step : Step) : subject.perform limit progress step =
      progress.advance limit step.scanned (subject.factsOf step) := by
  cases step with
  | record fact => exact (Progress.advance_zero h [fact]).symm
  | scan caller scope =>
    rw [perform, Progress.count, Step.scanned, Progress.advance, scope.constructs_eq [],
      List.length_map]
    split
    · show Except.ok ((subject.callees scope).foldl _ _) = _
      rw [foldl_record fun callee => Fact.relation caller callee .calls]
      rfl
    · rfl

/-- Several steps count what they scan and record their facts. -/
private lemma foldlM_perform_eq_advance {limit : Nat} (steps : List Step) :
    ∀ {progress : Progress}, progress.visited ≤ limit →
      steps.foldlM (subject.perform limit) progress =
        progress.advance limit (steps.map Step.scanned).sum (steps.flatMap subject.factsOf) := by
  induction steps with
  | nil =>
    intro progress h
    exact (Progress.advance_zero h []).symm
  | cons step rest ih =>
    intro progress h
    rw [List.foldlM_cons, perform_eq_advance subject h, Progress.advance_bind_congr fun _ => ih,
      Progress.advance_bind, List.map_cons, List.sum_cons, List.flatMap_cons]

/-- What a frame still has to count. -/
def frameCost : Frame → Nat
  | .visit cursor => subject.cost cursor
  | .announce _ => 0

/-- What a frame still has to record. -/
def frameFacts : Frame → List Fact
  | .visit cursor => subject.visit cursor
  | .announce name => [subject.exportFact name]

/-- What the frames that a visit makes way for have to count. -/
private lemma sum_frameCost_below (cursor : Cursor) :
    ((subject.visitsBelow cursor ++ subject.announcement cursor).map subject.frameCost).sum =
      if subject.descends cursor then (cursor.namedChildren.map subject.cost).sum else 0 := by
  have hAnnouncement : ((subject.announcement cursor).map subject.frameCost).sum = 0 := by
    unfold announcement
    cases subject.exportedName? cursor <;> rfl
  rw [List.map_append, List.sum_append, hAnnouncement, Nat.add_zero, visitsBelow]
  split
  · rw [List.map_map]
    rfl
  · rfl

/-- What the frames that a visit makes way for have to record. -/
private lemma flatMap_frameFacts_below (cursor : Cursor) :
    (subject.visitsBelow cursor ++ subject.announcement cursor).flatMap subject.frameFacts =
      subject.visitBelow cursor ++ subject.exportFacts cursor := by
  have hAnnouncement : (subject.announcement cursor).flatMap subject.frameFacts =
      subject.exportFacts cursor := by
    unfold announcement exportFacts
    cases subject.exportedName? cursor <;> rfl
  rw [List.flatMap_append, hAnnouncement, visitsBelow, visitBelow]
  split
  · rw [List.flatMap_map]
    rfl
  · rfl

/-- **A walk counts what its stack still costs and records what its stack still owes.**

**Proof sketch.** Induction over the walk. A visit counts and records what belongs to its node, and
leaves to the frames it makes way for what belongs to the nodes below and the exported name. -/
theorem walk_eq_advance {limit : Nat} (frames : List Frame) (progress : Progress)
    (h : progress.visited ≤ limit) : subject.walk limit frames progress =
      progress.advance limit (frames.map subject.frameCost).sum
        (frames.flatMap subject.frameFacts) := by
  induction frames, progress using Subject.walk.induct subject with
  | case1 progress =>
    rw [walk]
    exact (Progress.advance_zero h []).symm
  | case2 name rest progress ih =>
    rw [walk, ih h, List.map_cons, List.sum_cons, List.flatMap_cons, frameCost, frameFacts,
      ← Progress.advance_bind, Progress.advance_zero h]
    rfl
  | case3 cursor rest progress ih =>
    set below := subject.visitsBelow cursor ++ subject.announcement cursor with hBelow
    -- the steps of the node, then the frames that it makes way for and the rest of the stack
    have hLater : ∀ after : Progress, after.visited ≤ limit →
        ((subject.steps cursor).foldlM (subject.perform limit) after >>=
            subject.walk limit (below ++ rest)) =
          after.advance limit
            (((subject.steps cursor).map Step.scanned).sum +
              ((below ++ rest).map subject.frameCost).sum)
            (subject.contribution cursor ++ (below ++ rest).flatMap subject.frameFacts) := by
      intro after hAfter
      rw [subject.foldlM_perform_eq_advance _ hAfter, Progress.advance_bind_congr ih,
        Progress.advance_bind]
      rfl
    have hCost : 1 + (((subject.steps cursor).map Step.scanned).sum +
        ((below ++ rest).map subject.frameCost).sum) =
          (((Frame.visit cursor) :: rest).map subject.frameCost).sum := by
      rw [List.map_append, List.sum_append, hBelow, sum_frameCost_below, List.map_cons,
        List.sum_cons, frameCost, cost_eq, nodeCost]
      omega
    have hFacts : subject.contribution cursor ++ (below ++ rest).flatMap subject.frameFacts =
        ((Frame.visit cursor) :: rest).flatMap subject.frameFacts := by
      rw [List.flatMap_append, hBelow, flatMap_frameFacts_below, List.flatMap_cons, frameFacts,
        visit_eq]
      simp only [List.append_assoc]
    have hCount : progress.count limit 1 = progress.advance limit 1 [] := rfl
    rw [walk, hCount, Progress.advance_bind_congr hLater, Progress.advance_bind, hCost,
      List.nil_append, hFacts]

/-- **The extraction of a tree** succeeds if the tree has something below its root and its cost is
within the limit, and collects the module and what visiting the tree gives.

**Proof sketch.** The walk over the frame of the root counts its cost and collects its facts, behind
the module (`walk_eq_advance`). It collects them backwards, and what is put together is their
reverse. -/
theorem extraction_eq (limits : ExtractionLimits) (fileModule : Entity) (root : ParseTree) :
    subject.extraction limits fileModule root =
      if root.children.isEmpty then .error .emptyTree
      else if subject.cost ⟨root, []⟩ ≤ limits.maxNodes then
        .ok (.ofFacts (.entity fileModule :: subject.visit ⟨root, []⟩))
      else .error (.traversalBudget limits.maxNodes) := by
  unfold extraction
  split
  · rfl
  · dsimp only
    rw [walk_eq_advance subject _ _ (Nat.zero_le _), Progress.advance, Nat.zero_add]
    simp only [List.map_cons, List.map_nil, List.sum_cons, List.sum_nil, Nat.add_zero,
      List.flatMap_cons, List.flatMap_nil, List.append_nil, frameCost, frameFacts]
    split
    · show Except.ok (Extraction.ofFacts (_ ++ [_]).reverse) = _
      rw [List.reverse_append, List.reverse_reverse]
      rfl
    · rfl

/-! ## What is entered -/

end Subject

/-- **Induction over a tree.** What holds of a node if it holds of the constructs right below it
holds of every node. -/
theorem Cursor.induct {P : Cursor → Prop}
    (h : ∀ cursor : Cursor, (∀ child ∈ cursor.namedChildren, P child) → P cursor)
    (cursor : Cursor) : P cursor := by
  induction hSize : cursor.tree.size using Nat.strongRecOn generalizing cursor with
  | ind size ih =>
    refine h cursor fun child hChild => ih child.tree.size ?_ child rfl
    have hMem : child.tree ∈ cursor.namedChildren.map Cursor.tree := List.mem_map_of_mem hChild
    rw [← hSize]
    exact Nat.lt_of_le_of_lt (ParseTree.size_le_of_mem hMem) cursor.sizeAll_namedChildren_lt

namespace Subject

variable {subject : Subject}

/-- A node is entered from the root: it is the root, or it is entered from a node right below. -/
lemma mem_entered_iff {root cursor : Cursor} : cursor ∈ subject.entered root ↔
    cursor = root ∨ subject.descends root ∧
      ∃ child ∈ root.namedChildren, cursor ∈ subject.entered child := by
  rw [entered_eq, List.mem_cons]
  split
  · next hDescends => simp [hDescends]
  · next hDescends => simp [hDescends]

/-- The facts of a node that is entered are told without a break. -/
lemma exists_visit_eq_of_mem_entered {root cursor : Cursor} (h : cursor ∈ subject.entered root) :
    ∃ earlier later, subject.visit root = earlier ++ subject.visit cursor ++ later := by
  induction root using Cursor.induct with
  | h root ih =>
    rcases mem_entered_iff.1 h with rfl | ⟨hDescends, child, hChild, hMem⟩
    · exact ⟨[], [], by simp⟩
    · obtain ⟨earlier, later, hVisit⟩ := ih child hChild hMem
      obtain ⟨before, after, hSplit⟩ := List.append_of_mem hChild
      refine ⟨subject.contribution root ++ before.flatMap subject.visit ++ earlier,
        later ++ after.flatMap subject.visit ++ subject.exportFacts root, ?_⟩
      rw [visit_eq, visitBelow, if_pos hDescends, hSplit, List.flatMap_append, List.flatMap_cons,
        hVisit]
      simp only [List.append_assoc]

/-- A fact of a tree is contributed by a node that is entered, or is the name that it exports. -/
lemma mem_visit_iff {root : Cursor} {fact : Fact} : fact ∈ subject.visit root ↔
    ∃ node ∈ subject.entered root,
      fact ∈ subject.contribution node ∨ fact ∈ subject.exportFacts node := by
  constructor
  · intro hMem
    induction root using Cursor.induct with
    | h root ih =>
      rw [visit_eq, List.mem_append, List.mem_append] at hMem
      rcases hMem with (hMem | hMem) | hMem
      · exact ⟨root, mem_entered_iff.2 (Or.inl rfl), Or.inl hMem⟩
      · unfold visitBelow at hMem
        split at hMem
        · next hDescends =>
          obtain ⟨child, hChild, hMem⟩ := List.mem_flatMap.1 hMem
          obtain ⟨node, hNode, hFact⟩ := ih child hChild hMem
          exact ⟨node, mem_entered_iff.2 (Or.inr ⟨hDescends, child, hChild, hNode⟩), hFact⟩
        · cases hMem
      · exact ⟨root, mem_entered_iff.2 (Or.inl rfl), Or.inr hMem⟩
  · rintro ⟨node, hNode, hFact⟩
    obtain ⟨earlier, later, hVisit⟩ := exists_visit_eq_of_mem_entered hNode
    rw [hVisit, visit_eq]
    rcases hFact with hFact | hFact <;> simp [hFact]

end Subject

/-! ## First occurrences -/

/-- The entity that a fact is. -/
def Fact.entity? : Fact → Option Entity
  | .entity found => some found
  | .relation _ _ _ => none

/-- The relation that a fact is. -/
def Fact.relation? : Fact → Option Relation
  | .entity _ => none
  | .relation source target kind => some { sourceId := source, targetId := target, kind }

namespace Extraction

/-- The entities and relations among facts, each identifier and each relation where it occurs
first. -/
def firstOccurrences (facts : List Fact) : Extraction where
  entities := (facts.filterMap Fact.entity?).eraseDupsBy fun later first => first.id == later.id
  relations :=
    (facts.filterMap Fact.relation?).eraseDupsBy fun later first => first.key == later.key

/-- **Facts are collected by their first occurrences.**

**Proof sketch.** Stated for facts that are put to any extraction, with what it holds as what has
been seen. Induction on the facts: one of which the identifier or the key is there is left out on
both sides. -/
theorem ofFacts_eq (facts : List Fact) : ofFacts facts = firstOccurrences facts := by
  suffices hAll : ∀ extraction : Extraction, facts.foldl insert extraction =
      ⟨List.eraseDupsBy.loop (fun later first => first.id == later.id)
        (facts.filterMap Fact.entity?) extraction.entities.reverse,
       List.eraseDupsBy.loop (fun later first => first.key == later.key)
        (facts.filterMap Fact.relation?) extraction.relations.reverse⟩ from hAll ⟨[], []⟩
  induction facts with
  | nil =>
    intro extraction
    simp [List.eraseDupsBy.loop]
  | cons fact rest ih =>
    intro extraction
    rw [List.foldl_cons, ih]
    cases fact with
    | entity found =>
      rw [List.filterMap_cons_some (show Fact.entity? (.entity found) = some found from rfl),
        List.filterMap_cons_none (show Fact.relation? (.entity found) = none from rfl),
        List.eraseDupsBy.loop, List.any_reverse, insert]
      cases extraction.entities.any (·.id == found.id) <;> simp
    | relation source target kind =>
      rw [List.filterMap_cons_none
          (show Fact.entity? (.relation source target kind) = none from rfl),
        List.filterMap_cons_some (show Fact.relation? (.relation source target kind) =
          some { sourceId := source, targetId := target, kind } from rfl),
        List.eraseDupsBy.loop, List.any_reverse, insert]
      have hKey : Relation.key { sourceId := source, targetId := target, kind } =
          (source, target, kind) := rfl
      rw [hKey]
      cases extraction.relations.any (·.key == (source, target, kind)) <;> simp

end Extraction

/-! ## The walk and the recursion -/

namespace Subject

/-- The walk passes over what is below an import and below a type alias, and over nothing else. -/
private lemma descends_iff {subject : Subject} {cursor : Cursor} : subject.descends cursor ↔
    ¬(subject.category? cursor = some .importing ∨ subject.category? cursor = some .typeAlias) := by
  unfold descends
  cases subject.category? cursor with
  | none => simp
  | some category => cases category <;> simp [Category.descends]

/-- The name that a statement exports is told after all that is in the statement, and before what
the statements behind it tell. -/
private lemma exists_visit_eq_of_namedChildren_eq {subject : Subject}
    {root parent statement : Cursor} {before after : List Cursor}
    (hParent : parent ∈ subject.entered root) (hDescends : subject.descends parent)
    (hSplit : parent.namedChildren = before ++ statement :: after) :
    ∃ earlier later, subject.visit root = earlier ++
      (subject.contribution statement ++ subject.visitBelow statement) ++
      subject.exportFacts statement ++ after.flatMap subject.visit ++ later := by
  obtain ⟨earlier, later, hVisit⟩ := exists_visit_eq_of_mem_entered hParent
  refine ⟨earlier ++ subject.contribution parent ++ before.flatMap subject.visit,
    subject.exportFacts parent ++ later, ?_⟩
  rw [hVisit, visit_eq subject parent, visitBelow, if_pos hDescends, hSplit, List.flatMap_append,
    List.flatMap_cons, visit_eq subject statement]
  simp only [List.append_assoc]

/-- **Within its limit the walk is the recursion.** To visit a node is to take down what the node
contributes, then to visit the constructs right below it from left to right unless it is an import
or a type alias, then to announce the name that it exports, if any. When the limit allows for all
nodes that this enters and scans, the walk ends well, and the entities and relations that it gives
are the first occurrences in what the recursion takes down, the module of the file first. So the
name that a statement exports comes after all that is in the statement and before what comes of the
statements behind it.

**Proof sketch.** The walk records what its stack owes, and the stack that holds the root alone owes
what a visit of the root takes down. A node that is entered takes down its part without a break. -/
theorem walk_eq_visit (subject : Subject) (limits : ExtractionLimits) (fileModule : Entity)
    (root : ParseTree) (hCost : subject.cost ⟨root, []⟩ ≤ limits.maxNodes) :
    (∀ cursor, subject.visit cursor = subject.contribution cursor ++
      (if subject.category? cursor = some .importing ∨ subject.category? cursor = some .typeAlias
        then [] else cursor.namedChildren.flatMap subject.visit) ++
      (subject.exportedName? cursor).toList.map subject.exportFact) ∧
    (∃ progress,
      subject.walk limits.maxNodes [.visit ⟨root, []⟩] { facts := [.entity fileModule] } =
        .ok progress ∧
      Extraction.ofFacts progress.facts.reverse =
        .firstOccurrences (.entity fileModule :: subject.visit ⟨root, []⟩)) ∧
    (root.children ≠ [] → subject.extraction limits fileModule root =
      .ok (.firstOccurrences (.entity fileModule :: subject.visit ⟨root, []⟩))) ∧
    (∀ parent ∈ subject.entered ⟨root, []⟩, subject.descends parent →
      ∀ before statement after, parent.namedChildren = before ++ statement :: after →
        ∃ earlier later, subject.visit ⟨root, []⟩ = earlier ++
          (subject.contribution statement ++ subject.visitBelow statement) ++
          subject.exportFacts statement ++ after.flatMap subject.visit ++ later) := by
  refine ⟨fun cursor => ?_, ?_, fun hRoot => ?_, ?_⟩
  · rw [visit_eq, visitBelow, exportFacts]
    by_cases hDescends : subject.descends cursor
    · rw [if_pos hDescends, if_neg (descends_iff.1 hDescends)]
    · rw [if_neg hDescends, if_pos (not_not.1 (mt descends_iff.2 hDescends))]
  · refine ⟨⟨subject.cost ⟨root, []⟩, (subject.visit ⟨root, []⟩).reverse ++ [.entity fileModule]⟩,
      ?_, ?_⟩
    · rw [walk_eq_advance subject _ _ (Nat.zero_le _), Progress.advance]
      simp [frameCost, frameFacts, hCost]
    · simp [Extraction.ofFacts_eq]
  · rw [extraction_eq, if_neg (by simpa using hRoot), if_pos hCost, Extraction.ofFacts_eq]
  · exact fun parent hParent hDescends before statement after =>
      exists_visit_eq_of_namedChildren_eq hParent hDescends

end Subject

/-! ## An exported class before another one -/

namespace ExportedClass

/-- The text of the file. -/
def text : String := "export class A {}\nclass B {}\n"

/-- The declaration of a class with an empty body, at a byte and a row. -/
def declaration (field : Option String) (start row : Nat) : ParseTree :=
  .node ⟨"class_declaration", true, field, start, start + 10, row, row⟩
    [.node ⟨"class", false, none, start, start + 5, row, row⟩ [],
     .node ⟨"identifier", true, some "name", start + 6, start + 7, row, row⟩ [],
     .node ⟨"class_body", true, some "body", start + 8, start + 10, row, row⟩ []]

/-- The statement that exports the first class. -/
def exportStatement : ParseTree :=
  .node ⟨"export_statement", true, none, 0, 17, 0, 0⟩
    [.node ⟨"export", false, none, 0, 6, 0, 0⟩ [], declaration (some "declaration") 7 0]

/-- The program. -/
def program : ParseTree :=
  .node ⟨"program", true, none, 0, 29, 0, 2⟩ [exportStatement, declaration none 18 1]

/-- The file. -/
def subject : Subject := ⟨.javascript, "main.js", text, none⟩

/-- The export of `A` comes after `A` itself, which is found inside of the statement that exports,
and before `B`. -/
theorem relations_program :
    subject.cost ⟨program, []⟩ ≤ 500000 ∧
    ∃ extraction, subject.extraction {} (.ofFile "main.js" text none) program = .ok extraction ∧
      extraction.entities.map Entity.id = ["main.js", "main.js#A", "main.js#B"] ∧
      extraction.relations.map Relation.key =
        [("main.js", "main.js#A", .contains), ("main.js", "main.js#A", .exports),
         ("main.js", "main.js#B", .contains)] := by
  have hCost : subject.cost ⟨program, []⟩ ≤ 500000 := by decide +kernel
  obtain ⟨-, -, hExtraction, -⟩ :=
    subject.walk_eq_visit {} (.ofFile "main.js" text none) program hCost
  exact ⟨hCost, _, hExtraction (by simp [program, ParseTree.children]), by decide +kernel,
    by decide +kernel⟩

end ExportedClass

end CodeAtlas
