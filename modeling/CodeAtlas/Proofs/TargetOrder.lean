import Mathlib.Data.List.Perm.Basic
import CodeAtlas.Proofs.Parts

/-!
# The regions of a fitting tree follow one another

A tree that a grammar makes of a text fits the text: its nodes cover slices, the children of a node
lie inside it, one behind the other. The targets of such a tree do not overlap, since no target is
looked for below another, and the regions of the text follow one another without overlap. Nodes
without any bytes are allowed for; such a target may stand at the first byte of another one.

## Main definitions

* `CodeAtlas.ParseTree.Fits` — a tree fits a text.
* `CodeAtlas.ParseTree.Apart` — two trees cover no byte together.
* `CodeAtlas.Region.Precedes` — a region lies before another, or the other has no bytes.

## Main results

* `CodeAtlas.ChunkTarget.pairwise_apart_collect` — the targets of a fitting tree lie apart.
* `CodeAtlas.Cutting.pairwise_precedes_regions` — the regions of a fitting tree precede one another.
-/

set_option autoImplicit false

namespace CodeAtlas

/-! ## Fitting trees -/

namespace ParseTree

/-- A tree fits a text: every node covers a slice of the text, and the children of a node lie inside
it, in order and without overlap. -/
inductive Fits (text : String) : ParseTree → Prop
  | node {info : NodeInfo} {children : List ParseTree}
      (slice : (Text.slice? text info.startByte info.endByte).isSome)
      (inside : ∀ child ∈ children,
        info.startByte ≤ child.startByte ∧ child.endByte ≤ info.endByte)
      (ordered : children.Pairwise fun a b => a.endByte ≤ b.startByte)
      (below : ∀ child ∈ children, Fits text child) : Fits text (.node info children)

/-- Two trees lie apart: one ends before the other starts. -/
def Apart (a b : ParseTree) : Prop := a.endByte ≤ b.startByte ∨ b.endByte ≤ a.startByte

/-- Lying apart does not depend on the order. -/
lemma Apart.symm {a b : ParseTree} (h : a.Apart b) : b.Apart a := Or.symm h

variable {text : String} {tree : ParseTree}

/-- A fitting tree does not end before it starts. -/
private lemma Fits.startByte_le_endByte (h : tree.Fits text) : tree.startByte ≤ tree.endByte := by
  obtain ⟨slice, -, -, -⟩ := h
  exact ((Text.slice?_isSome_iff _ _ _).1 slice).1

/-- The constructs below a fitting tree fit. -/
lemma Fits.of_mem_namedChildren (h : tree.Fits text) {child : ParseTree}
    (hChild : child ∈ tree.namedChildren) : child.Fits text := by
  obtain ⟨-, -, -, below⟩ := h
  exact below child (List.mem_of_mem_filter hChild)

/-- What lies apart from a fitting tree lies apart from the constructs below it. -/
private lemma Fits.apart_of_mem_namedChildren (h : tree.Fits text) {child other : ParseTree}
    (hChild : child ∈ tree.namedChildren) (hApart : tree.Apart other) : child.Apart other := by
  obtain ⟨-, inside, -, -⟩ := h
  obtain ⟨hStart, hEnd⟩ := inside child (List.mem_of_mem_filter hChild)
  rcases hApart with hBefore | hAfter
  · exact Or.inl (Nat.le_trans hEnd hBefore)
  · exact Or.inr (Nat.le_trans hAfter hStart)

/-- The constructs below a fitting tree lie apart. -/
private lemma Fits.pairwise_namedChildren (h : tree.Fits text) :
    tree.namedChildren.Pairwise Apart := by
  obtain ⟨-, -, ordered, -⟩ := h
  exact (ordered.sublist List.filter_sublist).imp Or.inl

end ParseTree

/-! ## Targets -/

namespace ChunkTarget

/-- The node of a target at a cursor is the tree of the cursor. -/
lemma node_of_of? {language : Language} {cursor : Cursor} {t : ChunkTarget}
    (h : of? language cursor = some t) : t.node = cursor.tree := by
  obtain ⟨⟨declaration, kind⟩, -, rfl⟩ := Option.map_eq_some_iff.1 h
  rfl

/-- What is passed over and what is found are together all constructs below. -/
lemma passed_append_found_perm (language : Language) (cursor : Cursor) :
    ((passed language cursor).map Cursor.tree ++ (found language cursor).map node).Perm
      cursor.tree.namedChildren := by
  have hFound : ∀ cursors : List Cursor, (cursors.filterMap (of? language)).map node =
      (cursors.filter fun child => !(of? language child).isNone).map Cursor.tree := by
    intro cursors
    induction cursors with
    | nil => rfl
    | cons child rest ih =>
      cases hTarget : of? language child with
      | none => simp [hTarget, ih]
      | some t => simp [hTarget, ih, node_of_of? hTarget]
  rw [passed, found, hFound, ← List.map_append, ← Cursor.map_tree_namedChildren]
  exact (List.filter_append_perm _ _).map _

/-- If all cursors that wait fit, so do those that wait at the next step. -/
lemma fits_of_mem_passed_append {text : String} {language : Language} {cursor : Cursor}
    {rest : List Cursor} (hFits : ∀ c ∈ cursor :: rest, c.tree.Fits text) :
    ∀ c ∈ passed language cursor ++ rest, c.tree.Fits text := by
  intro c hc
  rcases List.mem_append.1 hc with hPassed | hRest
  · exact (hFits cursor List.mem_cons_self).of_mem_namedChildren
      ((passed_append_found_perm language cursor).subset
        (List.mem_append_left _ (List.mem_map_of_mem hPassed)))
  · exact hFits c (List.mem_cons_of_mem _ hRest)

/-- Gathering keeps targets apart: what waits and what has been found lies apart at every step.

**Proof sketch.** Induction along the recursion. A cursor makes way for the constructs below it,
which lie inside it and apart from one another, and each of them waits or is a target. -/
private lemma pairwise_apart_gather {text : String} (language : Language) (waiting : List Cursor)
    (targets : List ChunkTarget) (hFits : ∀ cursor ∈ waiting, cursor.tree.Fits text)
    (hApart : (waiting.map Cursor.tree ++ targets.map node).Pairwise ParseTree.Apart) :
    ((gather language waiting targets).map node).Pairwise ParseTree.Apart := by
  fun_induction gather language waiting targets with
  | case1 targets => exact hApart
  | case2 cursor rest targets ih =>
    have hCursor := hFits cursor List.mem_cons_self
    refine ih (fits_of_mem_passed_append hFits) ?_
    rw [List.map_cons, List.cons_append, List.pairwise_cons] at hApart
    -- the constructs below the cursor, then all that was there before
    have hBelow : (cursor.tree.namedChildren ++
        (rest.map Cursor.tree ++ targets.map node)).Pairwise ParseTree.Apart := by
      refine List.pairwise_append.2 ⟨hCursor.pairwise_namedChildren, hApart.2, ?_⟩
      intro child hChild other hOther
      exact hCursor.apart_of_mem_namedChildren hChild (hApart.1 other hOther)
    refine (List.Perm.pairwise_iff ParseTree.Apart.symm ?_).1 hBelow
    rw [List.map_append, List.map_append, List.append_assoc]
    refine ((passed_append_found_perm language cursor).symm.append_right _).trans ?_
    rw [List.append_assoc]
    refine List.Perm.append_left _ ?_
    rw [← List.append_assoc, ← List.append_assoc]
    exact List.perm_append_comm.append_right _

/-- The targets gathered from fitting trees fit. -/
private lemma fits_of_mem_gather {text : String} (language : Language) (waiting : List Cursor)
    (targets : List ChunkTarget) (hFits : ∀ cursor ∈ waiting, cursor.tree.Fits text)
    (hTargets : ∀ t ∈ targets, t.node.Fits text) :
    ∀ t ∈ gather language waiting targets, t.node.Fits text := by
  fun_induction gather language waiting targets with
  | case1 targets => exact hTargets
  | case2 cursor rest targets ih =>
    refine ih (fits_of_mem_passed_append hFits) fun t ht => ?_
    rcases List.mem_append.1 ht with hFound | hOld
    · exact (hFits cursor List.mem_cons_self).of_mem_namedChildren
        ((passed_append_found_perm language cursor).subset
          (List.mem_append_right _ (List.mem_map_of_mem hFound)))
    · exact hTargets t hOld

/-- The targets of a fitting tree fit. -/
private lemma fits_of_mem_collect {text : String} {language : Language} {root : ParseTree}
    (h : root.Fits text) : ∀ t ∈ collect language root, t.node.Fits text := by
  intro t ht
  rw [collect, List.mem_reverse] at ht
  exact fits_of_mem_gather language [⟨root, []⟩] [] (by simpa using h) (by simp) t ht

/-- **Targets lie apart.** No two targets of a fitting tree cover a byte together. -/
theorem pairwise_apart_collect {text : String} {language : Language} {root : ParseTree}
    (h : root.Fits text) :
    ((collect language root).map node).Pairwise ParseTree.Apart := by
  rw [collect, List.map_reverse, List.pairwise_reverse]
  refine (pairwise_apart_gather language [⟨root, []⟩] [] (by simpa using h) (by simp)).imp ?_
  exact ParseTree.Apart.symm

end ChunkTarget

/-! ## Regions -/

namespace Region

/-- A region lies before another, or the other has no bytes. -/
def Precedes (region next : Region) : Prop := region.stop ≤ next.start ∨ next.stop ≤ next.start

variable {position : Nat} {t : ChunkTarget} {rest : List ChunkTarget}

/-- What lies ahead of a position and behind a target lies ahead of the position to which the target
moves it. -/
lemma ahead_of_precedes
    (hOrder : ∀ u ∈ rest, (Region.target t).Precedes (Region.target u))
    (hAhead : ∀ u ∈ rest, position ≤ u.node.startByte ∨ u.node.endByte ≤ u.node.startByte) :
    ∀ u ∈ rest, max position t.node.endByte ≤ u.node.startByte ∨
      u.node.endByte ≤ u.node.startByte := by
  intro u hu
  have hPosition := hAhead u hu
  have hTarget : t.node.endByte ≤ u.node.startByte ∨ u.node.endByte ≤ u.node.startByte :=
    hOrder u hu
  omega

/-- No region from a position on starts before the position, if no target does. -/
private lemma le_start_of_mem_list (length : Nat) (targets : List ChunkTarget) :
    ∀ position : Nat,
      targets.Pairwise (fun a b => (Region.target a).Precedes (Region.target b)) →
      (∀ t ∈ targets, position ≤ t.node.startByte ∨ t.node.endByte ≤ t.node.startByte) →
      ∀ region ∈ list length position targets,
        position ≤ region.start ∨ region.stop ≤ region.start := by
  induction targets with
  | nil =>
    intro position _ _ region hRegion
    obtain ⟨-, rfl⟩ := mem_list_nil_iff.1 hRegion
    exact Or.inl (Nat.le_refl _)
  | cons t rest ih =>
    intro position hOrder hAhead region hRegion
    obtain ⟨hNext, hRest⟩ := List.pairwise_cons.1 hOrder
    obtain ⟨hTarget, hOthers⟩ := List.forall_mem_cons.1 hAhead
    rcases mem_list_cons_iff.1 hRegion with ⟨-, rfl⟩ | rfl | hLater
    · exact Or.inl (Nat.le_refl _)
    · exact hTarget
    · exact (ih _ hRest (ahead_of_precedes hNext hOthers) region hLater).imp_left
        (Nat.le_trans (Nat.le_max_left _ _))

/-- The regions from a position on precede one another, if targets do so and lie ahead of it.

**Proof sketch.** Induction on the targets ahead. A gap stops where the next target starts, and the
position moves behind the target, so what is listed later starts behind both. -/
private lemma pairwise_precedes_list (length : Nat) (targets : List ChunkTarget) :
    ∀ position : Nat,
      targets.Pairwise (fun a b => (Region.target a).Precedes (Region.target b)) →
      (∀ t ∈ targets, t.node.startByte ≤ t.node.endByte) →
      (∀ t ∈ targets, position ≤ t.node.startByte ∨ t.node.endByte ≤ t.node.startByte) →
      (list length position targets).Pairwise Precedes := by
  induction targets with
  | nil =>
    intro position _ _ _
    rw [list]
    split
    · exact List.pairwise_singleton _ _
    · exact List.Pairwise.nil
  | cons t rest ih =>
    intro position hOrder hForward hAhead
    obtain ⟨hNext, hRest⟩ := List.pairwise_cons.1 hOrder
    obtain ⟨hSpan, hSpans⟩ := List.forall_mem_cons.1 hForward
    have hBehind := ahead_of_precedes hNext (List.forall_mem_cons.1 hAhead).2
    have hLater : ∀ region ∈ list length (max position t.node.endByte) rest,
        t.node.endByte ≤ region.start ∨ region.stop ≤ region.start := fun region hRegion =>
      (le_start_of_mem_list length rest _ hRest hBehind region hRegion).imp_left
        (Nat.le_trans (Nat.le_max_right _ _))
    have hFromTarget : (Region.target t :: list length (max position t.node.endByte) rest).Pairwise
        Precedes := List.pairwise_cons.2 ⟨hLater, ih _ hRest hSpans hBehind⟩
    simp only [list]
    split
    · refine List.pairwise_cons.2 ⟨fun region hRegion => ?_, hFromTarget⟩
      rcases List.mem_cons.1 hRegion with rfl | hRegion
      · exact Or.inl (Nat.le_refl _)
      · exact (hLater region hRegion).imp_left (Nat.le_trans hSpan)
    · exact hFromTarget

end Region

namespace Cutting

/-- **Regions follow one another.** The regions of a fitting tree precede one another.

**Proof sketch.** Two targets lie apart. If the one with the later first byte ended before the
other starts, it would have no bytes. -/
theorem pairwise_precedes_regions (cutting : Cutting) {text : String} {root : ParseTree}
    (h : root.Fits text) : (cutting.regions root).Pairwise Region.Precedes := by
  have hFits : ∀ t ∈ cutting.targets root, t.node.Fits text := by
    intro t ht
    exact ChunkTarget.fits_of_mem_collect h t (List.mem_mergeSort.1 ht)
  have hSorted := pairwise_mergeSort_key (fun t : ChunkTarget => t.node.startByte)
    (ChunkTarget.collect cutting.language root)
  have hApart : ((cutting.targets root).map ChunkTarget.node).Pairwise ParseTree.Apart :=
    (List.Perm.pairwise_iff ParseTree.Apart.symm ((List.mergeSort_perm _ _).map _)).2
      (ChunkTarget.pairwise_apart_collect h)
  refine Region.pairwise_precedes_list _ _ 0 ?_ ?_ (by simp)
  · rw [List.pairwise_map] at hApart
    refine (hSorted.and hApart).imp ?_
    rintro a b ⟨hStart, hBefore | hAfter⟩
    · exact Or.inl hBefore
    · exact Or.inr (Nat.le_trans hAfter hStart)
  · exact fun t ht => (hFits t ht).startByte_le_endByte

end Cutting

end CodeAtlas
