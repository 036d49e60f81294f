import Mathlib.Data.List.Basic
import CodeAtlas.Proofs.Demand
import CodeAtlas.Proofs.TargetOrder

/-!
# The topmost targets of a tree

Targets are collected by working off a list of nodes that wait, and what is found comes in no
particular order. Here it is compared with a recursion that tells the topmost targets of a tree in
the order of the document, each with its address. Equal subtrees may stand at several addresses, so
it is by their addresses that each target is known to be collected once.

## Main definitions

* `CodeAtlas.ChunkTarget.at?` — the target at an address.
* `CodeAtlas.ChunkTarget.Topmost` — a target below the root with no target above it.
* `CodeAtlas.ChunkTarget.spots` — the topmost targets with their addresses, by recursion.
* `CodeAtlas.ParseTree.InOrder` — siblings are in order and disjoint.

## Main results

* `CodeAtlas.ChunkTarget.mem_spots_iff` — the recursion tells the topmost targets.
* `CodeAtlas.ChunkTarget.collect_perm` — what is collected is what the recursion tells.
* `CodeAtlas.Cutting.exists_spots` — the topmost targets are collected, each once, and in order if
  siblings are.
-/

set_option autoImplicit false

namespace CodeAtlas

namespace ChunkTarget

variable {language : Language}

/-- The target at an address below a node. -/
def at? (language : Language) (cursor : Cursor) (address : List Nat) : Option ChunkTarget :=
  cursor.at? (fun _ => true) address >>= of? language

/-- A target at an address below a node, the node itself apart, with no other target above it. -/
structure Topmost (language : Language) (cursor : Cursor) (address : List Nat)
    (t : ChunkTarget) : Prop where
  ne_nil : address ≠ []
  at?_eq : at? language cursor address = some t
  above : ∀ higher, higher <+: address → higher ≠ [] → higher ≠ address →
    at? language cursor higher = none

/-! ## Addresses -/

/-- An address leads through the node that its first number stands for. -/
private lemma at?_cons (cursor : Cursor) (i : Nat) (rest : List Nat) :
    at? language cursor (i :: rest) =
      cursor.namedChildren[i]?.bind fun child => at? language child rest := by
  cases hChild : cursor.namedChildren[i]? with
  | none => simp [at?, Cursor.at?, hChild]
  | some child => simp [at?, Cursor.at?, hChild]

/-- **A topmost target stands right below the node, or is topmost below a node there that is no
target.**

**Proof sketch.** Besides its own address, the addresses above a target are that of the child and
those that lead on from there, so if the target is not the child, the child is no target. -/
theorem topmost_cons_iff {cursor : Cursor} {i : Nat} {rest : List Nat} {t : ChunkTarget} :
    Topmost language cursor (i :: rest) t ↔
      ∃ child, cursor.namedChildren[i]? = some child ∧
        (rest = [] ∧ of? language child = some t ∨
          of? language child = none ∧ Topmost language child rest t) := by
  constructor
  · rintro ⟨-, hTarget, hAbove⟩
    rw [at?_cons] at hTarget
    obtain ⟨child, hChild, hRest⟩ := Option.bind_eq_some_iff.1 hTarget
    refine ⟨child, hChild, ?_⟩
    by_cases hHere : rest = []
    · subst hHere
      exact Or.inl ⟨rfl, hRest⟩
    · have hPassed := hAbove [i] (by simp) (by simp) (by simpa using hHere)
      rw [at?_cons, hChild] at hPassed
      refine Or.inr ⟨hPassed, hHere, hRest, fun higher hPrefix _ hOther => ?_⟩
      have hHigher := hAbove (i :: higher) (List.cons_prefix_cons.2 ⟨rfl, hPrefix⟩) (by simp)
        (by simpa using hOther)
      rwa [at?_cons, hChild] at hHigher
  · rintro ⟨child, hChild, ⟨rfl, hTarget⟩ | ⟨hPassed, hBelow⟩⟩
    · refine ⟨by simp, by rw [at?_cons, hChild]; exact hTarget, ?_⟩
      intro higher hPrefix hSome hOther
      obtain rfl | ⟨_, rfl, hNone⟩ := List.prefix_cons_iff.1 hPrefix
      · exact absurd rfl hSome
      · exact absurd (by rw [List.prefix_nil.1 hNone]) hOther
    · refine ⟨by simp, by rw [at?_cons, hChild]; exact hBelow.at?_eq, ?_⟩
      intro higher hPrefix hSome hOther
      obtain rfl | ⟨lower, rfl, hLower⟩ := List.prefix_cons_iff.1 hPrefix
      · exact absurd rfl hSome
      · rw [at?_cons, hChild]
        by_cases hNone : lower = []
        · subst hNone
          exact hPassed
        · exact hBelow.above lower hLower hNone fun hEq => hOther (by rw [hEq])

/-- Two topmost targets at comparable addresses are the same. -/
private lemma Topmost.eq_of_isPrefix {cursor : Cursor} {address other : List Nat}
    {t u : ChunkTarget} (h : Topmost language cursor address t)
    (hOther : Topmost language cursor other u) (hPrefix : address <+: other) :
    address = other ∧ t = u := by
  have hEq : address = other := by
    by_contra hNe
    have hNone := hOther.above address hPrefix h.ne_nil hNe
    rw [h.at?_eq] at hNone
    cases hNone
  subst hEq
  exact ⟨rfl, Option.some.inj (h.at?_eq.symm.trans hOther.at?_eq)⟩

/-! ## The topmost targets by recursion -/

/-- The topmost targets below a node with their addresses, in the order of the document. -/
def spots (language : Language) (cursor : Cursor) : List (List Nat × ChunkTarget) :=
  cursor.namedChildren.attach.zipIdx.flatMap fun (child, i) =>
    match of? language child.1 with
    | some t => [([i], t)]
    | none => (spots language child.1).map fun (address, t) => (i :: address, t)
termination_by cursor.tree.size
decreasing_by
  exact Nat.lt_of_le_of_lt (ParseTree.size_le_of_mem (List.mem_map_of_mem child.2))
    cursor.sizeAll_namedChildren_lt

/-- The topmost targets at or below a node, with their addresses. -/
def spotsFrom (language : Language) (cursor : Cursor) : List (List Nat × ChunkTarget) :=
  match of? language cursor with
  | some t => [([], t)]
  | none => spots language cursor

/-- The topmost targets below a node are those at or below the nodes right below it, one after the
other. -/
lemma spots_eq (cursor : Cursor) : spots language cursor =
    cursor.namedChildren.zipIdx.flatMap fun (child, i) =>
      (spotsFrom language child).map fun (address, t) => (i :: address, t) := by
  have hChildren : cursor.namedChildren.zipIdx =
      cursor.namedChildren.attach.zipIdx.map fun (child, i) => (child.1, i) := by
    conv_lhs => rw [← List.attach_map_subtype_val cursor.namedChildren, List.zipIdx_map]
    rfl
  rw [spots, hChildren, List.flatMap_map]
  refine List.flatMap_congr fun ⟨child, i⟩ _ => ?_
  simp only [spotsFrom]
  cases of? language child.1 with
  | none => rfl
  | some t => rfl

/-- What is at or below a node, told by address. -/
lemma mem_spots_cons_iff {cursor : Cursor} {address : List Nat} {t : ChunkTarget} :
    (address, t) ∈ spots language cursor ↔
      ∃ i child rest, address = i :: rest ∧ cursor.namedChildren[i]? = some child ∧
        (rest, t) ∈ spotsFrom language child := by
  rw [spots_eq, List.mem_flatMap]
  constructor
  · rintro ⟨⟨child, i⟩, hChild, hMem⟩
    obtain ⟨⟨rest, u⟩, hRest, hEq⟩ := List.mem_map.1 hMem
    obtain ⟨rfl, rfl⟩ := Prod.mk.inj hEq
    exact ⟨i, child, rest, rfl, List.mk_mem_zipIdx_iff_getElem?.1 hChild, hRest⟩
  · rintro ⟨i, child, rest, rfl, hChild, hRest⟩
    exact ⟨(child, i), List.mk_mem_zipIdx_iff_getElem?.2 hChild,
      List.mem_map.2 ⟨(rest, t), hRest, rfl⟩⟩

/-- **The recursion tells the topmost targets.**

**Proof sketch.** Induction on the cursor. The spots with an address that starts with a number are
those from the child of that number, and `topmost_cons_iff` says the same of the topmost targets. -/
theorem mem_spots_iff {cursor : Cursor} {address : List Nat} {t : ChunkTarget} :
    (address, t) ∈ spots language cursor ↔ Topmost language cursor address t := by
  induction cursor using Cursor.induct generalizing address with
  | h cursor ih =>
    cases address with
    | nil =>
      refine ⟨fun hMem => ?_, fun h => absurd rfl h.ne_nil⟩
      obtain ⟨i, child, rest, hEq, -, -⟩ := mem_spots_cons_iff.1 hMem
      cases hEq
    | cons i rest =>
      have hFrom : ∀ child, cursor.namedChildren[i]? = some child →
          ((rest, t) ∈ spotsFrom language child ↔
            (rest = [] ∧ of? language child = some t ∨
              of? language child = none ∧ Topmost language child rest t)) := by
        intro child hChild
        unfold spotsFrom
        cases hTarget : of? language child with
        | none => simpa using ih child (List.mem_of_getElem? hChild)
        | some u => simp [eq_comm]
      rw [mem_spots_cons_iff, topmost_cons_iff]
      constructor
      · rintro ⟨j, child, others, hEq, hChild, hMem⟩
        obtain ⟨rfl, rfl⟩ := List.cons.inj hEq
        exact ⟨child, hChild, (hFrom child hChild).1 hMem⟩
      · rintro ⟨child, hChild, hMem⟩
        exact ⟨i, child, rest, rfl, hChild, (hFrom child hChild).2 hMem⟩

/-- **The recursion follows the order of the document**, in which a node comes before what is below
it and before what is below its later siblings. -/
theorem pairwise_spots (cursor : Cursor) :
    ((spots language cursor).map Prod.fst).Pairwise (· < ·) := by
  induction cursor using Cursor.induct with
  | h cursor ih =>
    rw [spots_eq, List.map_flatMap, List.pairwise_flatMap]
    have hNumbers : cursor.namedChildren.zipIdx.Pairwise fun a b => a.2 < b.2 := by
      rw [← List.pairwise_map (f := Prod.snd) (R := (· < ·)), List.zipIdx_map_snd]
      exact List.pairwise_lt_range'
    refine ⟨fun ⟨child, i⟩ hChild => ?_, hNumbers.imp ?_⟩
    · have hBelow : ((spotsFrom language child).map Prod.fst).Pairwise (· < ·) := by
        unfold spotsFrom
        split
        · exact List.pairwise_singleton _ _
        · exact ih child (List.mem_of_getElem? (List.mk_mem_zipIdx_iff_getElem?.1 hChild))
      rw [List.map_map, List.pairwise_map]
      refine (List.pairwise_map.1 hBelow).imp fun hLt => ?_
      exact List.cons_lt_cons_iff.2 (Or.inr ⟨rfl, hLt⟩)
    · rintro ⟨child, i⟩ ⟨other, j⟩ hLt address hAddress later hLater
      rw [List.map_map] at hAddress hLater
      obtain ⟨spot, -, rfl⟩ := List.mem_map.1 hAddress
      obtain ⟨next, -, rfl⟩ := List.mem_map.1 hLater
      exact List.cons_lt_cons_iff.2 (Or.inl hLt)

/-! ## Collecting -/

/-- The topmost targets below a node, child by child. -/
lemma map_snd_spots (cursor : Cursor) : (spots language cursor).map Prod.snd =
    cursor.namedChildren.flatMap fun child => (spotsFrom language child).map Prod.snd := by
  rw [spots_eq, List.map_flatMap]
  conv_rhs => rw [← List.zipIdx_map_fst 0 cursor.namedChildren, List.flatMap_map]
  refine List.flatMap_congr fun ⟨child, i⟩ _ => ?_
  rw [List.map_map]
  rfl

/-- What is found right below a node, and the topmost targets below what is passed over, are
together the topmost targets below the node. -/
private lemma found_append_passed_perm (cursor : Cursor) :
    (found language cursor ++
      (passed language cursor).flatMap fun child => (spots language child).map Prod.snd).Perm
    ((spots language cursor).map Prod.snd) := by
  rw [map_snd_spots, found, passed]
  induction cursor.namedChildren with
  | nil => exact List.Perm.refl _
  | cons child rest ih =>
    cases hTarget : of? language child with
    | some t => simpa [hTarget, spotsFrom] using ih
    | none =>
      have hChild : (spotsFrom language child).map Prod.snd =
          (spots language child).map Prod.snd := by rw [spotsFrom, hTarget]
      rw [List.filterMap_cons_none hTarget, List.filter_cons_of_pos (by simp [hTarget]),
        List.flatMap_cons, List.flatMap_cons, hChild]
      exact (List.perm_append_comm_assoc _ _ _).trans (ih.append_left _)

/-- **What is gathered is what was found already and what is topmost below the nodes that wait.**

**Proof sketch.** Induction along the recursion. A node makes way for what is passed over right
below it, and adds what is found there. -/
theorem gather_perm (waiting : List Cursor) (targets : List ChunkTarget) :
    (gather language waiting targets).Perm
      ((waiting.flatMap fun cursor => (spots language cursor).map Prod.snd) ++ targets) := by
  fun_induction gather language waiting targets with
  | case1 targets => exact List.Perm.refl _
  | case2 cursor rest targets ih =>
    refine ih.trans ?_
    rw [List.flatMap_append, List.flatMap_cons]
    refine (List.perm_append_comm_assoc _ _ _).trans ?_
    have hCursor := (@found_append_passed_perm language cursor).append_right
      ((rest.flatMap fun other => (spots language other).map Prod.snd) ++ targets)
    simpa only [List.append_assoc] using hCursor

/-- **What is collected is what the recursion tells**, in another order. -/
theorem collect_perm (root : ParseTree) :
    (collect language root).Perm ((spots language ⟨root, []⟩).map Prod.snd) := by
  have h := @gather_perm language [⟨root, []⟩] []
  rw [List.flatMap_singleton, List.append_nil] at h
  exact (List.reverse_perm _).trans h

end ChunkTarget

/-! ## Trees in order -/

namespace ParseTree

/-- Siblings are in order and disjoint: what stands at or below a child ends before anything at or
below a later child starts. -/
inductive InOrder : ParseTree → Prop
  | node {info : NodeInfo} {children : List ParseTree}
      (ordered : children.Pairwise fun a b =>
        ∀ x ∈ a.constructs, ∀ y ∈ b.constructs, x.endByte ≤ y.startByte)
      (below : ∀ child ∈ children, InOrder child) : InOrder (.node info children)

/-- The constructs right below a fitting tree lie inside it. -/
private lemma Fits.inside_of_mem_namedChildren {text : String} {tree child : ParseTree}
    (h : tree.Fits text) (hChild : child ∈ tree.namedChildren) :
    tree.startByte ≤ child.startByte ∧ child.endByte ≤ tree.endByte := by
  obtain ⟨-, inside, -, -⟩ := h
  exact inside child (List.mem_of_mem_filter hChild)

/-- What stands at or below a node of a fitting tree lies inside it. -/
private lemma Fits.inside_of_mem_nodes {text : String} {cursor node : Cursor}
    (h : cursor.tree.Fits text) (hNode : node ∈ cursor.nodes) :
    cursor.tree.startByte ≤ node.tree.startByte ∧ node.tree.endByte ≤ cursor.tree.endByte := by
  induction cursor using Cursor.induct with
  | h cursor ih =>
    rw [Cursor.nodes_eq, List.mem_cons, List.mem_flatMap] at hNode
    rcases hNode with rfl | ⟨child, hChild, hBelow⟩
    · exact ⟨Nat.le_refl _, Nat.le_refl _⟩
    · have hTree : child.tree ∈ cursor.tree.namedChildren := by
        rw [← Cursor.map_tree_namedChildren]
        exact List.mem_map_of_mem hChild
      have hInner := ih child hChild (h.of_mem_namedChildren hTree) hBelow
      have hOuter := h.inside_of_mem_namedChildren hTree
      omega

/-- The siblings of a fitting tree are in order. -/
private lemma Fits.inOrder {text : String} {tree : ParseTree} (h : tree.Fits text) :
    tree.InOrder := by
  induction h with
  | node slice inside ordered below ih =>
    refine .node (ordered.imp_of_mem fun {a b} ha hb hBefore x hx y hy => ?_) ih
    rw [constructs_eq _ []] at hx hy
    obtain ⟨first, hFirst, rfl⟩ := List.mem_map.1 hx
    obtain ⟨second, hSecond, rfl⟩ := List.mem_map.1 hy
    have hEnd := (Fits.inside_of_mem_nodes (below a ha) hFirst).2
    have hStart := (Fits.inside_of_mem_nodes (below b hb) hSecond).1
    calc first.tree.endByte
      _ ≤ a.endByte := hEnd
      _ ≤ b.startByte := hBefore
      _ ≤ second.tree.startByte := hStart

end ParseTree

namespace ChunkTarget

variable {language : Language}

/-- A topmost target at or below a node is a construct of its tree. -/
private lemma node_mem_constructs {cursor : Cursor} {spot : List Nat × ChunkTarget}
    (h : spot ∈ spotsFrom language cursor) : spot.2.node ∈ cursor.tree.constructs := by
  rw [ParseTree.constructs_eq _ cursor.ancestors]
  induction cursor using Cursor.induct generalizing spot with
  | h cursor ih =>
    rw [Cursor.nodes_eq, List.map_cons]
    unfold spotsFrom at h
    split at h
    · next t hTarget =>
      rw [List.mem_singleton.1 h, node_of_of? hTarget]
      exact List.mem_cons_self
    · obtain ⟨i, child, rest, -, hChild, hMem⟩ := mem_spots_cons_iff.1 h
      have hBelow := List.mem_of_getElem? hChild
      obtain ⟨node, hNode, hEq⟩ := List.mem_map.1 (ih child hBelow hMem)
      exact List.mem_cons_of_mem _
        (List.mem_map.2 ⟨node, List.mem_flatMap.2 ⟨child, hBelow, hNode⟩, hEq⟩)

/-- The topmost targets of a tree in order end before later ones start. -/
lemma pairwise_endByte_spots {cursor : Cursor} (h : cursor.tree.InOrder) :
    ((spots language cursor).map Prod.snd).Pairwise fun a b =>
      a.node.endByte ≤ b.node.startByte := by
  induction cursor using Cursor.induct with
  | h cursor ih =>
    obtain ⟨tree, ancestors⟩ := cursor
    obtain ⟨ordered, below⟩ := h
    rw [map_snd_spots, List.pairwise_flatMap]
    constructor
    · intro child hChild
      unfold spotsFrom
      split
      · exact List.pairwise_singleton _ _
      · refine ih child hChild (below child.tree ?_)
        obtain ⟨inner, hInner, rfl⟩ := List.mem_map.1 hChild
        exact List.mem_of_mem_filter hInner
    · rw [Cursor.namedChildren, List.pairwise_map]
      refine (ordered.sublist List.filter_sublist).imp ?_
      intro a b hBefore t ht u hu
      obtain ⟨spot, hSpot, rfl⟩ := List.mem_map.1 ht
      obtain ⟨next, hNext, rfl⟩ := List.mem_map.1 hu
      exact hBefore _ (node_mem_constructs hSpot) _ (node_mem_constructs hNext)

/-- A target covers some bytes. -/
def isWide (t : ChunkTarget) : Bool := t.node.startByte < t.node.endByte

end ChunkTarget

namespace Cutting

open ChunkTarget (Topmost spots isWide)

/-- **The targets of a tree in order are in the order of the document**, those without bytes
apart. -/
theorem filter_isWide_targets (cutting : Cutting) {root : ParseTree} (h : root.InOrder) :
    (cutting.targets root).filter isWide =
      ((spots cutting.language ⟨root, []⟩).map Prod.snd).filter isWide := by
  have hPerm : ((cutting.targets root).filter isWide).Perm
      (((spots cutting.language ⟨root, []⟩).map Prod.snd).filter isWide) :=
    ((List.mergeSort_perm _ _).trans (ChunkTarget.collect_perm root)).filter _
  have hSorted : ((cutting.targets root).filter isWide).Pairwise fun a b =>
      a.node.startByte ≤ b.node.startByte :=
    (pairwise_mergeSort_key _ _).sublist List.filter_sublist
  have hOrder : (((spots cutting.language ⟨root, []⟩).map Prod.snd).filter isWide).Pairwise
      fun a b => a.node.startByte < b.node.startByte := by
    refine ((ChunkTarget.pairwise_endByte_spots h).sublist List.filter_sublist).imp_of_mem ?_
    intro a b ha _ hBefore
    have hWide : a.node.startByte < a.node.endByte := by
      simpa [isWide] using (List.mem_filter.1 ha).2
    omega
  -- No two targets in the order of the document start together, so there is one way to sort them.
  have hDistinct : ((((spots cutting.language ⟨root, []⟩).map Prod.snd).filter isWide).map
      fun t => t.node.startByte).Nodup := List.pairwise_map.2 (hOrder.imp Nat.ne_of_lt)
  refine hPerm.eq_of_pairwise ?_ hSorted (hOrder.imp Nat.le_of_lt)
  intro a b ha hb hLe hGe
  exact List.inj_on_of_nodup_map hDistinct (hPerm.subset ha) hb (Nat.le_antisymm hLe hGe)

/-- **The topmost targets are collected, each once.** The targets below the root that have no target
above them can be listed with their addresses in the order of the document, in which a node comes
before what is below it and what is below it before its later siblings. What is collected is a
permutation of this list, and no target stands above another. If siblings are in order and disjoint,
the targets that cover some bytes come in the order of the document when sorted by their first
bytes, and they do not overlap.

**Proof sketch.** The list is made by recursion on the tree (`spots`). Its addresses are in order
(`ChunkTarget.pairwise_spots`), its members are the topmost targets (`ChunkTarget.mem_spots_iff`),
and the stack of the traversal holds what is still to be listed, so that what is collected is a
permutation of it (`ChunkTarget.collect_perm`). In a tree in order the listed targets lie one behind
the other, and sorting by first bytes brings what is collected into that order, as targets that
cover some bytes do not start at the same one. -/
theorem exists_spots (cutting : Cutting) (root : ParseTree) :
    ∃ listed : List (List Nat × ChunkTarget),
      (listed.map Prod.fst).Pairwise (· < ·) ∧
      (∀ address t, (address, t) ∈ listed ↔ Topmost cutting.language ⟨root, []⟩ address t) ∧
      (ChunkTarget.collect cutting.language root).Perm (listed.map Prod.snd) ∧
      (∀ spot ∈ listed, ∀ other ∈ listed, spot.1 <+: other.1 → spot = other) ∧
      (root.InOrder →
        (cutting.targets root).filter isWide = (listed.map Prod.snd).filter isWide ∧
        ((cutting.targets root).filter isWide).Pairwise fun a b =>
          a.node.endByte ≤ b.node.startByte) := by
  refine ⟨spots cutting.language ⟨root, []⟩, ChunkTarget.pairwise_spots _,
    fun _ _ => ChunkTarget.mem_spots_iff, ChunkTarget.collect_perm root, ?_, fun h => ⟨?_, ?_⟩⟩
  · rintro ⟨address, t⟩ hSpot ⟨other, u⟩ hOther hPrefix
    obtain ⟨hAddress, hTarget⟩ := (ChunkTarget.mem_spots_iff.1 hSpot).eq_of_isPrefix
      (ChunkTarget.mem_spots_iff.1 hOther) hPrefix
    exact Prod.ext hAddress hTarget
  · exact cutting.filter_isWide_targets h
  · rw [cutting.filter_isWide_targets h]
    exact (ChunkTarget.pairwise_endByte_spots h).sublist List.filter_sublist

end Cutting

/-! ## A function in a module -/

namespace NestedModule

open ChunkTarget (topmost_cons_iff)

/-- A file with a function in a module and one behind it. -/
def content : String := "mod m \x7b fn a() \x7b\x7d \x7d\nfn b() \x7b\x7d\n"

/-- The node of one of the functions. -/
def function (start row : Nat) : ParseTree :=
  .node ⟨"function_item", true, none, start, start + 9, row, row⟩ []

/-- The body of the module. -/
def body : ParseTree :=
  .node ⟨"declaration_list", true, some "body", 6, 19, 0, 0⟩ [function 8 0]

/-- The module. -/
def module : ParseTree := .node ⟨"mod_item", true, none, 0, 19, 0, 0⟩ [body]

/-- The tree of the file. -/
def root : ParseTree :=
  .node ⟨"source_file", true, none, 0, 30, 0, 2⟩ [module, function 20 1]

/-- What the file is cut with. -/
def cutting : Cutting := ⟨{}, .rust, "a.rs", .ofText content⟩

/-- A function as a target. -/
def target (start row : Nat) (ancestors : List ParseTree) : ChunkTarget :=
  ⟨function start row, ⟨function start row, ancestors⟩, .function⟩

/-- The tree fits the file. -/
private lemma fits_root : root.Fits content := by
  have hFunction : ∀ start row, (Text.slice? content start (start + 9)).isSome →
      (function start row).Fits content := fun start row hSlice =>
    .node hSlice (by simp) List.Pairwise.nil (by simp)
  have hBody : body.Fits content := by
    refine .node (by decide +kernel) (by decide) (List.pairwise_singleton _ _) ?_
    simpa using hFunction 8 0 (by decide +kernel)
  have hModule : module.Fits content := by
    refine .node (by decide +kernel) (by decide) (List.pairwise_singleton _ _) ?_
    simpa using hBody
  refine .node (by decide +kernel) (by decide) (List.pairwise_pair.2 (by decide)) ?_
  simpa using ⟨hModule, hFunction 20 1 (by decide +kernel)⟩

/-- A function is a target. -/
private lemma of?_function (start row : Nat) (ancestors : List ParseTree)
    (h : ChunkTarget.scope? .rust ⟨function start row, ancestors⟩ = none) :
    ChunkTarget.of? .rust ⟨function start row, ancestors⟩ = some (target start row ancestors) := by
  have hRule : ChunkRule.of? .rust (function start row).kind =
      some (.declaration .function) := rfl
  rw [ChunkTarget.of?, ChunkTarget.match?, hRule]
  simp only [h]
  rfl

/-- A node without a rule is no target. -/
private lemma of?_eq_none {tree : ParseTree} (ancestors : List ParseTree)
    (h : ChunkRule.of? .rust tree.kind = none) :
    ChunkTarget.of? .rust ⟨tree, ancestors⟩ = none := by
  rw [ChunkTarget.of?, ChunkTarget.match?, h]
  rfl

/-- The function in the module and the one behind it are topmost targets, and what is sorted comes
in the order of the document. -/
theorem exists_spots_root : root.InOrder ∧
    ∃ listed : List (List Nat × ChunkTarget),
      ([0, 0, 0], target 8 0 [body, module, root]) ∈ listed ∧ ([1], target 20 1 [root]) ∈ listed ∧
      (cutting.targets root).filter ChunkTarget.isWide =
        (listed.map Prod.snd).filter ChunkTarget.isWide := by
  have hInOrder : root.InOrder := fits_root.inOrder
  obtain ⟨listed, -, hTopmost, -, -, hOrder⟩ := cutting.exists_spots root
  refine ⟨hInOrder, listed, (hTopmost _ _).2 ?_, (hTopmost _ _).2 ?_, (hOrder hInOrder).1⟩
  · refine topmost_cons_iff.2
      ⟨⟨module, [root]⟩, rfl, Or.inr ⟨of?_eq_none _ (by decide +kernel), ?_⟩⟩
    refine topmost_cons_iff.2
      ⟨⟨body, [module, root]⟩, rfl, Or.inr ⟨of?_eq_none _ (by decide +kernel), ?_⟩⟩
    exact topmost_cons_iff.2 ⟨⟨function 8 0, [body, module, root]⟩, rfl,
      Or.inl ⟨rfl, of?_function 8 0 _ (by decide +kernel)⟩⟩
  · exact topmost_cons_iff.2 ⟨⟨function 20 1, [root]⟩, rfl,
      Or.inl ⟨rfl, of?_function 20 1 _ (by decide +kernel)⟩⟩

end NestedModule

end CodeAtlas
