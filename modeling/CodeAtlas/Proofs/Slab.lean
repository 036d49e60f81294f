import Mathlib.Data.List.Basic
import CodeAtlas.Graph.Slab

/-!
# Laws of slabs

As long as the free slots are the empty ones, an insertion goes to an empty slot and leaves all
others as they are. What a slab holds is given by the value in each slot, and not by how its free
slots are ordered.

## Main definitions

* `CodeAtlas.Slab.Wf` — the free slots are the empty ones, each listed once.

## Main results

* `CodeAtlas.Slab.get?_insert`, `get?_erase`, `get?_modify` — the value in a slot after a change.
* `CodeAtlas.Slab.Wf.insert`, `Wf.erase`, `Wf.modify` — changes keep the free slots right.
* `CodeAtlas.Slab.values_eq_map` — the values follow from what is in each slot.
-/

set_option autoImplicit false

namespace CodeAtlas

namespace Slab

variable {α : Type}

/-- The free slots are the empty ones, each listed once. -/
structure Wf (slab : Slab α) : Prop where
  nodup : slab.free.Nodup
  mem_free : ∀ slot, slot ∈ slab.free ↔ slot < slab.slots.length ∧ slab.get? slot = none

/-! ## Values in slots -/

/-- A slot that holds a value is one of the slots. -/
lemma lt_of_get?_eq_some {slab : Slab α} {slot : Nat} {value : α}
    (h : slab.get? slot = some value) : slot < slab.slots.length := by
  by_contra hNot
  rw [get?, List.getElem?_eq_none (by omega)] at h
  cases h

/-- The value in a slot after another value is put into one of the slots. -/
lemma join_getElem?_set {slots : List (Option α)} {slot : Nat} (hSlot : slot < slots.length)
    (value : Option α) (other : Nat) :
    (slots.set slot value)[other]?.join = if other = slot then value else slots[other]?.join := by
  by_cases h : other = slot
  · subst h
    rw [if_pos rfl, List.getElem?_set_self hSlot]
    rfl
  · rw [if_neg h, List.getElem?_set_ne (Ne.symm h)]

/-- The next slot is empty. -/
lemma get?_nextSlot {slab : Slab α} (h : slab.Wf) : slab.get? slab.nextSlot = none := by
  unfold nextSlot
  cases hFree : slab.free with
  | nil => rw [get?, List.head?_nil, Option.getD_none, List.getElem?_eq_none (Nat.le_refl _)]; rfl
  | cons slot rest =>
    rw [List.head?_cons, Option.getD_some]
    exact ((h.mem_free slot).1 (by rw [hFree]; exact List.mem_cons_self)).2

/-- What is in a slot after an insertion: the value in the next slot, and the rest unchanged.

**Proof sketch.** If no slot is free, the value is appended to the slots. If one is, the value is
set there, and the slot exists as the slab is well-formed. -/
theorem get?_insert {slab : Slab α} (h : slab.Wf) (value : α) (slot : Nat) :
    (slab.insert value).get? slot =
      if slot = slab.nextSlot then some value else slab.get? slot := by
  unfold insert nextSlot
  cases hFree : slab.free with
  | nil =>
    rw [List.head?_nil, Option.getD_none, get?, get?]
    by_cases hSlot : slot = slab.slots.length
    · rw [if_pos hSlot, hSlot, List.getElem?_concat_length]
      rfl
    · rw [if_neg hSlot]
      rcases Nat.lt_or_gt_of_ne hSlot with hLt | hGt
      · rw [List.getElem?_append_left hLt]
      · rw [List.getElem?_eq_none (by rw [List.length_append, List.length_singleton]; omega),
          List.getElem?_eq_none (by omega)]
  | cons next rest =>
    have hNext := (h.mem_free next).1 (by rw [hFree]; exact List.mem_cons_self)
    rw [List.head?_cons, Option.getD_some]
    exact join_getElem?_set hNext.1 (some value) slot

/-- What is in a slot after one is freed. -/
theorem get?_erase (slab : Slab α) (freed slot : Nat) :
    (slab.erase freed).get? slot = if slot = freed then none else slab.get? slot := by
  unfold erase
  split
  · next h =>
    obtain ⟨value, hValue⟩ := Option.isSome_iff_exists.1 h
    exact join_getElem?_set (lt_of_get?_eq_some hValue) none slot
  · next h =>
    split
    · next hEq => rw [hEq]; simpa using h
    · rfl

/-- What is in a slot after one is changed. -/
theorem get?_modify (slab : Slab α) (changed : Nat) (change : α → α) (slot : Nat) :
    (slab.modify changed change).get? slot =
      if slot = changed then (slab.get? slot).map change else slab.get? slot := by
  unfold modify get?
  rw [List.getElem?_modify]
  by_cases h : slot = changed
  · subst h
    rw [if_pos rfl]
    rcases slab.slots[slot]? with - | (- | value) <;> simp
  · rw [if_neg h]
    have hNe : changed ≠ slot := Ne.symm h
    simp [hNe]

/-! ## Free slots -/

/-- A slab without slots has none that is free. -/
lemma wf_empty : Wf ({} : Slab α) :=
  ⟨List.nodup_nil, fun slot => by simp⟩

/-- A new value takes its slot from the free ones.

**Proof sketch.** If no slot is free, the slots grow by one that is not free either. If one is, it
is filled and leaves the list of free slots, in which it stood only once. -/
theorem Wf.insert {slab : Slab α} (h : slab.Wf) (value : α) : (slab.insert value).Wf := by
  have hGet := get?_insert h value
  cases hFree : slab.free with
  | nil =>
    have hNext : slab.nextSlot = slab.slots.length := by rw [nextSlot, hFree]; rfl
    have hEq : slab.insert value = ⟨slab.slots ++ [some value], []⟩ := by
      unfold Slab.insert
      rw [hFree]
    refine ⟨by rw [hEq]; exact List.nodup_nil, fun slot => ?_⟩
    rw [hGet, hNext, hEq, List.length_append, List.length_singleton]
    have hOld := h.mem_free slot
    rw [hFree] at hOld
    constructor
    · intro hMem
      cases hMem
    · rintro ⟨hLt, hNone⟩
      split at hNone
      · cases hNone
      · exact absurd (hOld.2 ⟨by omega, hNone⟩) List.not_mem_nil
  | cons next rest =>
    have hNext : slab.nextSlot = next := by rw [nextSlot, hFree]; rfl
    have hEq : slab.insert value = ⟨slab.slots.set next (some value), rest⟩ := by
      unfold Slab.insert
      rw [hFree]
    have hNodup := h.nodup
    rw [hFree, List.nodup_cons] at hNodup
    refine ⟨by rw [hEq]; exact hNodup.2, fun slot => ?_⟩
    rw [hGet, hNext, hEq, List.length_set]
    have hOld := h.mem_free slot
    rw [hFree, List.mem_cons] at hOld
    constructor
    · intro hMem
      have hNe : slot ≠ next := fun hSlot => hNodup.1 (hSlot ▸ hMem)
      rw [if_neg hNe]
      exact hOld.1 (Or.inr hMem)
    · rintro ⟨hLt, hNone⟩
      split at hNone
      · cases hNone
      · next hNe => exact (hOld.2 ⟨hLt, hNone⟩).resolve_left hNe

/-- A freed slot joins the free ones.

**Proof sketch.** A slot that holds a value is not among the free ones, so it may be put in front of
them. A slot that holds none stays as it is. -/
theorem Wf.erase {slab : Slab α} (h : slab.Wf) (freed : Nat) : (slab.erase freed).Wf := by
  by_cases hLive : (slab.get? freed).isSome
  · have hEq : slab.erase freed = ⟨slab.slots.set freed none, freed :: slab.free⟩ := by
      rw [Slab.erase, if_pos hLive]
    obtain ⟨value, hValue⟩ := Option.isSome_iff_exists.1 hLive
    have hLt := lt_of_get?_eq_some hValue
    have hNotFree : freed ∉ slab.free := by
      intro hMem
      rw [((h.mem_free freed).1 hMem).2] at hValue
      cases hValue
    refine ⟨by rw [hEq]; exact List.nodup_cons.2 ⟨hNotFree, h.nodup⟩, fun slot => ?_⟩
    rw [get?_erase, hEq, List.mem_cons, List.length_set, h.mem_free]
    by_cases hSlot : slot = freed
    · subst hSlot
      simp [hLt]
    · simp [hSlot]
  · rwa [Slab.erase, if_neg hLive]

/-- A changed value keeps its slot. -/
theorem Wf.modify {slab : Slab α} (h : slab.Wf) (changed : Nat) (change : α → α) :
    (slab.modify changed change).Wf := by
  refine ⟨h.nodup, fun slot => ?_⟩
  rw [get?_modify]
  show slot ∈ slab.free ↔ slot < (slab.slots.modify changed _).length ∧ _
  rw [List.length_modify, h.mem_free]
  by_cases hSlot : slot = changed <;> simp [hSlot]

/-! ## Several slots -/

/-- What is in a slot after several are freed. -/
lemma get?_foldl_erase (slots : List Nat) (slot : Nat) : ∀ slab : Slab α,
    (slots.foldl erase slab).get? slot = if slot ∈ slots then none else slab.get? slot := by
  induction slots with
  | nil => simp
  | cons first rest ih =>
    intro slab
    rw [List.foldl_cons, ih, get?_erase]
    by_cases hRest : slot ∈ rest <;> by_cases hFirst : slot = first <;> simp [hRest, hFirst]

/-- Freeing several slots keeps the free slots right. -/
lemma Wf.foldl_erase (slots : List Nat) :
    ∀ {slab : Slab α}, slab.Wf → (slots.foldl Slab.erase slab).Wf := by
  induction slots with
  | nil => exact fun h => h
  | cons first rest ih => exact fun h => ih (h.erase first)

/-- What is in a slot after several are changed in a way that has no effect the second time. -/
lemma get?_foldl_modify {change : α → α} (hTwice : ∀ a, change (change a) = change a)
    (slots : List Nat) (slot : Nat) : ∀ slab : Slab α,
    (slots.foldl (fun s changed => s.modify changed change) slab).get? slot =
      if slot ∈ slots then (slab.get? slot).map change else slab.get? slot := by
  induction slots with
  | nil => simp
  | cons first rest ih =>
    intro slab
    rw [List.foldl_cons, ih, get?_modify]
    by_cases hFirst : slot = first
    · rw [if_pos hFirst, if_pos (List.mem_cons.2 (Or.inl hFirst)), Option.map_map]
      split
      · exact congrArg (fun f => (slab.get? slot).map f) (funext hTwice)
      · rfl
    · rw [if_neg hFirst]
      simp [hFirst]

/-- Changing several slots keeps the free slots right. -/
lemma Wf.foldl_modify (change : α → α) (slots : List Nat) : ∀ {slab : Slab α}, slab.Wf →
    (slots.foldl (fun s changed => s.modify changed change) slab).Wf := by
  induction slots with
  | nil => exact fun h => h
  | cons first rest ih => exact fun h => ih (h.modify first change)

/-! ## Values -/

/-- The values are what the slots hold. -/
lemma mem_values {slab : Slab α} {value : α} :
    value ∈ slab.values ↔ ∃ slot, slab.get? slot = some value := by
  unfold values get?
  rw [List.mem_filterMap]
  constructor
  · rintro ⟨held, hMem, rfl⟩
    obtain ⟨slot, hSlot⟩ := List.mem_iff_getElem?.1 hMem
    exact ⟨slot, by rw [hSlot]; rfl⟩
  · rintro ⟨slot, hSlot⟩
    rw [Option.join_eq_some_iff] at hSlot
    exact ⟨some value, List.mem_of_getElem? hSlot, rfl⟩

/-- The slots that hold a value, in order. -/
def live (slab : Slab α) : List Nat :=
  (List.range slab.slots.length).filter fun slot => (slab.get? slot).isSome

/-- The slots that hold a value are listed. -/
lemma mem_live {slab : Slab α} {slot : Nat} : slot ∈ slab.live ↔ (slab.get? slot).isSome := by
  unfold live
  rw [List.mem_filter, List.mem_range]
  refine ⟨And.right, fun h => ⟨?_, h⟩⟩
  obtain ⟨value, hValue⟩ := Option.isSome_iff_exists.1 h
  exact lt_of_get?_eq_some hValue

/-- The slots that hold a value are listed once. -/
lemma nodup_live (slab : Slab α) : slab.live.Nodup := List.nodup_range.filter _

/-- The values are those in the slots that hold one. -/
lemma values_eq_filterMap_live (slab : Slab α) : slab.values = slab.live.filterMap slab.get? := by
  have hSlots : slab.slots = (List.range slab.slots.length).map slab.get? := by
    refine List.ext_getElem (by simp) fun slot hSlot _ => ?_
    simp [get?, hSlot]
  have hFilter : slab.live.filterMap slab.get? =
      (List.range slab.slots.length).filterMap slab.get? := by
    unfold live
    rw [List.filterMap_filter]
    refine List.filterMap_congr fun slot _ => ?_
    cases slab.get? slot <;> rfl
  rw [hFilter]
  unfold values
  rw [hSlots, List.filterMap_map, ← hSlots]
  rfl

/-- What holds of the values in any two slots holds of any two of the values. -/
lemma pairwise_values {P : α → α → Prop} (slab : Slab α)
    (h : ∀ slot other value value', slab.get? slot = some value → slab.get? other = some value' →
      slot ≠ other → P value value') : slab.values.Pairwise P := by
  unfold values
  rw [List.pairwise_filterMap, List.pairwise_iff_getElem]
  intro slot other hSlot hOther hLt value hValue value' hValue'
  refine h slot other value value' ?_ ?_ (Nat.ne_of_lt hLt)
  · rw [get?, List.getElem?_eq_getElem hSlot]
    exact hValue
  · rw [get?, List.getElem?_eq_getElem hOther]
    exact hValue'

/-- Slots that hold nothing have no values. -/
private lemma filterMap_id_eq_nil {slots : List (Option α)}
    (h : ∀ slot : Nat, slots[slot]?.join = none) : slots.filterMap id = [] := by
  rw [List.filterMap_eq_nil_iff]
  intro held hMem
  obtain ⟨slot, hSlot⟩ := List.mem_iff_getElem?.1 hMem
  have hNone := h slot
  rw [hSlot] at hNone
  exact hNone

/-- If slots hold the images of what other slots hold, so do their values, in order.

**Proof sketch.** Induction on the slots. Where one of the lists is at its end, the rest of the
other one holds nothing. -/
private lemma filterMap_id_eq_map {β : Type} {f : β → α} (slots : List (Option α)) :
    ∀ others : List (Option β),
      (∀ slot : Nat, slots[slot]?.join = others[slot]?.join.map f) →
      slots.filterMap id = (others.filterMap id).map f := by
  induction slots with
  | nil =>
    intro others hSame
    have hNone : others.filterMap id = [] :=
      filterMap_id_eq_nil fun slot => by simpa using (hSame slot).symm
    rw [hNone]
    rfl
  | cons held rest ih =>
    intro others hSame
    cases others with
    | nil =>
      have hNone : (held :: rest).filterMap id = [] :=
        filterMap_id_eq_nil fun slot => by simpa using hSame slot
      rw [hNone]
      rfl
    | cons held' rest' =>
      have hHead : held = held'.map f := by simpa using hSame 0
      have hTail := ih rest' fun slot => by simpa using hSame (slot + 1)
      rw [hHead, List.filterMap_cons, List.filterMap_cons, hTail]
      cases held' <;> rfl

/-- If each slot holds the image of what it holds in another slab, so do the values, in order. -/
theorem values_eq_map {β : Type} {slab : Slab α} {other : Slab β} {f : β → α}
    (h : ∀ slot, slab.get? slot = (other.get? slot).map f) :
    slab.values = other.values.map f :=
  filterMap_id_eq_map slab.slots other.slots h

end Slab

end CodeAtlas
