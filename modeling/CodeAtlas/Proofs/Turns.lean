import Mathlib.Algebra.GroupWithZero.Nat
import Mathlib.Data.List.Nodup
import Mathlib.Data.List.Perm.Basic
import CodeAtlas.Parser.Shared
import CodeAtlas.Proofs.Requests

/-!
# Callers of one language take turns

Callers that share a pool may ask for parsers side by side, and each step of one may come between
any two steps of another. The slots keep apart what callers of one language do: a slot holds the
parser that its language has in the pool, and it is busy exactly while one caller makes an attempt.
So no two attempts for a language are under way at once, a language that has a parser is not tried
again, and no caller is kept from its answer for good.

## Main definitions

* `CodeAtlas.SharedPool.Turn` — what a caller can do in one step.
* `CodeAtlas.SharedPool.Sound` — slots show the state of their languages.
* `CodeAtlas.SharedPool.remaining` — how many steps callers are away from their answers.

## Main results

* `CodeAtlas.SharedPool.advance_cases` — all that a step can do.
* `CodeAtlas.SharedPool.Sound.run` — slots stay sound along every schedule.
* `CodeAtlas.SharedPool.Sound.countP_acquires_le` — mutual exclusion.
* `CodeAtlas.SharedPool.Sound.count_attempts_run` — a language with a parser is not tried again.
* `CodeAtlas.SharedPool.exists_run_answered` — no caller is kept from its answer.
-/

set_option autoImplicit false

namespace CodeAtlas

open ParserPool (ParserId)

/-! ## Slots -/

namespace Slot

/-- The slot of a language, which is found or added. -/
private lemma enter_cases (slots : List Slot) (language : Language) :
    (∃ slot, (slots.map Slot.language)[slot]? = some language ∧
      enter slots language = (slot, slots)) ∨
    (language ∉ slots.map Slot.language ∧
      enter slots language = (slots.length, slots ++ [{ language := language }])) := by
  unfold enter
  cases hFound : slots.findIdx? (·.language == language) with
  | some slot =>
    obtain ⟨hLt, hLanguage, -⟩ := List.findIdx?_eq_some_iff_getElem.1 hFound
    refine Or.inl ⟨slot, ?_, rfl⟩
    rw [List.getElem?_map, List.getElem?_eq_getElem hLt]
    simpa using hLanguage
  | none =>
    refine Or.inr ⟨?_, rfl⟩
    intro hMem
    obtain ⟨held, hHeld, rfl⟩ := List.mem_map.1 hMem
    have hNone := List.findIdx?_eq_none_iff.1 hFound held hHeld
    simp at hNone

/-- Slots after one of them was changed: the changed one, and those of other languages. -/
lemma mem_set {slots : List Slot} (hNodup : (slots.map Slot.language).Nodup) {slot : Nat}
    {held changed : Slot} (hHeld : slots[slot]? = some held) {other : Slot}
    (hOther : other ∈ slots.set slot changed) :
    other = changed ∨ other ∈ slots ∧ other.language ≠ held.language := by
  obtain ⟨j, hj⟩ := List.mem_iff_getElem?.1 hOther
  by_cases hSame : slot = j
  · subst hSame
    obtain ⟨hLt, -⟩ := List.getElem?_eq_some_iff.1 hHeld
    rw [List.getElem?_set_self hLt] at hj
    exact Or.inl (Option.some.inj hj).symm
  · rw [List.getElem?_set_ne hSame] at hj
    refine Or.inr ⟨List.mem_of_getElem? hj, fun hLanguage => hSame ?_⟩
    obtain ⟨hLt, -⟩ := List.getElem?_eq_some_iff.1 hHeld
    refine (List.getElem?_inj (by simpa using hLt) hNodup).1 ?_
    rw [List.getElem?_map, List.getElem?_map, hHeld, hj, Option.map_some, Option.map_some,
      hLanguage]

/-- A change of a slot that keeps its language keeps all languages. -/
lemma map_language_set {slots : List Slot} {slot : Nat} {held changed : Slot}
    (hHeld : slots[slot]? = some held) (hLanguage : changed.language = held.language) :
    (slots.set slot changed).map Slot.language = slots.map Slot.language := by
  obtain ⟨hLt, rfl⟩ := List.getElem?_eq_some_iff.1 hHeld
  have hLtMap : slot < (slots.map Slot.language).length := by simpa using hLt
  rw [List.map_set, hLanguage, ← List.getElem_map Slot.language (h := hLtMap),
    List.set_getElem_self]

end Slot

/-! ## Callers -/

namespace Caller

variable {caller : Caller} {slot attempt : Nat} {language : Language}

/-- A caller that waits is at its slot. -/
lemma slot?_of_waiting (h : caller.phase = .waiting slot) : caller.slot? = some slot := by
  simp [slot?, h]

/-- A caller that makes an attempt is at its slot. -/
lemma slot?_of_acquiring (h : caller.phase = .acquiring slot attempt) :
    caller.slot? = some slot := by
  simp [slot?, h]

/-- A caller acquires exactly while it makes an attempt for the language. -/
lemma acquires_iff : caller.acquires language = true ↔
    caller.language = language ∧ ∃ slot attempt, caller.phase = .acquiring slot attempt := by
  unfold acquires
  cases caller.phase <;> simp

/-- How many steps a caller is away from its answer. -/
def distance (caller : Caller) : Nat :=
  match caller.phase with
  | .idle => 3
  | .waiting _ => 2
  | .acquiring _ _ => 1
  | .answered _ => 0

end Caller

namespace SharedPool

/-! ## Steps -/

/-- What a caller can do: the phase it comes to, and the pool and the slots afterwards. -/
inductive Turn (shared : SharedPool) (caller : Caller) :
    Caller.Phase → ParserPool → List Slot → Prop
  | enter (idle : caller.phase = .idle) :
      Turn shared caller (.waiting (Slot.enter shared.slots caller.language).1) shared.pool
        (Slot.enter shared.slots caller.language).2
  | read {slot : Nat} {held : Slot} {id : ParserId} (waits : caller.phase = .waiting slot)
      (at_slot : shared.slots[slot]? = some held) (parser : held.parser? = some id) :
      Turn shared caller (.answered (.ok id)) shared.pool shared.slots
  | begin {slot : Nat} {held : Slot} (waits : caller.phase = .waiting slot)
      (at_slot : shared.slots[slot]? = some held) (none : held.parser? = none)
      (free : held.busy = false) :
      Turn shared caller (.acquiring slot (shared.pool.attempts.count caller.language))
        { shared.pool with attempts := caller.language :: shared.pool.attempts }
        (shared.slots.set slot { held with busy := true })
  | refused {slot attempt : Nat} {held : Slot} {error : ChunkError}
      (acquires : caller.phase = .acquiring slot attempt)
      (at_slot : shared.slots[slot]? = some held)
      (refusal : shared.pool.provider.refusal? caller.language attempt = some error) :
      Turn shared caller (.answered (.error error)) shared.pool
        (shared.slots.set slot { held with busy := false })
  | built {slot attempt : Nat} {held : Slot}
      (acquires : caller.phase = .acquiring slot attempt)
      (at_slot : shared.slots[slot]? = some held)
      (success : shared.pool.provider.refusal? caller.language attempt = none) :
      Turn shared caller (.answered (.ok shared.pool.parsers.length))
        { shared.pool with parsers := shared.pool.parsers ++ [caller.language] }
        (shared.slots.set slot
          { held with busy := false, parser? := some shared.pool.parsers.length })

/-- A caller takes no step: it is answered, or it waits at a slot where an attempt is under way. -/
def Stays (shared : SharedPool) (caller : Caller) : Prop :=
  caller.answer?.isSome ∨ ∃ slot, caller.slot? = some slot ∧
    ∀ held, shared.slots[slot]? = some held → caller.phase = .waiting slot ∧ held.busy = true

/-- What a caller that waits at a slot does: it takes a turn, or waits on for an attempt. -/
private lemma await_cases (shared : SharedPool) (i : Nat) {caller : Caller} {slot : Nat}
    {held : Slot} (hPhase : caller.phase = .waiting slot)
    (hHeld : shared.slots[slot]? = some held) :
    (shared.await i caller slot held = shared ∧ held.busy = true) ∨
    ∃ phase pool slots, Turn shared caller phase pool slots ∧
      shared.await i caller slot held =
        ⟨pool, slots, shared.callers.set i { caller with phase }⟩ := by
  unfold await
  cases hParser : held.parser? with
  | some id => exact Or.inr ⟨_, _, _, .read hPhase hHeld hParser, rfl⟩
  | none =>
    cases hBusy : held.busy with
    | true => exact Or.inl ⟨rfl, rfl⟩
    | false =>
      refine Or.inr ⟨_, _, _, .begin hPhase hHeld hParser hBusy, ?_⟩
      rw [hParser]
      rfl

/-- What a caller that makes an attempt does: it takes a turn, in which the attempt ends. -/
private lemma conclude_cases (shared : SharedPool) (i : Nat) {caller : Caller} {slot attempt : Nat}
    {held : Slot} (hPhase : caller.phase = .acquiring slot attempt)
    (hHeld : shared.slots[slot]? = some held) :
    ∃ phase pool slots, Turn shared caller phase pool slots ∧
      shared.conclude i caller slot attempt held =
        ⟨pool, slots, shared.callers.set i { caller with phase }⟩ := by
  unfold conclude
  cases hRefusal : shared.pool.provider.refusal? caller.language attempt with
  | some error => exact ⟨_, _, _, .refused hPhase hHeld hRefusal, rfl⟩
  | none => exact ⟨_, _, _, .built hPhase hHeld hRefusal, rfl⟩

/-- **All that a step can do.** Nothing happens as the caller stays, or the caller takes a turn.

**Proof sketch.** By the caller's phase. A caller that is idle enters, and one that is answered
stays. The others are at a slot, and do what `await_cases` and `conclude_cases` say. -/
theorem advance_cases (shared : SharedPool) (i : Nat) :
    (shared.advance i = shared ∧
      ∀ caller, shared.callers[i]? = some caller → shared.Stays caller) ∨
    ∃ caller phase pool slots, shared.callers[i]? = some caller ∧
      Turn shared caller phase pool slots ∧
      shared.advance i = ⟨pool, slots, shared.callers.set i { caller with phase }⟩ := by
  unfold advance
  cases hCaller : shared.callers[i]? with
  | none => exact Or.inl ⟨rfl, by simp⟩
  | some caller =>
    dsimp only
    cases hPhase : caller.phase with
    | idle => exact Or.inr ⟨caller, _, _, _, rfl, .enter hPhase, rfl⟩
    | waiting slot =>
      dsimp only
      cases hHeld : shared.slots[slot]? with
      | none =>
        refine Or.inl ⟨rfl, ?_⟩
        rintro _ ⟨⟩
        exact Or.inr ⟨slot, Caller.slot?_of_waiting hPhase, by simp [hHeld]⟩
      | some held =>
        rcases shared.await_cases i hPhase hHeld with ⟨hSame, hBusy⟩ |
          ⟨phase, pool, slots, hTurn, hNext⟩
        · refine Or.inl ⟨hSame, ?_⟩
          rintro _ ⟨⟩
          exact Or.inr ⟨slot, Caller.slot?_of_waiting hPhase, by simp [hHeld, hPhase, hBusy]⟩
        · exact Or.inr ⟨caller, phase, pool, slots, rfl, hTurn, hNext⟩
    | acquiring slot attempt =>
      dsimp only
      cases hHeld : shared.slots[slot]? with
      | none =>
        refine Or.inl ⟨rfl, ?_⟩
        rintro _ ⟨⟩
        exact Or.inr ⟨slot, Caller.slot?_of_acquiring hPhase, by simp [hHeld]⟩
      | some held =>
        obtain ⟨phase, pool, slots, hTurn, hNext⟩ := shared.conclude_cases i hPhase hHeld
        exact Or.inr ⟨caller, phase, pool, slots, rfl, hTurn, hNext⟩
    | answered result =>
      refine Or.inl ⟨rfl, ?_⟩
      rintro _ ⟨⟩
      exact Or.inl (by simp [Caller.answer?, hPhase])

/-- The callers up to order: the one that takes a step, and the others. -/
lemma exists_perm_cons {callers : List Caller} {i : Nat} {caller : Caller}
    (h : callers[i]? = some caller) :
    ∃ others, callers.Perm (caller :: others) ∧
      ∀ changed, (callers.set i changed).Perm (changed :: others) := by
  obtain ⟨hLt, rfl⟩ := List.getElem?_eq_some_iff.1 h
  refine ⟨callers.take i ++ callers.drop (i + 1), ?_, fun changed => ?_⟩
  · conv_lhs => rw [← List.take_append_drop i callers, List.drop_eq_getElem_cons hLt]
    exact List.perm_middle
  · rw [List.set_eq_take_append_cons_drop, if_pos hLt]
    exact List.perm_middle

/-! ## Mutual exclusion -/

/-- A slot shows the state of its language: it holds the parser that the language has in the pool,
and it is busy exactly while one caller makes an attempt, which there is no parser for. -/
structure Mirrors (pool : ParserPool) (callers : List Caller) (held : Slot) : Prop where
  parser?_eq : held.parser? = pool.parsers.idxOf? held.language
  countP_acquires : callers.countP (Caller.acquires held.language) = if held.busy then 1 else 0
  none_of_busy : held.busy = true → held.parser? = none

/-- A language whose slot is busy has no parser. -/
lemma Mirrors.notMem_parsers {pool : ParserPool} {callers : List Caller} {held : Slot}
    (h : Mirrors pool callers held) (hBusy : held.busy = true) :
    held.language ∉ pool.parsers :=
  List.idxOf?_eq_none_iff.1 (h.parser?_eq.symm.trans (h.none_of_busy hBusy))

/-- The slots of a shared pool are sound: no language has two, they show the state of their
languages, and callers are at the slots of their languages. -/
structure Sound (shared : SharedPool) : Prop where
  nodup : (shared.slots.map Slot.language).Nodup
  mirrors : ∀ held ∈ shared.slots, Mirrors shared.pool shared.callers held
  at_slot : ∀ caller ∈ shared.callers, ∀ slot ∈ caller.slot?,
    (shared.slots.map Slot.language)[slot]? = some caller.language
  parsers_subset : ∀ language ∈ shared.pool.parsers, language ∈ shared.slots.map Slot.language
  count_attempts : ∀ caller ∈ shared.callers, ∀ slot attempt,
    caller.phase = .acquiring slot attempt →
      shared.pool.attempts.count caller.language = attempt + 1

/-- At the start there is no slot. -/
lemma sound_start (provider : Provider) (languages : List Language) :
    (start provider languages).Sound where
  nodup := List.nodup_nil
  mirrors := by simp [start]
  at_slot := by simp [start, Caller.slot?]
  parsers_subset := by simp [start]
  count_attempts := by simp [start]

/-- The order of the callers does not matter. -/
lemma Sound.perm {pool : ParserPool} {slots : List Slot} {callers reordered : List Caller}
    (h : Sound ⟨pool, slots, callers⟩) (hPerm : callers.Perm reordered) :
    Sound ⟨pool, slots, reordered⟩ where
  nodup := h.nodup
  mirrors := by
    intro held hHeld
    obtain ⟨hParser, hCount, hNone⟩ := h.mirrors held hHeld
    exact ⟨hParser, hPerm.countP_eq _ ▸ hCount, hNone⟩
  at_slot := fun caller hMem => h.at_slot caller (hPerm.mem_iff.2 hMem)
  parsers_subset := h.parsers_subset
  count_attempts := fun caller hMem => h.count_attempts caller (hPerm.mem_iff.2 hMem)

/-- A caller is at a slot, which is the one of its language. -/
lemma Sound.exists_slot {shared : SharedPool} (h : shared.Sound) {caller : Caller}
    (hMem : caller ∈ shared.callers) {slot : Nat} (hSlot : caller.slot? = some slot) :
    ∃ held, shared.slots[slot]? = some held ∧ held.language = caller.language := by
  have hAt := h.at_slot caller hMem slot hSlot
  rwa [List.getElem?_map, Option.map_eq_some_iff] at hAt

/-- The slot that a caller is at is the one of its language, and shows its state. -/
lemma Sound.mirrors_at {shared : SharedPool} (h : shared.Sound) {caller : Caller}
    (hMem : caller ∈ shared.callers) {slot : Nat} (hSlot : caller.slot? = some slot) {held : Slot}
    (hHeld : shared.slots[slot]? = some held) :
    held.language = caller.language ∧ Mirrors shared.pool shared.callers held := by
  obtain ⟨found, hFound, hLanguage⟩ := h.exists_slot hMem hSlot
  obtain rfl := Option.some.inj (hFound.symm.trans hHeld)
  exact ⟨hLanguage, h.mirrors found (List.mem_of_getElem? hHeld)⟩

/-- No attempt is made for a language without a slot. -/
lemma Sound.countP_acquires_eq_zero {shared : SharedPool} (h : shared.Sound) {language : Language}
    (hNone : language ∉ shared.slots.map Slot.language) :
    shared.callers.countP (Caller.acquires language) = 0 := by
  refine List.countP_eq_zero.2 fun caller hMem hAcquires => hNone ?_
  obtain ⟨rfl, slot, attempt, hPhase⟩ := Caller.acquires_iff.1 hAcquires
  exact List.mem_of_getElem? (h.at_slot caller hMem slot (Caller.slot?_of_acquiring hPhase))

/-- **Mutual exclusion.** At most one caller makes an attempt for a language, and none does if the
language has a parser.

**Proof sketch.** If the language has a slot, its callers are as many as the slot is busy, and a
busy slot has no parser (`Mirrors.notMem_parsers`). If it has none, nobody is at it. -/
theorem Sound.countP_acquires_le {shared : SharedPool} (h : shared.Sound) (language : Language) :
    shared.callers.countP (Caller.acquires language) ≤ 1 ∧
      (language ∈ shared.pool.parsers →
        shared.callers.countP (Caller.acquires language) = 0) := by
  by_cases hSlot : language ∈ shared.slots.map Slot.language
  · obtain ⟨held, hHeld, rfl⟩ := List.mem_map.1 hSlot
    have hMirrors := h.mirrors held hHeld
    rw [hMirrors.countP_acquires]
    exact ⟨by split <;> omega, fun hMem => if_neg fun hBusy => hMirrors.notMem_parsers hBusy hMem⟩
  · rw [h.countP_acquires_eq_zero hSlot]
    exact ⟨Nat.zero_le _, fun _ => rfl⟩

section Turns

variable {pool : ParserPool} {slots : List Slot} {caller : Caller} {others : List Caller}

/-- A caller that enters finds or adds the slot of its language.

**Proof sketch.** A slot that is there is not changed. A new one is free and without a parser, and
so are its language's callers and parsers, since each of them would be at a slot of the language. -/
private lemma Sound.enter (h : Sound ⟨pool, slots, caller :: others⟩)
    (hPhase : caller.phase = .idle) :
    Sound ⟨pool, (Slot.enter slots caller.language).2,
      { caller with phase := .waiting (Slot.enter slots caller.language).1 } :: others⟩ := by
  have hOthers := List.forall_mem_cons.1 h.at_slot
  rcases Slot.enter_cases slots caller.language with ⟨slot, hSlot, hEnter⟩ | ⟨hNew, hEnter⟩
  · rw [hEnter]
    refine ⟨h.nodup, fun held hHeld => ?_, ?_, h.parsers_subset, ?_⟩
    · obtain ⟨hParser, hCount, hNone⟩ := h.mirrors held hHeld
      exact ⟨hParser, by simpa [Caller.acquires, hPhase] using hCount, hNone⟩
    · exact List.forall_mem_cons.2 ⟨by simpa [Caller.slot?] using hSlot, hOthers.2⟩
    · exact List.forall_mem_cons.2 ⟨by simp, (List.forall_mem_cons.1 h.count_attempts).2⟩
  · rw [hEnter]
    have hCount := h.countP_acquires_eq_zero hNew
    have hParser : caller.language ∉ pool.parsers := fun hMem => hNew (h.parsers_subset _ hMem)
    refine ⟨?_, fun held hHeld => ?_, ?_, ?_, ?_⟩
    · rw [List.map_append, List.map_singleton, ← List.concat_eq_append]
      exact List.Nodup.concat hNew h.nodup
    · rcases List.mem_append.1 hHeld with hOld | hAdded
      · obtain ⟨hParser, hCount, hNone⟩ := h.mirrors held hOld
        exact ⟨hParser, by simpa [Caller.acquires, hPhase] using hCount, hNone⟩
      · rw [List.mem_singleton.1 hAdded]
        refine ⟨(List.idxOf?_eq_none_iff.2 hParser).symm, ?_, by simp⟩
        simpa [Caller.acquires, hPhase] using hCount
    · refine List.forall_mem_cons.2 ⟨by simp [Caller.slot?], fun other hMem slot hSlot => ?_⟩
      have hAt := hOthers.2 other hMem slot hSlot
      rw [List.map_append]
      exact List.getElem?_append_left (List.getElem?_eq_some_iff.1 hAt).1 ▸ hAt
    · intro language hMem
      rw [List.map_append]
      exact List.mem_append_left _ (h.parsers_subset language hMem)
    · exact List.forall_mem_cons.2 ⟨by simp, (List.forall_mem_cons.1 h.count_attempts).2⟩

/-- A caller that gets the parser leaves the slots as they are. -/
private lemma Sound.read (h : Sound ⟨pool, slots, caller :: others⟩) {slot : Nat}
    (hPhase : caller.phase = .waiting slot) (id : ParserId) :
    Sound ⟨pool, slots, { caller with phase := .answered (.ok id) } :: others⟩ := by
  refine ⟨h.nodup, fun held hHeld => ?_, ?_, h.parsers_subset, ?_⟩
  · obtain ⟨hParser, hCount, hNone⟩ := h.mirrors held hHeld
    exact ⟨hParser, by simpa [Caller.acquires, hPhase] using hCount, hNone⟩
  · exact List.forall_mem_cons.2 ⟨by simp [Caller.slot?], (List.forall_mem_cons.1 h.at_slot).2⟩
  · exact List.forall_mem_cons.2 ⟨by simp, (List.forall_mem_cons.1 h.count_attempts).2⟩

/-- An attempt that starts makes the slot busy.

**Proof sketch.** The slot was free, so nobody made an attempt for the language, and its caller is
now the only one; slots of other languages and their callers are not touched. -/
private lemma Sound.begin (h : Sound ⟨pool, slots, caller :: others⟩) {slot : Nat}
    (hPhase : caller.phase = .waiting slot) {held : Slot} (hHeld : slots[slot]? = some held)
    (hNone : held.parser? = none) (hFree : held.busy = false) :
    Sound ⟨{ pool with attempts := caller.language :: pool.attempts },
      slots.set slot { held with busy := true },
      { caller with
        phase := .acquiring slot (pool.attempts.count caller.language) } :: others⟩ := by
  have hSlot := Caller.slot?_of_waiting hPhase
  obtain ⟨hLanguage, hMirrors⟩ := h.mirrors_at List.mem_cons_self hSlot hHeld
  have hLanguages : (slots.set slot { held with busy := true }).map Slot.language =
      slots.map Slot.language := Slot.map_language_set hHeld rfl
  have hCount : others.countP (Caller.acquires caller.language) = 0 := by
    simpa [Caller.acquires, hPhase, hFree, hLanguage] using hMirrors.countP_acquires
  refine ⟨hLanguages ▸ h.nodup, fun other hOther => ?_, ?_, ?_, ?_⟩
  · rcases Slot.mem_set h.nodup hHeld hOther with rfl | ⟨hOld, hOther⟩
    · refine ⟨hMirrors.parser?_eq, ?_, fun _ => hNone⟩
      simp [Caller.acquires, hLanguage, hCount]
    · obtain ⟨hParser, hCount, hNone⟩ := h.mirrors other hOld
      refine ⟨hParser, ?_, hNone⟩
      rw [hLanguage] at hOther
      simpa [Caller.acquires, hPhase, Ne.symm hOther] using hCount
  · rw [hLanguages]
    have hCaller := h.at_slot caller List.mem_cons_self slot hSlot
    exact List.forall_mem_cons.2
      ⟨by simpa [Caller.slot?] using hCaller, (List.forall_mem_cons.1 h.at_slot).2⟩
  · rw [hLanguages]
    exact h.parsers_subset
  · refine List.forall_mem_cons.2 ⟨by simp, fun other hMem slot attempt hOther => ?_⟩
    have hAttempts := (List.forall_mem_cons.1 h.count_attempts).2 other hMem slot attempt hOther
    have hApart : caller.language ≠ other.language := by
      intro hEq
      exact List.countP_eq_zero.1 hCount other hMem
        (Caller.acquires_iff.2 ⟨hEq.symm, slot, attempt, hOther⟩)
    simpa [List.count_cons, hApart] using hAttempts

/-- An attempt is made for a language without a parser, and no other caller makes one. -/
lemma Sound.acquiring (h : Sound ⟨pool, slots, caller :: others⟩) {slot attempt : Nat}
    (hPhase : caller.phase = .acquiring slot attempt) {held : Slot}
    (hHeld : slots[slot]? = some held) :
    held.language = caller.language ∧ caller.language ∉ pool.parsers ∧
      others.countP (Caller.acquires caller.language) = 0 := by
  obtain ⟨hLanguage, hMirrors⟩ :=
    h.mirrors_at List.mem_cons_self (Caller.slot?_of_acquiring hPhase) hHeld
  have hAcquires := Caller.acquires_iff.2 ⟨rfl, slot, attempt, hPhase⟩
  have hCount := hMirrors.countP_acquires
  rw [hLanguage, List.countP_cons_of_pos hAcquires] at hCount
  have hBusy : held.busy = true := by
    by_contra hFree
    simp [hFree] at hCount
  exact ⟨hLanguage, hLanguage ▸ hMirrors.notMem_parsers hBusy, by simpa [hBusy] using hCount⟩

/-- An attempt that ends makes the slot free. The slot shows the parser that the language has then,
and other languages keep what they have.

**Proof sketch.** The caller was the only one that made an attempt for the language, so none is left
at the slot. Slots of other languages show what they showed, as those languages keep their parsers.
-/
private lemma Sound.conclude (h : Sound ⟨pool, slots, caller :: others⟩) {slot attempt : Nat}
    (hPhase : caller.phase = .acquiring slot attempt) {held : Slot}
    (hHeld : slots[slot]? = some held) (result : Except ChunkError ParserId)
    {parser? : Option ParserId} {parsers : List Language}
    (hParser : parser? = parsers.idxOf? caller.language)
    (hOther : ∀ language, language ≠ caller.language →
      parsers.idxOf? language = pool.parsers.idxOf? language) :
    Sound ⟨{ pool with parsers }, slots.set slot ⟨held.language, false, parser?⟩,
      { caller with phase := .answered result } :: others⟩ := by
  obtain ⟨hLanguage, -, hCount⟩ := h.acquiring hPhase hHeld
  have hLanguages : (slots.set slot ⟨held.language, false, parser?⟩).map Slot.language =
      slots.map Slot.language := Slot.map_language_set hHeld rfl
  refine ⟨hLanguages ▸ h.nodup, fun other hMem => ?_, ?_, ?_, ?_⟩
  · rcases Slot.mem_set h.nodup hHeld hMem with rfl | ⟨hOld, hApart⟩
    · exact ⟨hLanguage ▸ hParser, by simpa [Caller.acquires, hLanguage] using hCount, by simp⟩
    · obtain ⟨hParser, hCount, hNone⟩ := h.mirrors other hOld
      rw [hLanguage] at hApart
      refine ⟨hParser.trans (hOther _ hApart).symm, ?_, hNone⟩
      simpa [Caller.acquires, hPhase, Ne.symm hApart] using hCount
  · rw [hLanguages]
    exact List.forall_mem_cons.2 ⟨by simp [Caller.slot?], (List.forall_mem_cons.1 h.at_slot).2⟩
  · intro language hMem
    rw [hLanguages]
    by_cases hSame : language = caller.language
    · rw [hSame, ← hLanguage]
      exact List.mem_map_of_mem (List.mem_of_getElem? hHeld)
    · refine h.parsers_subset language ?_
      by_contra hNot
      have hNone := List.idxOf?_eq_none_iff.2 hNot
      rw [← hOther language hSame, List.idxOf?_eq_none_iff] at hNone
      exact hNone hMem
  · exact List.forall_mem_cons.2 ⟨by simp, (List.forall_mem_cons.1 h.count_attempts).2⟩

/-- **A turn keeps the slots sound.** -/
theorem Sound.turn (h : Sound ⟨pool, slots, caller :: others⟩) {callers : List Caller}
    {phase : Caller.Phase} {poolAfter : ParserPool} {slotsAfter : List Slot}
    (hTurn : Turn ⟨pool, slots, callers⟩ caller phase poolAfter slotsAfter) :
    Sound ⟨poolAfter, slotsAfter, { caller with phase } :: others⟩ := by
  cases hTurn with
  | enter hPhase => exact h.enter hPhase
  | @read _ _ id hPhase _ _ => exact h.read hPhase id
  | begin hPhase hHeld hNone hFree => exact h.begin hPhase hHeld hNone hFree
  | @refused _ _ held error hPhase hHeld _ =>
    obtain ⟨hLanguage, hParser, -, -⟩ :=
      h.mirrors_at List.mem_cons_self (Caller.slot?_of_acquiring hPhase) hHeld
    exact h.conclude hPhase hHeld (.error error) (hLanguage ▸ hParser) fun _ _ => rfl
  | built hPhase hHeld _ =>
    obtain ⟨-, hNone, -⟩ := h.acquiring hPhase hHeld
    refine h.conclude hPhase hHeld _ ?_ fun language hOther => ?_
    · rw [ParserPool.idxOf?_concat, List.idxOf?_eq_none_iff.2 hNone, if_pos rfl]
      rfl
    · rw [ParserPool.idxOf?_concat, if_neg (Ne.symm hOther), Option.or_none]

end Turns

/-! ## Runs -/

/-- **A step keeps the slots sound.** -/
theorem Sound.advance {shared : SharedPool} (h : shared.Sound) (i : Nat) :
    (shared.advance i).Sound := by
  rcases shared.advance_cases i with ⟨hSame, -⟩ |
    ⟨caller, phase, pool, slots, hCaller, hTurn, hAdvance⟩
  · rwa [hSame]
  · obtain ⟨others, hBefore, hAfter⟩ := exists_perm_cons hCaller
    rw [hAdvance]
    exact ((h.perm hBefore).turn hTurn).perm (hAfter _).symm

/-- Slots stay sound along every schedule. -/
theorem Sound.run (schedule : List Nat) :
    ∀ {shared : SharedPool}, shared.Sound → (shared.run schedule).Sound := by
  induction schedule with
  | nil => exact fun h => h
  | cons i rest ih => exact fun h => ih (h.advance i)

/-- Once a language has a parser, a step starts no attempt for it. -/
private lemma Sound.count_attempts_advance {shared : SharedPool} (h : shared.Sound)
    {language : Language} (hParser : language ∈ shared.pool.parsers) (i : Nat) :
    language ∈ (shared.advance i).pool.parsers ∧
      (shared.advance i).pool.attempts.count language = shared.pool.attempts.count language := by
  rcases shared.advance_cases i with ⟨hSame, -⟩ |
    ⟨caller, phase, pool, slots, hCaller, hTurn, hAdvance⟩
  · rw [hSame]
    exact ⟨hParser, rfl⟩
  · rw [hAdvance]
    cases hTurn with
    | enter | read | refused => exact ⟨hParser, rfl⟩
    | @begin slot held hPhase hHeld hNone hFree =>
      refine ⟨hParser, List.count_cons_of_ne ?_⟩
      rintro rfl
      obtain ⟨hLanguage, hShown, -, -⟩ :=
        h.mirrors_at (List.mem_of_getElem? hCaller) (Caller.slot?_of_waiting hPhase) hHeld
      rw [hNone, hLanguage] at hShown
      exact List.idxOf?_eq_none_iff.1 hShown.symm hParser
    | built => exact ⟨List.mem_append_left _ hParser, rfl⟩

/-- Once a language has a parser, no attempt is started for it, however long callers go on.

**Proof sketch.** Induction on the schedule: a turn starts no attempt for a language with a parser,
and the language keeps it. -/
theorem Sound.count_attempts_run {language : Language} (schedule : List Nat) :
    ∀ {shared : SharedPool}, shared.Sound → language ∈ shared.pool.parsers →
      (shared.run schedule).pool.attempts.count language =
        shared.pool.attempts.count language := by
  induction schedule with
  | nil => exact fun _ _ => rfl
  | cons i rest ih =>
    intro shared h hParser
    obtain ⟨hKept, hCount⟩ := h.count_attempts_advance hParser i
    exact (ih (h.advance i) hKept).trans hCount

/-! ## Progress -/

/-- A turn brings a caller closer to its answer. -/
private lemma Turn.distance_lt {shared : SharedPool} {caller : Caller} {phase : Caller.Phase}
    {pool : ParserPool} {slots : List Slot} (h : Turn shared caller phase pool slots) :
    Caller.distance { caller with phase } < caller.distance := by
  cases h with
  | enter hPhase | read hPhase | begin hPhase | refused hPhase | built hPhase =>
    simp [Caller.distance, hPhase]

/-- A caller that makes an attempt does not stay. -/
private lemma Sound.not_stays_of_acquires {shared : SharedPool} (h : shared.Sound) {caller : Caller}
    (hMem : caller ∈ shared.callers) {language : Language}
    (hAcquires : caller.acquires language = true) : ¬shared.Stays caller := by
  obtain ⟨-, slot, attempt, hPhase⟩ := Caller.acquires_iff.1 hAcquires
  have hSlot := Caller.slot?_of_acquiring hPhase
  obtain ⟨held, hHeld, -⟩ := h.exists_slot hMem hSlot
  rintro (hAnswered | ⟨place, hPlace, hWaits⟩)
  · simp [Caller.answer?, hPhase] at hAnswered
  · obtain rfl : slot = place := Option.some.inj (hSlot.symm.trans hPlace)
    obtain ⟨hWaiting, -⟩ := hWaits held hHeld
    rw [hPhase] at hWaiting
    cases hWaiting

/-- **No deadlock.** If a caller has no answer, some caller does not stay: if the one waits for an
attempt, the caller that makes the attempt goes on. -/
theorem Sound.exists_not_stays {shared : SharedPool} (h : shared.Sound) {caller : Caller}
    (hMem : caller ∈ shared.callers) (hOpen : caller.answer? = none) :
    ∃ other ∈ shared.callers, ¬shared.Stays other := by
  by_cases hStays : shared.Stays caller
  · obtain hAnswered | ⟨slot, hSlot, hWaits⟩ := hStays
    · simp [hOpen] at hAnswered
    · obtain ⟨held, hHeld, -⟩ := h.exists_slot hMem hSlot
      obtain ⟨-, -, hCount, -⟩ := h.mirrors_at hMem hSlot hHeld
      rw [if_pos (hWaits held hHeld).2] at hCount
      obtain ⟨other, hOther, hAcquires⟩ := List.countP_pos_iff.1 (hCount ▸ Nat.one_pos)
      exact ⟨other, hOther, h.not_stays_of_acquires hOther hAcquires⟩
  · exact ⟨caller, hMem, hStays⟩

/-- The callers are together so many steps away from their answers. -/
def remaining (shared : SharedPool) : Nat := (shared.callers.map Caller.distance).sum

/-- If a caller has no answer, some step brings the callers closer to theirs. -/
private lemma Sound.exists_remaining_lt {shared : SharedPool} (h : shared.Sound) {caller : Caller}
    (hMem : caller ∈ shared.callers) (hOpen : caller.answer? = none) :
    ∃ i, (shared.advance i).remaining < shared.remaining := by
  obtain ⟨other, hOther, hNext⟩ := h.exists_not_stays hMem hOpen
  obtain ⟨i, hi⟩ := List.mem_iff_getElem?.1 hOther
  refine ⟨i, ?_⟩
  rcases shared.advance_cases i with ⟨-, hStays⟩ |
    ⟨found, phase, pool, slots, hFound, hTurn, hAdvance⟩
  · exact absurd (hStays other hi) hNext
  · obtain ⟨others, hBefore, hAfter⟩ := exists_perm_cons hFound
    have hCloser := hTurn.distance_lt
    rw [remaining, remaining, hAdvance, ((hAfter _).map Caller.distance).sum_nat,
      (hBefore.map Caller.distance).sum_nat, List.map_cons, List.map_cons, List.sum_cons,
      List.sum_cons]
    omega

/-- Callers with a bound on their remaining steps can all be answered. -/
private lemma Sound.exists_run_answered (bound : Nat) :
    ∀ {shared : SharedPool}, shared.Sound → shared.remaining ≤ bound →
      ∃ later, ∀ caller ∈ (shared.run later).callers, caller.answer?.isSome := by
  induction bound with
  | zero =>
    intro shared h hBound
    refine ⟨[], fun caller hMem => Option.isSome_iff_ne_none.2 fun hOpen => ?_⟩
    obtain ⟨i, hLess⟩ := h.exists_remaining_lt hMem hOpen
    omega
  | succ bound ih =>
    intro shared h hBound
    by_cases hAll : ∀ caller ∈ shared.callers, caller.answer?.isSome
    · exact ⟨[], hAll⟩
    · push Not at hAll
      obtain ⟨caller, hMem, hOpen⟩ := hAll
      obtain ⟨i, hLess⟩ := h.exists_remaining_lt hMem (by simpa using hOpen)
      obtain ⟨later, hLater⟩ := ih (h.advance i) (by omega)
      exact ⟨i :: later, hLater⟩

/-- **Everyone can be answered.** Wherever a schedule has led, it can go on so that all callers get
their answers.

**Proof sketch.** Every schedule leaves the slots sound, and from there some caller that waits for
an answer can always take a turn that leads on, until none waits (`Sound.exists_run_answered`). -/
theorem exists_run_answered (provider : Provider) (languages : List Language)
    (schedule : List Nat) :
    ∃ later, ∀ caller ∈ ((start provider languages).run (schedule ++ later)).callers,
      caller.answer?.isSome := by
  obtain ⟨later, hLater⟩ :=
    Sound.exists_run_answered _ ((sound_start provider languages).run schedule) (Nat.le_refl _)
  refine ⟨later, ?_⟩
  rwa [run, List.foldl_append]

end SharedPool

end CodeAtlas
