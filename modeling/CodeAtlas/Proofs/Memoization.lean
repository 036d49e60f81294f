import Mathlib.Data.List.Perm.Basic
import CodeAtlas.Proofs.Turns

/-!
# One parser for each language, whoever asks

Callers that run side by side are answered as if they had asked one after the other, in the order in
which they get their answers. So all that is known of requests one after the other holds for them: a
language gets one parser, a failed attempt is reported to the caller that made it and to nobody
else, and a language that has a parser is not tried again.

## Design

The order is built turn by turn: a caller that gets its answer comes last in it, and any other turn
leaves it as it is. The pool is then that of the requests in the order, apart from the attempts
under way. These are counted, but how they end is not known yet.

## Main definitions

* `CodeAtlas.SharedPool.Linearized` — callers are answered as if one after the other.
* `CodeAtlas.SharedPool.Memoized` — what callers can rely on.

## Main results

* `CodeAtlas.SharedPool.Linearized.run` — every run can be put in an order.
* `CodeAtlas.SharedPool.memoized_run` — one parser for each language, along every run.
-/

set_option autoImplicit false

namespace CodeAtlas.SharedPool

open ParserPool (ParserId Answer)

/-! ## Linearization -/

/-- Callers that run side by side are answered as if they had asked a fresh pool one after the
other, in the given order. The pool is in the state after the requests answered so far, and the
attempts under way come on top. -/
structure Linearized (fresh : ParserPool) (shared : SharedPool) (order : List Language) :
    Prop where
  provider_eq : shared.pool.provider = fresh.provider
  answers_perm : (shared.callers.filterMap Caller.answer?).Perm (fresh.answersTo order)
  parsers_eq : shared.pool.parsers = (fresh.after order).parsers
  count_attempts : ∀ language, shared.pool.attempts.count language =
    (fresh.after order).attempts.count language +
      shared.callers.countP (Caller.acquires language)

section Turns

variable {fresh pool : ParserPool} {slots : List Slot} {caller : Caller}
  {others callers : List Caller} {order : List Language}

/-- The order of the callers does not matter. -/
private lemma Linearized.perm {reordered : List Caller}
    (h : Linearized fresh ⟨pool, slots, callers⟩ order) (hPerm : callers.Perm reordered) :
    Linearized fresh ⟨pool, slots, reordered⟩ order where
  provider_eq := h.provider_eq
  answers_perm := (hPerm.filterMap _).symm.trans h.answers_perm
  parsers_eq := h.parsers_eq
  count_attempts := fun language => hPerm.countP_eq _ ▸ h.count_attempts language

/-- A caller that is answered what the next request would be answered comes last in the order. -/
private lemma Linearized.answer (h : Linearized fresh ⟨pool, slots, caller :: others⟩ order)
    (hOpen : caller.answer? = none) {result : Except ChunkError ParserId}
    (hResult : ((fresh.after order).parser caller.language).result = result)
    {poolAfter : ParserPool} (slotsAfter : List Slot)
    (hProvider : poolAfter.provider = pool.provider)
    (hParsers : poolAfter.parsers = ((fresh.after order).parser caller.language).pool.parsers)
    (hCount : ∀ language, poolAfter.attempts.count language =
      ((fresh.after order).parser caller.language).pool.attempts.count language +
        others.countP (Caller.acquires language)) :
    Linearized fresh ⟨poolAfter, slotsAfter, { caller with phase := .answered result } :: others⟩
      (order ++ [caller.language]) where
  provider_eq := hProvider.trans h.provider_eq
  answers_perm := by
    have hPerm := h.answers_perm
    rw [List.filterMap_cons_none hOpen] at hPerm
    rw [ParserPool.answersTo_append, ParserPool.answersTo_cons, hResult]
    exact (hPerm.cons _).trans (List.perm_append_singleton _ _).symm
  parsers_eq := by
    rw [hParsers, ParserPool.after_append, ParserPool.after_cons, ParserPool.after_nil]
  count_attempts := by
    intro language
    rw [hCount, ParserPool.after_append, ParserPool.after_cons, ParserPool.after_nil]
    simp [Caller.acquires]

/-- A caller that goes on without an answer leaves the order as it is. -/
private lemma Linearized.proceed (h : Linearized fresh ⟨pool, slots, caller :: others⟩ order)
    (hOpen : caller.answer? = none) {phase : Caller.Phase}
    (hStill : Caller.answer? { caller with phase } = none) {poolAfter : ParserPool}
    (slotsAfter : List Slot) (hProvider : poolAfter.provider = pool.provider)
    (hParsers : poolAfter.parsers = pool.parsers)
    (hCount : ∀ language, poolAfter.attempts.count language =
      (fresh.after order).attempts.count language +
        ({ caller with phase } :: others).countP (Caller.acquires language)) :
    Linearized fresh ⟨poolAfter, slotsAfter, { caller with phase } :: others⟩ order where
  provider_eq := hProvider.trans h.provider_eq
  answers_perm := by
    have hPerm := h.answers_perm
    rw [List.filterMap_cons_none hOpen] at hPerm
    rwa [List.filterMap_cons_none hStill]
  parsers_eq := hParsers.trans h.parsers_eq
  count_attempts := hCount

/-- The attempts for a language while a caller makes one. -/
lemma Linearized.count_acquiring (h : Linearized fresh ⟨pool, slots, caller :: others⟩ order)
    {slot attempt : Nat} (hPhase : caller.phase = .acquiring slot attempt) (language : Language) :
    pool.attempts.count language =
      (caller.language :: (fresh.after order).attempts).count language +
        others.countP (Caller.acquires language) := by
  have hCount := h.count_attempts language
  simp only [List.countP_cons, Caller.acquires, hPhase] at hCount
  rw [List.count_cons, hCount]
  omega

/-- The attempt that a caller makes ends as that of the next request would. -/
private lemma Linearized.refusal?_next (h : Linearized fresh ⟨pool, slots, caller :: others⟩ order)
    (hSound : Sound ⟨pool, slots, caller :: others⟩) {slot attempt : Nat}
    (hPhase : caller.phase = .acquiring slot attempt)
    (hAlone : others.countP (Caller.acquires caller.language) = 0) :
    (fresh.after order).provider.refusal? caller.language
        ((fresh.after order).attempts.count caller.language) =
      pool.provider.refusal? caller.language attempt := by
  have hCount := h.count_acquiring hPhase caller.language
  have hNumber : pool.attempts.count caller.language = attempt + 1 :=
    hSound.count_attempts caller List.mem_cons_self slot attempt hPhase
  rw [List.count_cons_self, hAlone] at hCount
  have hAttempt : (fresh.after order).attempts.count caller.language = attempt := by omega
  rw [ParserPool.provider_after, ← h.provider_eq, hAttempt]

/-- **A turn can be put in the order.** A caller that is answered comes last, and any other turn
leaves the order as it is.

**Proof sketch.** A turn that answers is the moment at which the caller asks. A parser that is read
is the one of its language, as the slot mirrors the pool; and what a concluded attempt finds is what
the provider says to as many attempts as are concluded, since nobody else makes one for the language
(`Sound.acquiring`). The other turns answer nobody, and the attempt that one of them starts is
counted with the caller that makes it. -/
theorem Linearized.turn (h : Linearized fresh ⟨pool, slots, caller :: others⟩ order)
    (hSound : Sound ⟨pool, slots, caller :: others⟩) {phase : Caller.Phase} {poolAfter : ParserPool}
    {slotsAfter : List Slot}
    (hTurn : Turn ⟨pool, slots, callers⟩ caller phase poolAfter slotsAfter) :
    ∃ later, Linearized fresh ⟨poolAfter, slotsAfter, { caller with phase } :: others⟩
      (order ++ later) := by
  cases hTurn with
  | enter hPhase =>
    refine ⟨[], order.append_nil.symm ▸ h.proceed (by simp [Caller.answer?, hPhase]) rfl _ rfl rfl
      fun language => ?_⟩
    simpa [Caller.acquires, hPhase] using h.count_attempts language
  | @read slot held id hPhase hHeld hParser =>
    obtain ⟨hLanguage, hMirrors⟩ :=
      hSound.mirrors_at List.mem_cons_self (Caller.slot?_of_waiting hPhase) hHeld
    have hId : (fresh.after order).parsers.idxOf? caller.language = some id := by
      rw [← h.parsers_eq, ← hLanguage, ← hMirrors.parser?_eq, hParser]
    have hRequest := ParserPool.parser_of_idxOf?_eq_some hId
    refine ⟨[caller.language], h.answer (by simp [Caller.answer?, hPhase]) ?_ _ rfl ?_ ?_⟩
    · rw [hRequest]
    · rw [hRequest]
      exact h.parsers_eq
    · intro language
      rw [hRequest]
      simpa [Caller.acquires, hPhase] using h.count_attempts language
  | @begin slot held hPhase hHeld hNone hFree =>
    refine ⟨[], order.append_nil.symm ▸ h.proceed (by simp [Caller.answer?, hPhase]) rfl _ rfl rfl
      fun language => ?_⟩
    have hCount : pool.attempts.count language = _ := h.count_attempts language
    rw [List.countP_cons_of_neg (by simp [Caller.acquires, hPhase])] at hCount
    rw [List.countP_cons, List.count_cons, hCount]
    exact Nat.add_assoc _ _ _
  | @refused slot attempt held error hPhase hHeld hRefusal =>
    obtain ⟨-, hNone, hAlone⟩ := hSound.acquiring hPhase hHeld
    have hRequest := ParserPool.parser_of_refusal?_eq_some (h.parsers_eq ▸ hNone)
      ((h.refusal?_next hSound hPhase hAlone).trans hRefusal)
    refine ⟨[caller.language], h.answer (by simp [Caller.answer?, hPhase]) ?_ _ rfl ?_ ?_⟩
    · rw [hRequest]
    · rw [hRequest]
      exact h.parsers_eq
    · rw [hRequest]
      exact h.count_acquiring hPhase
  | @built slot attempt held hPhase hHeld hSuccess =>
    obtain ⟨-, hNone, hAlone⟩ := hSound.acquiring hPhase hHeld
    have hRequest := ParserPool.parser_of_refusal?_eq_none (h.parsers_eq ▸ hNone)
      ((h.refusal?_next hSound hPhase hAlone).trans hSuccess)
    refine ⟨[caller.language], h.answer (by simp [Caller.answer?, hPhase]) ?_ _ rfl ?_ ?_⟩
    · rw [hRequest, ← h.parsers_eq]
    · rw [hRequest, ← h.parsers_eq]
    · rw [hRequest]
      exact h.count_acquiring hPhase

end Turns

/-! ## Runs -/

/-- At the start nobody has been answered. -/
private lemma linearized_start (provider : Provider) (languages : List Language) :
    Linearized { provider } (start provider languages) [] where
  provider_eq := rfl
  answers_perm := by simp [start, Caller.answer?]
  parsers_eq := rfl
  count_attempts := by
    intro language
    rw [(sound_start provider languages).countP_acquires_eq_zero (by simp [start])]
    rfl

/-- **What a step answers comes last in the order.** -/
theorem Linearized.advance {fresh : ParserPool} {shared : SharedPool} {order : List Language}
    (h : Linearized fresh shared order) (hSound : shared.Sound) (i : Nat) :
    ∃ later, Linearized fresh (shared.advance i) (order ++ later) := by
  rcases shared.advance_cases i with ⟨hSame, -⟩ |
    ⟨caller, phase, pool, slots, hCaller, hTurn, hAdvance⟩
  · exact ⟨[], by rwa [hSame, List.append_nil]⟩
  · obtain ⟨others, hBefore, hAfter⟩ := exists_perm_cons hCaller
    obtain ⟨later, hLater⟩ := (h.perm hBefore).turn (hSound.perm hBefore) hTurn
    rw [hAdvance]
    exact ⟨later, hLater.perm (hAfter _).symm⟩

/-- **Linearization.** Whatever the schedule, the callers are answered as if they had asked one
after the other.

**Proof sketch.** Induction on the schedule; a turn adds what it answers at the end of the order,
and keeps the pool sound for the next one. -/
theorem Linearized.run {fresh : ParserPool} (schedule : List Nat) :
    ∀ {shared : SharedPool} {order : List Language}, Linearized fresh shared order →
      shared.Sound → ∃ later, Linearized fresh (shared.run schedule) (order ++ later) := by
  induction schedule with
  | nil => exact fun h _ => ⟨[], by rwa [List.append_nil]⟩
  | cons i rest ih =>
    intro shared order h hSound
    obtain ⟨later, hLater⟩ := h.advance hSound i
    obtain ⟨last, hLast⟩ := ih hLater (hSound.advance i)
    exact ⟨later ++ last, by rwa [← List.append_assoc]⟩

/-- The answers that callers have got. -/
def answers (shared : SharedPool) : List Answer := shared.callers.filterMap Caller.answer?

/-- The number of attempts for a language that have ended. -/
def concluded (shared : SharedPool) (language : Language) : Nat :=
  shared.pool.attempts.count language - shared.callers.countP (Caller.acquires language)

/-- What callers can rely on for a language. -/
structure Memoized (provider : Provider) (shared : SharedPool) (language : Language) : Prop where
  /-- The attempts that succeeded are as many as the parsers built, and these are at most one. -/
  one_succeeds : (List.range (shared.concluded language)).countP
      (fun attempt => (provider.refusal? language attempt).isNone) =
        shared.pool.parsers.count language ∧ shared.pool.parsers.count language ≤ 1
  /-- Whoever gets a parser gets the one that was built. -/
  same : ∀ id ∈ ParserPool.given language shared.answers,
    shared.pool.parsers.idxOf? language = some id
  /-- Once it is built, no attempt is started. -/
  settled : language ∈ shared.pool.parsers → ∀ later,
    (shared.run later).pool.attempts.count language = shared.pool.attempts.count language
  /-- Other languages have other parsers. -/
  distinct : ∀ other, ∀ id ∈ ParserPool.given language shared.answers,
    id ∈ ParserPool.given other shared.answers → other = language
  /-- The error of each failed attempt goes to one caller. -/
  errors_perm : (ParserPool.errors language shared.answers).Perm
    ((List.range (shared.concluded language)).filterMap (provider.refusal? language))
  /-- There is an attempt for each error, one for the parser, and one more if it is under way. -/
  count_attempts : shared.pool.attempts.count language =
    (ParserPool.errors language shared.answers).length +
      (if ParserPool.given language shared.answers = [] then 0 else 1) +
      shared.callers.countP (Caller.acquires language)
  /-- At most one attempt is under way. -/
  one_at_a_time : shared.callers.countP (Caller.acquires language) ≤ 1
  /-- None is under way when all are answered. -/
  none_at_the_end : (∀ caller ∈ shared.callers, caller.answer?.isSome) →
    shared.callers.countP (Caller.acquires language) = 0

/-- If the answers and the pool are those of serial requests, callers can rely on them.

**Proof sketch.** The accounts of serial requests (`ParserPool.Accounts.after`) say all of this of
the order. The answers are a permutation of theirs, the parsers are theirs, and the attempts are
theirs but for one that is still being made; so each count and each membership carries over. What is
only about turns is that of a sound pool. -/
private lemma Linearized.memoized {provider : Provider} {shared : SharedPool}
    {order : List Language} (h : Linearized { provider } shared order) (hSound : shared.Sound)
    (language : Language) :
    Memoized provider shared language := by
  have hAccounts := ParserPool.Accounts.after order (ParserPool.accounts_nil provider)
  have hProvider := ParserPool.provider_after order { provider }
  rw [List.nil_append] at hAccounts
  have hConcluded : shared.concluded language =
      (ParserPool.after { provider } order).attempts.count language := by
    rw [concluded, h.count_attempts, Nat.add_sub_cancel]
  have hErrors : (ParserPool.errors language shared.answers).Perm
      (ParserPool.errors language (ParserPool.answersTo { provider } order)) :=
    h.answers_perm.filterMap _
  have hGiven : ∀ asked, (ParserPool.given asked shared.answers).Perm
      (ParserPool.given asked (ParserPool.answersTo { provider } order)) :=
    fun asked => h.answers_perm.filterMap _
  refine ⟨?_, ?_, ?_, ?_, ?_, ?_, (hSound.countP_acquires_le language).1, ?_⟩
  · have hSucceeded := hAccounts.countP_isNone language
    rw [hProvider] at hSucceeded
    rw [hConcluded, h.parsers_eq]
    exact ⟨hSucceeded, List.nodup_iff_count_le_one.1 hAccounts.nodup language⟩
  · intro id hId
    rw [h.parsers_eq]
    exact hAccounts.idxOf?_eq language id ((hGiven language).mem_iff.1 hId)
  · exact fun hParser later => hSound.count_attempts_run later hParser
  · intro other id hId hOther
    exact hAccounts.eq_of_mem_given ((hGiven language).mem_iff.1 hId)
      ((hGiven other).mem_iff.1 hOther)
  · have hFailed := hAccounts.errors_eq_filterMap language
    rw [hProvider] at hFailed
    rw [hConcluded, ← hFailed]
    exact hErrors
  · have hNil : ParserPool.given language shared.answers = [] ↔
        ParserPool.given language (ParserPool.answersTo { provider } order) = [] := by
      rw [← List.length_eq_zero_iff, (hGiven language).length_eq, List.length_eq_zero_iff]
    rw [h.count_attempts, hAccounts.count_eq, hErrors.length_eq]
    simp only [hNil]
  · intro hAll
    refine List.countP_eq_zero.2 fun caller hMem hAcquires => ?_
    have hAnswered := hAll caller hMem
    obtain ⟨-, slot, attempt, hPhase⟩ := Caller.acquires_iff.1 hAcquires
    simp [Caller.answer?, hPhase] at hAnswered

/-- **One parser for each language.** However many callers ask for whatever languages, in whatever
order they take their steps and whichever attempts fail, they are answered at every point of the run
as if they had asked one after the other, and can rely for each language on what `Memoized` says.
From every point, the run can go on so that all of them are answered.

**Proof sketch.** The slots stay sound along the schedule (`Sound.run`), so the run can be put in
an order (`Linearized.run`), and what is known of serial requests holds of its answers
(`Linearized.memoized`). That nobody is kept waiting is `exists_run_answered`. -/
theorem memoized_run (provider : Provider) (languages : List Language) (schedule : List Nat) :
    (∃ order, ((start provider languages).run schedule).answers.Perm
      (ParserPool.answersTo { provider } order)) ∧
    (∀ language, Memoized provider ((start provider languages).run schedule) language) ∧
    ∃ later, ∀ caller ∈ ((start provider languages).run (schedule ++ later)).callers,
      caller.answer?.isSome := by
  have hSound := (sound_start provider languages).run schedule
  obtain ⟨order, hLinear⟩ :=
    (linearized_start provider languages).run schedule (sound_start provider languages)
  rw [List.nil_append] at hLinear
  exact ⟨⟨order, hLinear.answers_perm⟩, hLinear.memoized hSound,
    exists_run_answered provider languages schedule⟩

-- both callers of one language enter, the attempt of the first fails, and the second tries again
example : ((start (Provider.bundled.failing (· == 0) (.parse "no")) [.rust, .python, .rust]).run
      [0, 1, 2, 0, 2, 1, 0, 2, 1, 2]).answers =
    [(.rust, .error (.parse "no")), (.python, .error (.parse "no")), (.rust, .ok 0)] := by rfl

end CodeAtlas.SharedPool
