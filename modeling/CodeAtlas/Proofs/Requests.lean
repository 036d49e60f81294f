import Mathlib.Data.List.Induction
import Mathlib.Data.List.Nodup
import CodeAtlas.Parser.Pool

/-!
# Requests to a parser pool

Whoever asks a pool for a parser gets an answer: a parser, or why there is none. All that a pool is
can be told from the answers it has given. A language has been tried once for each error and once
more if it has a parser, its errors are those of its first attempts, and all parsers given out for
it are the one it has.

## Main definitions

* `CodeAtlas.ParserPool.Answer` — a language and what was answered for it.
* `CodeAtlas.ParserPool.after`, `CodeAtlas.ParserPool.answersTo` — the pool after requests, one
  after the other, and the answers to them.
* `CodeAtlas.ParserPool.errors`, `CodeAtlas.ParserPool.given` — the errors and the parsers among the
  answers for a language.
* `CodeAtlas.ParserPool.Accounts` — a pool is in the state that its answers tell.

## Main results

* `CodeAtlas.ParserPool.request_cases` — the three ways in which a request ends.
* `CodeAtlas.ParserPool.Accounts.parser` — a request and its answer keep the accounts.
* `CodeAtlas.ParserPool.Accounts.after` — any requests, one after the other, do so.
-/

set_option autoImplicit false

namespace CodeAtlas.ParserPool

/-- A language and what was answered to the request for its parser. -/
abbrev Answer : Type := Language × Except ChunkError ParserId

/-- The error of an answer for a language, if it is one. -/
def Answer.error? (language : Language) : Answer → Option ChunkError
  | (asked, .error error) => if asked = language then some error else none
  | (_, .ok _) => none

/-- The parser of an answer for a language, if it is one. -/
def Answer.parser? (language : Language) : Answer → Option ParserId
  | (_, .error _) => none
  | (asked, .ok id) => if asked = language then some id else none

/-- The errors among the answers for a language, in order. -/
def errors (language : Language) (answers : List Answer) : List ChunkError :=
  answers.filterMap (Answer.error? language)

/-- The parsers among the answers for a language, in order. -/
def given (language : Language) (answers : List Answer) : List ParserId :=
  answers.filterMap (Answer.parser? language)

/-! ## One request -/

section Request

variable {pool : ParserPool} {language : Language}

/-- If there is a parser already, it is given out and the pool stays as it is. -/
lemma parser_of_idxOf?_eq_some {id : ParserId} (h : pool.parsers.idxOf? language = some id) :
    pool.parser language = ⟨.ok id, pool, []⟩ := by
  simp [parser, h]

/-- An attempt that fails is counted, and nothing else is kept of it. -/
lemma parser_of_refusal?_eq_some (hParser : language ∉ pool.parsers) {error : ChunkError}
    (h : pool.provider.refusal? language (pool.attempts.count language) = some error) :
    pool.parser language = ⟨.error error, { pool with attempts := language :: pool.attempts },
      [attemptRecord language]⟩ := by
  simp [parser, List.idxOf?_eq_none_iff.2 hParser, h]

/-- An attempt that succeeds is counted, and its parser is kept. -/
lemma parser_of_refusal?_eq_none (hParser : language ∉ pool.parsers)
    (h : pool.provider.refusal? language (pool.attempts.count language) = none) :
    pool.parser language = ⟨.ok pool.parsers.length,
      { pool with
        attempts := language :: pool.attempts
        parsers := pool.parsers ++ [language] }, [attemptRecord language]⟩ := by
  simp [parser, List.idxOf?_eq_none_iff.2 hParser, h]

end Request

/-- **A request ends in one of three ways:** there is a parser, an attempt fails, or it succeeds. -/
theorem request_cases (pool : ParserPool) (language : Language) :
    (∃ id, pool.parsers.idxOf? language = some id) ∨
    (language ∉ pool.parsers ∧ ∃ error,
      pool.provider.refusal? language (pool.attempts.count language) = some error) ∨
    (language ∉ pool.parsers ∧
      pool.provider.refusal? language (pool.attempts.count language) = none) := by
  cases hParser : pool.parsers.idxOf? language with
  | some id => exact Or.inl ⟨id, rfl⟩
  | none =>
    rw [List.idxOf?_eq_none_iff] at hParser
    cases hRefusal : pool.provider.refusal? language (pool.attempts.count language) with
    | some error => exact Or.inr (Or.inl ⟨hParser, error, rfl⟩)
    | none => exact Or.inr (Or.inr ⟨hParser, rfl⟩)

/-- A request does not change the provider. -/
@[simp] lemma provider_request (pool : ParserPool) (language : Language) :
    (pool.parser language).pool.provider = pool.provider := by
  rcases pool.request_cases language with ⟨_, h⟩ | ⟨hNone, _, h⟩ | ⟨hNone, h⟩
  · rw [parser_of_idxOf?_eq_some h]
  · rw [parser_of_refusal?_eq_some hNone h]
  · rw [parser_of_refusal?_eq_none hNone h]

/-! ## Many requests -/

/-- The pool after requests, one after the other. -/
def after (pool : ParserPool) (languages : List Language) : ParserPool :=
  (pool.parsersFor languages).2.1

/-- The requests with their answers. -/
def answersTo (pool : ParserPool) (languages : List Language) : List Answer :=
  languages.zip (pool.parsersFor languages).1

@[simp] lemma after_nil (pool : ParserPool) : pool.after [] = pool := rfl

@[simp] lemma after_cons (pool : ParserPool) (language : Language) (rest : List Language) :
    pool.after (language :: rest) = (pool.parser language).pool.after rest := rfl

@[simp] lemma answersTo_nil (pool : ParserPool) : pool.answersTo [] = [] := rfl

@[simp] lemma answersTo_cons (pool : ParserPool) (language : Language) (rest : List Language) :
    pool.answersTo (language :: rest) =
      (language, (pool.parser language).result) :: (pool.parser language).pool.answersTo rest := rfl

/-- Requests in two parts leave what the later ones leave behind the earlier ones. -/
lemma after_append (languages later : List Language) :
    ∀ pool : ParserPool, pool.after (languages ++ later) = (pool.after languages).after later := by
  induction languages with
  | nil => exact fun pool => rfl
  | cons language rest ih => exact fun pool => ih _

/-- Requests in two parts are answered one part after the other. -/
lemma answersTo_append (languages later : List Language) :
    ∀ pool : ParserPool, pool.answersTo (languages ++ later) =
      pool.answersTo languages ++ (pool.after languages).answersTo later := by
  induction languages with
  | nil => exact fun pool => rfl
  | cons language rest ih =>
    intro pool
    rw [List.cons_append, answersTo_cons, ih]
    rfl

/-- Answers come with the languages that were asked for. -/
lemma map_fst_answersTo (languages : List Language) :
    ∀ pool : ParserPool, (pool.answersTo languages).map Prod.fst = languages := by
  induction languages with
  | nil => exact fun _ => rfl
  | cons language rest ih =>
    intro pool
    rw [answersTo_cons, List.map_cons, ih]

/-- Requests do not change the provider. -/
@[simp] lemma provider_after (languages : List Language) :
    ∀ pool : ParserPool, (pool.after languages).provider = pool.provider := by
  induction languages with
  | nil => exact fun pool => rfl
  | cons language rest ih =>
    intro pool
    rw [after_cons, ih, provider_request]

/-- Where a language stands when one more has got a parser. -/
lemma idxOf?_concat (parsers : List Language) (language asked : Language) :
    (parsers ++ [language]).idxOf? asked =
      (parsers.idxOf? asked).or (if language = asked then some parsers.length else none) := by
  rw [List.idxOf?, List.findIdx?_append, List.findIdx?_singleton]
  by_cases h : language = asked <;> simp [h]

/-! ## Accounts -/

/-- A pool is in the state that its answers tell. -/
structure Accounts (pool : ParserPool) (answers : List Answer) : Prop where
  /-- No language has two parsers. -/
  nodup : pool.parsers.Nodup
  /-- A parser that was given out for a language is the one it has. -/
  idxOf?_eq : ∀ language, ∀ id ∈ given language answers, pool.parsers.idxOf? language = some id
  /-- A parser that was built was given out. -/
  given_ne_nil : ∀ language ∈ pool.parsers, given language answers ≠ []
  /-- A language was tried once for each error, and once more if it has a parser. -/
  count_attempts : ∀ language, pool.attempts.count language =
    (errors language answers).length + if language ∈ pool.parsers then 1 else 0
  /-- The errors for a language are those of its first attempts. -/
  errors_eq : ∀ language, (errors language answers).map some =
    (List.range (errors language answers).length).map (pool.provider.refusal? language)
  /-- The attempt behind those that failed succeeded, if there is a parser. -/
  refusal?_eq_none : ∀ language ∈ pool.parsers,
    pool.provider.refusal? language (errors language answers).length = none

/-- A fresh pool has given no answer. -/
lemma accounts_nil (provider : Provider) : Accounts { provider } [] where
  nodup := List.nodup_nil
  idxOf?_eq := by simp [given]
  given_ne_nil := by simp
  count_attempts := by simp [errors]
  errors_eq := by simp [errors]
  refusal?_eq_none := by simp

@[simp] lemma errors_append_ok (language asked : Language) (answers : List Answer)
    (id : ParserId) : errors language (answers ++ [(asked, .ok id)]) = errors language answers := by
  simp [errors, Answer.error?]

@[simp] lemma given_append_ok (language asked : Language) (answers : List Answer)
    (id : ParserId) :
    given language (answers ++ [(asked, .ok id)]) =
      given language answers ++ if asked = language then [id] else [] := by
  by_cases h : asked = language <;> simp [given, Answer.parser?, h]

@[simp] lemma given_append_error (language asked : Language) (answers : List Answer)
    (error : ChunkError) :
    given language (answers ++ [(asked, .error error)]) = given language answers := by
  simp [given, Answer.parser?]

@[simp] lemma errors_append_error (language asked : Language) (answers : List Answer)
    (error : ChunkError) :
    errors language (answers ++ [(asked, .error error)]) =
      errors language answers ++ if asked = language then [error] else [] := by
  by_cases h : asked = language <;> simp [errors, Answer.error?, h]

/-- Each answer for a language is an error or a parser. -/
lemma count_eq_errors_add_given (language : Language) (answers : List Answer) :
    (answers.map Prod.fst).count language =
      (errors language answers).length + (given language answers).length := by
  induction answers using List.reverseRecOn with
  | nil => rfl
  | append_singleton answers answer ih =>
    obtain ⟨asked, error | id⟩ := answer
    · rw [List.map_append, List.count_append, ih, errors_append_error, given_append_error]
      by_cases h : asked = language <;> simp [h]
      omega
    · rw [List.map_append, List.count_append, ih, errors_append_ok, given_append_ok]
      by_cases h : asked = language <;> simp [h]
      omega

variable {pool : ParserPool} {answers : List Answer}

/-- A pool without a parser for a language has tried it once for each error. -/
lemma Accounts.count_of_notMem (h : Accounts pool answers) {language : Language}
    (hParser : language ∉ pool.parsers) :
    pool.attempts.count language = (errors language answers).length := by
  rw [h.count_attempts, if_neg hParser, Nat.add_zero]

/-- A parser that is given out again keeps the accounts. -/
private lemma Accounts.given_again (h : Accounts pool answers) {language : Language} {id : ParserId}
    (hParser : pool.parsers.idxOf? language = some id) :
    Accounts pool (answers ++ [(language, .ok id)]) where
  nodup := h.nodup
  idxOf?_eq := by
    intro asked found hMem
    rw [given_append_ok, List.mem_append] at hMem
    rcases hMem with hOld | hNew
    · exact h.idxOf?_eq asked found hOld
    · split at hNew
      · next hAsked =>
        rw [← hAsked, List.mem_singleton.1 hNew]
        exact hParser
      · simp at hNew
  given_ne_nil := by
    intro asked hAsked
    rw [given_append_ok]
    exact List.append_ne_nil_of_left_ne_nil (h.given_ne_nil asked hAsked) _
  count_attempts := by simpa using h.count_attempts
  errors_eq := by simpa using h.errors_eq
  refusal?_eq_none := by simpa using h.refusal?_eq_none

/-- An attempt that fails keeps the accounts.

**Proof sketch.** The attempt that failed is one more for the language, and so is its error. The
language still has no parser, and the error is the one that the provider gives at an attempt of this
number. -/
private lemma Accounts.refused (h : Accounts pool answers) {language : Language}
    (hParser : language ∉ pool.parsers) {error : ChunkError}
    (hRefusal : pool.provider.refusal? language (pool.attempts.count language) = some error) :
    Accounts { pool with attempts := language :: pool.attempts }
      (answers ++ [(language, .error error)]) where
  nodup := h.nodup
  idxOf?_eq := by simpa using h.idxOf?_eq
  given_ne_nil := by simpa using h.given_ne_nil
  count_attempts := by
    intro asked
    have hCount := h.count_attempts asked
    simp only [errors_append_error, List.length_append, List.count_cons, beq_iff_eq]
    split <;> simp <;> omega
  errors_eq := by
    intro asked
    have hErrors := h.errors_eq asked
    rw [errors_append_error]
    split
    · next hAsked =>
      subst hAsked
      rw [h.count_of_notMem hParser] at hRefusal
      simp [List.range_succ, hErrors, hRefusal]
    · simpa using hErrors
  refusal?_eq_none := by
    intro asked hAsked
    have hOther : language ≠ asked := fun hEq => hParser (hEq ▸ hAsked)
    simpa [hOther] using h.refusal?_eq_none asked hAsked

/-- An attempt that succeeds keeps the accounts.

**Proof sketch.** A parser of the language is new, so the list of parsers stays without duplicates,
and what was given before is found at its old index. The attempt that succeeded is the one more than
there are errors. -/
private lemma Accounts.built (h : Accounts pool answers) {language : Language}
    (hParser : language ∉ pool.parsers)
    (hRefusal : pool.provider.refusal? language (pool.attempts.count language) = none) :
    Accounts
      { pool with
        attempts := language :: pool.attempts
        parsers := pool.parsers ++ [language] }
      (answers ++ [(language, .ok pool.parsers.length)]) where
  nodup := by
    rw [← List.concat_eq_append]
    exact List.Nodup.concat hParser h.nodup
  idxOf?_eq := by
    intro asked id hMem
    rw [given_append_ok, List.mem_append] at hMem
    rw [idxOf?_concat]
    rcases hMem with hOld | hNew
    · rw [h.idxOf?_eq asked id hOld]
      rfl
    · split at hNew
      · next hAsked =>
        subst hAsked
        rw [List.idxOf?_eq_none_iff.2 hParser, List.mem_singleton.1 hNew, if_pos rfl]
        rfl
      · simp at hNew
  given_ne_nil := by
    intro asked hAsked
    rw [given_append_ok]
    rcases List.mem_append.1 hAsked with hOld | hNew
    · exact List.append_ne_nil_of_left_ne_nil (h.given_ne_nil asked hOld) _
    · rw [List.mem_singleton.1 hNew]
      simp
  count_attempts := by
    intro asked
    have hCount := h.count_attempts asked
    rw [errors_append_ok, List.count_cons, hCount]
    by_cases hAsked : language = asked
    · subst hAsked
      simp [hParser]
    · simp [hAsked, Ne.symm hAsked]
  errors_eq := by simpa using h.errors_eq
  refusal?_eq_none := by
    intro asked hAsked
    rw [errors_append_ok]
    rcases List.mem_append.1 hAsked with hOld | hNew
    · exact h.refusal?_eq_none asked hOld
    · rw [List.mem_singleton.1 hNew, ← h.count_of_notMem hParser]
      exact hRefusal

/-- **A request keeps the accounts,** together with its answer.

**Proof sketch.** One case for each way in which a request ends (`request_cases`). -/
theorem Accounts.parser (h : Accounts pool answers) (language : Language) :
    Accounts (pool.parser language).pool
      (answers ++ [(language, (pool.parser language).result)]) := by
  rcases pool.request_cases language with ⟨id, hParser⟩ | ⟨hNone, error, hRefusal⟩ |
    ⟨hNone, hRefusal⟩
  · rw [parser_of_idxOf?_eq_some hParser]
    exact h.given_again hParser
  · rw [parser_of_refusal?_eq_some hNone hRefusal]
    exact h.refused hNone hRefusal
  · rw [parser_of_refusal?_eq_none hNone hRefusal]
    exact h.built hNone hRefusal

/-- **Any requests keep the accounts:** those made one after the other, together with their
answers.

**Proof sketch.** Induction on the languages, one request at a time (`Accounts.parser`). -/
theorem Accounts.after (languages : List Language) :
    ∀ {pool : ParserPool} {answers : List Answer}, Accounts pool answers →
      Accounts (pool.after languages) (answers ++ pool.answersTo languages) := by
  induction languages with
  | nil =>
    intro pool answers h
    simpa using h
  | cons language rest ih =>
    intro pool answers h
    have hRest := ih (h.parser language)
    rwa [List.append_assoc, List.singleton_append] at hRest

/-! ## What the accounts tell -/

/-- A parser is given out for one language only. -/
lemma Accounts.eq_of_mem_given (h : Accounts pool answers) {language other : Language}
    {id : ParserId} (hId : id ∈ given language answers) (hOther : id ∈ given other answers) :
    other = language := by
  obtain ⟨_, hHere, _⟩ := List.idxOf?_eq_some_iff.1 (h.idxOf?_eq language id hId)
  obtain ⟨_, hThere, _⟩ := List.idxOf?_eq_some_iff.1 (h.idxOf?_eq other id hOther)
  exact hThere.symm.trans hHere

/-- A language has a parser exactly if one was given out for it. -/
lemma Accounts.mem_parsers_iff (h : Accounts pool answers) (language : Language) :
    language ∈ pool.parsers ↔ given language answers ≠ [] := by
  refine ⟨h.given_ne_nil language, fun hSome => ?_⟩
  obtain ⟨id, hId⟩ := List.exists_mem_of_ne_nil _ hSome
  by_contra hNone
  rw [← List.idxOf?_eq_none_iff, h.idxOf?_eq language id hId] at hNone
  cases hNone

/-- A language was tried once for each error, and once more if a parser was given out for it. -/
lemma Accounts.count_eq (h : Accounts pool answers) (language : Language) :
    pool.attempts.count language = (errors language answers).length +
      if given language answers = [] then 0 else 1 := by
  rw [h.count_attempts]
  by_cases hGiven : given language answers = []
  · simp [hGiven, h.mem_parsers_iff]
  · simp [hGiven, h.mem_parsers_iff]

/-- The attempts for a language are those that failed, and behind them the one that succeeded, if
there is a parser. -/
lemma Accounts.map_refusal? (h : Accounts pool answers) (language : Language) :
    (List.range (pool.attempts.count language)).map (pool.provider.refusal? language) =
      (errors language answers).map some ++ if language ∈ pool.parsers then [none] else [] := by
  rw [h.count_attempts, h.errors_eq]
  split
  · next hParser => simp [List.range_succ, h.refusal?_eq_none language hParser]
  · simp

/-- **The errors for a language** are those of the attempts that failed, each of them once. -/
theorem Accounts.errors_eq_filterMap (h : Accounts pool answers) (language : Language) :
    errors language answers =
      (List.range (pool.attempts.count language)).filterMap (pool.provider.refusal? language) := by
  have hMap : (List.range (pool.attempts.count language)).filterMap
      (pool.provider.refusal? language) = ((List.range (pool.attempts.count language)).map
        (pool.provider.refusal? language)).filterMap id := by
    rw [List.filterMap_map]
    rfl
  rw [hMap, h.map_refusal?, List.filterMap_append, List.filterMap_map]
  split <;> simp

/-- **At most one attempt succeeds:** as many as there are parsers for the language. -/
theorem Accounts.countP_isNone (h : Accounts pool answers) (language : Language) :
    (List.range (pool.attempts.count language)).countP
      (fun attempt => (pool.provider.refusal? language attempt).isNone) =
        pool.parsers.count language := by
  have hMap : (List.range (pool.attempts.count language)).countP
      (fun attempt => (pool.provider.refusal? language attempt).isNone) =
        ((List.range (pool.attempts.count language)).map
          (pool.provider.refusal? language)).countP Option.isNone := by
    rw [List.countP_map]
    rfl
  rw [hMap, h.map_refusal?, List.countP_append, List.countP_map, List.Nodup.count h.nodup]
  split <;> simp

end CodeAtlas.ParserPool
