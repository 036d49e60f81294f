import Mathlib.Data.List.Basic
import CodeAtlas.Extract.Extractor
import CodeAtlas.Proofs.Numbering
import CodeAtlas.Proofs.Requests

/-!
# Retries do not show in results

A chunker and an extractor keep their parsers between files, and an attempt to get a parser may
fail. If the first attempts for a language fail, the first files that need its parser are cut into
lines, or give their module alone, one file for each attempt. All later files turn out as with a
fresh instance whose attempts never fail. Files that need no parser neither cost an attempt nor
notice that others did.

## Main definitions

* `CodeAtlas.Chunker.request?`, `CodeAtlas.Extractor.request?` — the language whose parser a file
  asks for, if it comes to that.
* `CodeAtlas.Chunker.afterAll`, `CodeAtlas.Extractor.afterAll` — an instance after a session.
* `CodeAtlas.Provider.unfailing` — a provider whose attempts never fail.

## Main results

* `CodeAtlas.ParserPool.state_after`, `CodeAtlas.ParserPool.parser_after` — the pool after requests,
  and the next request, when the first attempts fail.
* `CodeAtlas.Chunker.afterAll_eq`, `CodeAtlas.Extractor.afterAll_eq` — a session is a list of
  requests to the pool.
* `CodeAtlas.results_of_session` — what the calls of a session give.
-/

set_option autoImplicit false

namespace CodeAtlas

/-! ## Requests when the first attempts fail -/

/-- The same provider without any failures. -/
def Provider.unfailing (provider : Provider) : Provider :=
  { provider with refusal? := fun _ _ => none }

namespace ParserPool

section Failing

variable {provider : Provider} {language : Language} {n : Nat}

/-- The errors for a language whose first attempts fail are no more than these attempts, and just as
many if there is a parser. -/
private lemma Accounts.length_errors {pool : ParserPool} {answers : List Answer}
    (h : Accounts pool answers)
    (hFails : ∀ attempt, (pool.provider.refusal? language attempt).isSome ↔ attempt < n) :
    (errors language answers).length ≤ n ∧
      (language ∈ pool.parsers → (errors language answers).length = n) := by
  have hLe : (errors language answers).length ≤ n := by
    by_contra hMore
    rw [Nat.not_le] at hMore
    have hAt := congrArg (fun outcomes => outcomes[n]?) (h.errors_eq language)
    simp only [List.getElem?_map, List.getElem?_range hMore, List.getElem?_eq_getElem hMore,
      Option.map_some, Option.some.injEq] at hAt
    have hSome : (pool.provider.refusal? language n).isSome := by
      rw [← hAt]
      rfl
    exact Nat.lt_irrefl n ((hFails n).1 hSome)
  refine ⟨hLe, fun hParser => ?_⟩
  have hNot : ¬(errors language answers).length < n := by
    rw [← hFails, h.refusal?_eq_none language hParser]
    simp
  omega

/-- **Requests when the first attempts fail.** A language has a parser if it has been asked for more
often than attempts fail, and it is tried until then.

**Proof sketch.** The attempts for the language are as many as its errors and one more if it has a
parser, and a request is answered by an error or a parser. Exactly the first `n` attempts fail, so
there are at most `n` errors, and exactly `n` if there is a parser. -/
theorem state_after (hFails : ∀ attempt, (provider.refusal? language attempt).isSome ↔ attempt < n)
    (languages : List Language) :
    (language ∈ (after { provider } languages).parsers ↔ n < languages.count language) ∧
      (after { provider } languages).attempts.count language =
        min (languages.count language) (n + 1) := by
  have hAccounts := Accounts.after languages (accounts_nil provider)
  rw [List.nil_append] at hAccounts
  have hCount := count_eq_errors_add_given language (answersTo { provider } languages)
  rw [map_fst_answersTo] at hCount
  have hAttempts := hAccounts.count_attempts language
  obtain ⟨hLe, hEq⟩ := hAccounts.length_errors (by simpa using hFails)
  by_cases hParser : language ∈ (after { provider } languages).parsers
  · have hGiven := List.length_pos_iff.2 (hAccounts.given_ne_nil language hParser)
    have hErrors := hEq hParser
    rw [if_pos hParser] at hAttempts
    exact ⟨⟨fun _ => by omega, fun _ => hParser⟩, by omega⟩
  · have hGiven : given language (answersTo { provider } languages) = [] := by
      by_contra hSome
      exact hParser ((hAccounts.mem_parsers_iff language).2 hSome)
    rw [if_neg hParser] at hAttempts
    rw [hGiven, List.length_nil] at hCount
    exact ⟨⟨fun h => absurd h hParser, fun _ => by omega⟩, by omega⟩

/-- **The next request** fails as long as there have been fewer requests than attempts fail, and
succeeds from then on.

**Proof sketch.** `state_after` says whether there is a parser, which is given, and otherwise how
many attempts have been made, which decides how the next one ends. -/
theorem parser_after (hFails : ∀ attempt, (provider.refusal? language attempt).isSome ↔ attempt < n)
    (languages : List Language) :
    (languages.count language < n →
      ∃ error, ((after { provider } languages).parser language).result = .error error) ∧
    (n ≤ languages.count language →
      ∃ id, ((after { provider } languages).parser language).result = .ok id) := by
  obtain ⟨hParser, hCount⟩ := state_after hFails languages
  have hNext : ((after { provider } languages).provider.refusal? language
      ((after { provider } languages).attempts.count language)).isSome ↔
        (after { provider } languages).attempts.count language < n := by
    rw [provider_after]
    exact hFails _
  rcases (after { provider } languages).request_cases language with ⟨id, hFound⟩ |
    ⟨hNone, error, hRefusal⟩ | ⟨hNone, hRefusal⟩
  · have hMem : language ∈ (after { provider } languages).parsers := by
      by_contra hNone
      rw [← List.idxOf?_eq_none_iff, hFound] at hNone
      cases hNone
    have hMany := hParser.1 hMem
    rw [parser_of_idxOf?_eq_some hFound]
    exact ⟨fun hFew => by omega, fun _ => ⟨id, rfl⟩⟩
  · have hFew := mt hParser.2 hNone
    rw [hRefusal] at hNext
    have hEarly := hNext.1 rfl
    rw [parser_of_refusal?_eq_some hNone hRefusal]
    exact ⟨fun _ => ⟨error, rfl⟩, fun hLate => by omega⟩
  · have hFew := mt hParser.2 hNone
    rw [hRefusal] at hNext
    have hLate := mt hNext.2 (by simp)
    rw [parser_of_refusal?_eq_none hNone hRefusal]
    exact ⟨fun hEarly => by omega, fun _ => ⟨_, rfl⟩⟩

end Failing

/-! ## Trees -/

/-- What a grammar makes of a text, or that it gives up. -/
def grammarTree (grammars : Grammars) (language : Language) (text : String) :
    Except ChunkError ParseTree :=
  match grammars language text with
  | some tree => .ok tree
  | none => .error (.parse "Failed to parse source code")

/-- Parsing fails if there is no parser, and depends on the grammar alone otherwise. -/
lemma result_parse (pool : ParserPool) (grammars : Grammars) (language : Language)
    (text : String) :
    (pool.parse grammars language text).result =
      (pool.parser language).result >>= fun _ => grammarTree grammars language text := by
  unfold parse grammarTree
  dsimp only
  cases (pool.parser language).result with
  | error error => rfl
  | ok id => rfl

/-- A file costs a request only if its tree is not at hand. -/
lemma pool_treeOf (pool : ParserPool) (grammars : Grammars) (language : Language) (text : String)
    (tree? : Option ParseTree) :
    (pool.treeOf grammars language text tree?).pool =
      pool.after (if tree?.isSome then none else some language).toList := by
  cases tree? with
  | some root => rfl
  | none => rfl

/-- A pool whose provider never fails parses every text that the grammar can. -/
lemma result_parse_unfailing (provider : Provider) (grammars : Grammars) (language : Language)
    (text : String) :
    (parse { provider := provider.unfailing } grammars language text).result =
      grammarTree grammars language text := by
  rw [result_parse]
  rfl

end ParserPool

/-! ## Chunkers -/

namespace Chunker

/-- The language whose parser a file asks for, if it comes to that: the file is admitted and not
blank, its tree is not at hand, and its language is detected. -/
def request? (provider : Provider) (file : SourceFile) : Option Language :=
  if (skipReason? file.path file.content).isSome ∨ Text.allBlank file.content ∨ file.tree?.isSome
  then none else provider.detect file.path

/-- When a file asks for the parser of a language. -/
private lemma request?_eq_some_iff {provider : Provider} {file : SourceFile} {language : Language} :
    request? provider file = some language ↔
      skipReason? file.path file.content = none ∧ Text.allBlank file.content = false ∧
        file.tree? = none ∧ provider.detect file.path = some language := by
  unfold request?
  cases skipReason? file.path file.content with
  | some reason => simp
  | none =>
    cases Text.allBlank file.content with
    | true => simp
    | false => cases file.tree? <;> simp

/-- The same chunker with fresh parsers of a provider. -/
def renewed (chunker : Chunker) (provider : Provider) : Chunker :=
  { chunker with pool := { provider } }

/-- A chunker after a session in which it has cut files, one after the other. -/
def afterAll (chunker : Chunker) (grammars : Grammars) (files : List SourceFile) : Chunker :=
  files.foldl (fun chunker file => (chunker.chunkFile grammars file).chunker) chunker

/-- A file costs the request for its parser, if it comes to that, and nothing else. -/
lemma chunker_chunkFile (chunker : Chunker) (grammars : Grammars) (file : SourceFile) :
    (chunker.chunkFile grammars file).chunker =
      { chunker with
        pool := chunker.pool.after (request? chunker.pool.provider file).toList } := by
  unfold chunkFile request?
  cases skipReason? file.path file.content with
  | some reason => simp
  | none =>
    cases Text.allBlank file.content with
    | true => simp
    | false =>
      cases chunker.pool.provider.detect file.path with
      | none => simp
      | some language => simp [ParserPool.pool_treeOf]

/-- **A session is a list of requests.**

**Proof sketch.** Induction on the files. A file asks for a parser of its language or, if it is
skipped or cut by lines, for none, and the provider stays the same, so what the later files ask for
does not depend on it. -/
theorem afterAll_eq (grammars : Grammars) (files : List SourceFile) :
    ∀ chunker : Chunker, chunker.afterAll grammars files =
      { chunker with
        pool := chunker.pool.after (files.filterMap (request? chunker.pool.provider)) } := by
  induction files with
  | nil => exact fun _ => rfl
  | cons file rest ih =>
    intro chunker
    show (chunker.chunkFile grammars file).chunker.afterAll grammars rest = _
    rw [ih, chunker_chunkFile]
    simp only [ParserPool.provider_after, ← ParserPool.after_append]
    cases hRequest : request? chunker.pool.provider file with
    | none => simp [hRequest]
    | some language => simp [hRequest]

/-- The chunks of a file that asks for a parser: those that the attempt to parse it leads to. -/
lemma chunks_chunkFile_of_request? {chunker : Chunker} {grammars : Grammars} {file : SourceFile}
    {language : Language} (h : request? chunker.pool.provider file = some language) :
    (chunker.chunkFile grammars file).chunks = Chunk.arrange chunker.budget
      (cut chunker.budget language file
        (chunker.pool.parse grammars language file.content).result).1 := by
  obtain ⟨hAdmitted, hBlank, hTree, hDetect⟩ := request?_eq_some_iff.1 h
  rw [chunks_chunkFile_eq, if_neg (by simp [hAdmitted, hBlank]), roughCut, hDetect, hTree]
  rfl

/-- A file that asks for no parser is cut in the same way whatever parsers there are. -/
private lemma chunks_chunkFile_of_request?_eq_none {chunker : Chunker} (grammars : Grammars)
    {file : SourceFile} (h : request? chunker.pool.provider file = none) {pool : ParserPool}
    (hDetect : pool.provider.detect = chunker.pool.provider.detect) :
    (chunkFile { chunker with pool } grammars file).chunks =
      (chunker.chunkFile grammars file).chunks := by
  rw [chunks_chunkFile_eq, chunks_chunkFile_eq]
  unfold request? at h
  unfold roughCut
  simp only [hDetect]
  split at h
  · next hEarly =>
    split
    · rfl
    · next hAdmitted =>
      obtain ⟨root, hTree⟩ :=
        Option.isSome_iff_exists.1 ((or_assoc.2 hEarly).resolve_left hAdmitted)
      rw [hTree]
      rfl
  · rw [h]

/-- A file that asks for no parser leaves the chunker as it is, and is cut in the same way whatever
parsers there are. -/
private lemma chunkFile_of_request?_eq_none {chunker : Chunker} {provider : Provider}
    (hProvider : chunker.pool.provider = provider) (grammars : Grammars) {file : SourceFile}
    (h : request? provider file = none) :
    (chunker.chunkFile grammars file).chunker = chunker ∧
      ∀ pool : ParserPool, pool.provider.detect = provider.detect →
        (chunkFile { chunker with pool } grammars file).chunks =
          (chunker.chunkFile grammars file).chunks := by
  subst hProvider
  refine ⟨?_, fun pool => chunks_chunkFile_of_request?_eq_none grammars h⟩
  rw [chunker_chunkFile, h]
  rfl

/-- The chunks of a file whose parser cannot be had are those of line windows. -/
private lemma chunks_chunkFile_of_error {chunker : Chunker} (grammars : Grammars)
    {file : SourceFile} {language : Language}
    (h : request? chunker.pool.provider file = some language) {error : ChunkError}
    (hError : (chunker.pool.parser language).result = .error error) :
    (chunker.chunkFile grammars file).chunks =
      Chunk.arrange chunker.budget (Chunk.ofLines chunker.budget file.path file.content) := by
  rw [chunks_chunkFile_of_request? h, ParserPool.result_parse, hError]
  rfl

/-- The chunks of a file whose parser is at hand are those of a fresh chunker whose attempts never
fail. -/
private lemma chunks_chunkFile_of_ok {chunker : Chunker} (grammars : Grammars) {file : SourceFile}
    {language : Language} (h : request? chunker.pool.provider file = some language)
    {id : ParserPool.ParserId} (hParser : (chunker.pool.parser language).result = .ok id) :
    (chunker.chunkFile grammars file).chunks =
      ((chunker.renewed chunker.pool.provider.unfailing).chunkFile grammars file).chunks := by
  have hFresh : request? (chunker.renewed chunker.pool.provider.unfailing).pool.provider file =
      some language := h
  rw [chunks_chunkFile_of_request? h, chunks_chunkFile_of_request? hFresh,
    ParserPool.result_parse, hParser]
  show _ = Chunk.arrange _ (cut _ _ _ (ParserPool.parse { provider := _ } _ _ _).result).1
  rw [ParserPool.result_parse_unfailing]
  rfl

/-- The chunks of a file that asks for the parser of a language after other requests, if the first
`n` attempts for the language fail. -/
private lemma chunks_chunkFile_after {provider : Provider} {language : Language} {n : Nat}
    (hFails : ∀ attempt, (provider.refusal? language attempt).isSome ↔ attempt < n)
    {chunker : Chunker} {asked : List Language}
    (hPool : chunker.pool = ParserPool.after { provider } asked) (grammars : Grammars)
    {file : SourceFile} (hRequest : request? provider file = some language) :
    (chunker.chunkFile grammars file).chunks =
      if asked.count language < n then
        Chunk.arrange chunker.budget (Chunk.ofLines chunker.budget file.path file.content)
      else ((chunker.renewed provider.unfailing).chunkFile grammars file).chunks := by
  obtain ⟨hEarly, hLate⟩ := ParserPool.parser_after hFails asked
  have hProvider : chunker.pool.provider = provider := by rw [hPool, ParserPool.provider_after]
  rw [← hPool] at hEarly hLate
  rw [← hProvider] at hRequest
  split
  · next hFew =>
    obtain ⟨error, hError⟩ := hEarly hFew
    exact chunks_chunkFile_of_error grammars hRequest hError
  · next hMany =>
    obtain ⟨id, hParser⟩ := hLate (Nat.not_lt.1 hMany)
    rw [chunks_chunkFile_of_ok grammars hRequest hParser, hProvider]

end Chunker

/-! ## Extractors -/

namespace Extractor

/-- The language whose parser a file asks for, if it comes to that: the file is neither blank nor
binary, its tree is not at hand, and its language is detected. -/
def request? (provider : Provider) (file : SourceFile) : Option Language :=
  if Text.allBlank file.content ∨ Text.looksBinary file.content ∨ file.tree?.isSome
  then none else provider.detect file.path

/-- When a file asks for the parser of a language. -/
private lemma request?_eq_some_iff {provider : Provider} {file : SourceFile} {language : Language} :
    request? provider file = some language ↔
      Text.allBlank file.content = false ∧ Text.looksBinary file.content = false ∧
        file.tree? = none ∧ provider.detect file.path = some language := by
  unfold request?
  cases Text.allBlank file.content with
  | true => simp
  | false =>
    cases Text.looksBinary file.content with
    | true => simp
    | false => cases file.tree? <;> simp

/-- An extractor after a session in which it has extracted files, one after the other, each with its
chunk. -/
def afterAll (extractor : Extractor) (grammars : Grammars)
    (calls : List (SourceFile × Option String)) : Extractor :=
  calls.foldl (fun extractor call => (extractor.extract grammars call.1 call.2).extractor) extractor

/-- A file costs the request for its parser, if it comes to that, and nothing else. -/
lemma extractor_extract (extractor : Extractor) (grammars : Grammars) (file : SourceFile)
    (chunkId : Option String) :
    (extractor.extract grammars file chunkId).extractor =
      { extractor with
        pool := extractor.pool.after (request? extractor.pool.provider file).toList } := by
  unfold extract request?
  cases Text.allBlank file.content with
  | true => simp
  | false =>
    cases Text.looksBinary file.content with
    | true => simp
    | false =>
      cases extractor.pool.provider.detect file.path with
      | none => simp
      | some language =>
        have hPool := extractor.pool.pool_treeOf grammars language file.content file.tree?
        simp only [Bool.false_eq_true, false_or, if_false, ← hPool]
        cases ofTree extractor.limits _ _ _ <;> rfl

/-- **A session is a list of requests.**

**Proof sketch.** Induction on the calls, as for the chunker: a file asks for a parser of its
language or for none, and the provider stays the same. -/
theorem afterAll_eq (grammars : Grammars) (calls : List (SourceFile × Option String)) :
    ∀ extractor : Extractor, extractor.afterAll grammars calls =
      { extractor with
        pool := extractor.pool.after
          (calls.filterMap fun call => request? extractor.pool.provider call.1) } := by
  induction calls with
  | nil => exact fun _ => rfl
  | cons call rest ih =>
    intro extractor
    show (extractor.extract grammars call.1 call.2).extractor.afterAll grammars rest = _
    rw [ih, extractor_extract]
    simp only [ParserPool.provider_after, ← ParserPool.after_append]
    cases hRequest : request? extractor.pool.provider call.1 with
    | none => simp [hRequest]
    | some language => simp [hRequest]

/-- What the attempt to extract a file from its tree leads to: the facts of the tree, or the module
alone. -/
def fromTree (limits : ExtractionLimits) (language : Language) (file : SourceFile)
    (chunkId : Option String) (tree : Except ChunkError ParseTree) : Extraction :=
  let fileModule := Entity.ofFile file.path file.content chunkId
  match ofTree limits ⟨language, file.path, file.content, chunkId⟩ fileModule tree with
  | .ok extraction => extraction
  | .error _ => Extraction.ofModule fileModule

/-- The extraction of a file, by the attempt to have its tree. -/
lemma extraction_extract_eq (extractor : Extractor) (grammars : Grammars) (file : SourceFile)
    (chunkId : Option String) :
    (extractor.extract grammars file chunkId).extraction =
      if Text.allBlank file.content ∨ Text.looksBinary file.content then
        Extraction.ofModule (Entity.ofFile file.path file.content chunkId)
      else match extractor.pool.provider.detect file.path with
        | none => Extraction.ofModule (Entity.ofFile file.path file.content chunkId)
        | some language => fromTree extractor.limits language file chunkId
            (extractor.pool.treeOf grammars language file.content file.tree?).result := by
  unfold extract fromTree
  cases Text.allBlank file.content with
  | true => simp
  | false =>
    cases Text.looksBinary file.content with
    | true => simp
    | false =>
      cases extractor.pool.provider.detect file.path with
      | none => simp
      | some language =>
        simp only [Bool.false_eq_true, or_self, if_false]
        cases ofTree extractor.limits _ _ _ <;> rfl

/-- The extraction of a file that asks for a parser: what the attempt to parse it leads to. -/
lemma extraction_extract_of_request? {extractor : Extractor} {grammars : Grammars}
    {file : SourceFile} (chunkId : Option String) {language : Language}
    (h : request? extractor.pool.provider file = some language) :
    (extractor.extract grammars file chunkId).extraction =
      fromTree extractor.limits language file chunkId
        (extractor.pool.parse grammars language file.content).result := by
  obtain ⟨hBlank, hBinary, hTree, hDetect⟩ := request?_eq_some_iff.1 h
  rw [extraction_extract_eq, if_neg (by simp [hBlank, hBinary]), hDetect, hTree]
  rfl

/-- A file that asks for no parser is extracted in the same way whatever parsers there are. -/
private lemma extraction_extract_of_request?_eq_none {extractor : Extractor} (grammars : Grammars)
    {file : SourceFile} (chunkId : Option String)
    (h : request? extractor.pool.provider file = none) {pool : ParserPool}
    (hDetect : pool.provider.detect = extractor.pool.provider.detect) :
    (extract { extractor with pool } grammars file chunkId).extraction =
      (extractor.extract grammars file chunkId).extraction := by
  rw [extraction_extract_eq, extraction_extract_eq]
  unfold request? at h
  simp only [hDetect]
  split at h
  · next hEarly =>
    split
    · rfl
    · next hAdmitted =>
      obtain ⟨root, hTree⟩ :=
        Option.isSome_iff_exists.1 ((or_assoc.2 hEarly).resolve_left hAdmitted)
      rw [hTree]
      rfl
  · rw [h]

/-- A file that asks for no parser leaves the extractor as it is, and is extracted in the same way
whatever parsers there are. -/
private lemma extract_of_request?_eq_none {extractor : Extractor} {provider : Provider}
    (hProvider : extractor.pool.provider = provider) (grammars : Grammars) {file : SourceFile}
    (chunkId : Option String) (h : request? provider file = none) :
    (extractor.extract grammars file chunkId).extractor = extractor ∧
      ∀ pool : ParserPool, pool.provider.detect = provider.detect →
        (extract { extractor with pool } grammars file chunkId).extraction =
          (extractor.extract grammars file chunkId).extraction := by
  subst hProvider
  refine ⟨?_, fun pool => extraction_extract_of_request?_eq_none grammars chunkId h⟩
  rw [extractor_extract, h]
  rfl

/-- The extraction of a file whose parser cannot be had is its module alone. -/
private lemma extraction_extract_of_error {extractor : Extractor} (grammars : Grammars)
    {file : SourceFile} (chunkId : Option String) {language : Language}
    (h : request? extractor.pool.provider file = some language) {error : ChunkError}
    (hError : (extractor.pool.parser language).result = .error error) :
    (extractor.extract grammars file chunkId).extraction =
      Extraction.ofModule (Entity.ofFile file.path file.content chunkId) := by
  rw [extraction_extract_of_request? chunkId h, ParserPool.result_parse, hError]
  rfl

/-- The extraction of a file whose parser is at hand is that of a fresh extractor whose attempts
never fail. -/
private lemma extraction_extract_of_ok {extractor : Extractor} (grammars : Grammars)
    {file : SourceFile} (chunkId : Option String) {language : Language}
    (h : request? extractor.pool.provider file = some language) {id : ParserPool.ParserId}
    (hParser : (extractor.pool.parser language).result = .ok id) :
    (extractor.extract grammars file chunkId).extraction =
      ((create extractor.limits extractor.pool.provider.unfailing).extract grammars file
        chunkId).extraction := by
  have hFresh : request? (create extractor.limits
      extractor.pool.provider.unfailing).pool.provider file = some language := h
  rw [extraction_extract_of_request? chunkId h, extraction_extract_of_request? chunkId hFresh,
    ParserPool.result_parse, hParser]
  show _ = fromTree _ _ _ _ (ParserPool.parse { provider := _ } _ _ _).result
  rw [ParserPool.result_parse_unfailing]
  rfl

/-- The extraction of a file that asks for the parser of a language after other requests, if the
first `n` attempts for the language fail. -/
private lemma extraction_extract_after {provider : Provider} {language : Language} {n : Nat}
    (hFails : ∀ attempt, (provider.refusal? language attempt).isSome ↔ attempt < n)
    {extractor : Extractor} {asked : List Language}
    (hPool : extractor.pool = ParserPool.after { provider } asked) (grammars : Grammars)
    {file : SourceFile} (chunkId : Option String)
    (hRequest : request? provider file = some language) :
    (extractor.extract grammars file chunkId).extraction =
      if asked.count language < n then
        Extraction.ofModule (Entity.ofFile file.path file.content chunkId)
      else ((create extractor.limits provider.unfailing).extract grammars file
        chunkId).extraction := by
  obtain ⟨hEarly, hLate⟩ := ParserPool.parser_after hFails asked
  have hProvider : extractor.pool.provider = provider := by rw [hPool, ParserPool.provider_after]
  rw [← hPool] at hEarly hLate
  rw [← hProvider] at hRequest
  split
  · next hFew =>
    obtain ⟨error, hError⟩ := hEarly hFew
    exact extraction_extract_of_error grammars chunkId hRequest hError
  · next hMany =>
    obtain ⟨id, hParser⟩ := hLate (Nat.not_lt.1 hMany)
    rw [extraction_extract_of_ok grammars chunkId hRequest hParser, hProvider]

end Extractor

/-! ## Sessions -/

/-- **Retries do not show in results.** The first `n` attempts for a language fail. After any
session, the language has been tried as often as files asked for its parser, but at most `n + 1`
times. A file that asks for it next is cut into lines, or gives its module alone, if fewer than `n`
files asked for it before; otherwise it turns out as with a fresh instance whose attempts never
fail. A file that asks for no parser leaves the instance as it is, and turns out the same whatever
the parsers and the attempts so far.

**Proof sketch.** A session is a list of requests to the pool (`afterAll_eq`), so the pool is the
one that `ParserPool.state_after` describes, and the next request fails or succeeds as
`ParserPool.parser_after` says. A file whose parser is refused is cut into lines; one whose parser
is there depends on the grammar alone, as it does with a fresh instance. -/
theorem results_of_session {provider : Provider} {language : Language} {n : Nat}
    (hFails : ∀ attempt, (provider.refusal? language attempt).isSome ↔ attempt < n)
    (grammars : Grammars) :
    (∀ (chunker : Chunker) (files : List SourceFile) (file : SourceFile),
      let session := (chunker.renewed provider).afterAll grammars files
      let requests := (files.filterMap (Chunker.request? provider)).count language
      session.pool.attempts.count language = min requests (n + 1) ∧
      (Chunker.request? provider file = some language →
        (session.chunkFile grammars file).chunks =
          if requests < n then
            Chunk.arrange chunker.budget (Chunk.ofLines chunker.budget file.path file.content)
          else ((chunker.renewed provider.unfailing).chunkFile grammars file).chunks) ∧
      (Chunker.request? provider file = none →
        (session.chunkFile grammars file).chunker = session ∧
        ∀ pool : ParserPool, pool.provider.detect = provider.detect →
          (Chunker.chunkFile { session with pool } grammars file).chunks =
            (session.chunkFile grammars file).chunks)) ∧
    (∀ (limits : ExtractionLimits) (calls : List (SourceFile × Option String)) (file : SourceFile)
        (chunkId : Option String),
      let session := (Extractor.create limits provider).afterAll grammars calls
      let requests :=
        (calls.filterMap fun call => Extractor.request? provider call.1).count language
      session.pool.attempts.count language = min requests (n + 1) ∧
      (Extractor.request? provider file = some language →
        (session.extract grammars file chunkId).extraction =
          if requests < n then
            Extraction.ofModule (Entity.ofFile file.path file.content chunkId)
          else ((Extractor.create limits provider.unfailing).extract grammars file
            chunkId).extraction) ∧
      (Extractor.request? provider file = none →
        (session.extract grammars file chunkId).extractor = session ∧
        ∀ pool : ParserPool, pool.provider.detect = provider.detect →
          (Extractor.extract { session with pool } grammars file chunkId).extraction =
            (session.extract grammars file chunkId).extraction)) := by
  refine ⟨fun chunker files file => ?_, fun limits calls file chunkId => ?_⟩
  · intro session requests
    have hSession : session = { chunker with
        pool := ParserPool.after { provider } (files.filterMap (Chunker.request? provider)) } :=
      Chunker.afterAll_eq grammars files (chunker.renewed provider)
    rw [hSession]
    exact ⟨(ParserPool.state_after hFails _).2, Chunker.chunks_chunkFile_after hFails rfl grammars,
      Chunker.chunkFile_of_request?_eq_none (ParserPool.provider_after _ _) grammars⟩
  · intro session requests
    have hSession : session = ⟨limits, ParserPool.after { provider }
        (calls.filterMap fun call => Extractor.request? provider call.1)⟩ :=
      Extractor.afterAll_eq grammars calls (Extractor.create limits provider)
    rw [hSession]
    exact ⟨(ParserPool.state_after hFails _).2,
      Extractor.extraction_extract_after hFails rfl grammars chunkId,
      Extractor.extract_of_request?_eq_none (ParserPool.provider_after _ _) grammars chunkId⟩

/-! ### One failure -/

namespace Retry

/-- A file of one declaration. -/
def file : SourceFile := ⟨"a.rs", "struct A;\n", none⟩

/-- The tree of the declaration. -/
def tree : ParseTree :=
  .node ⟨"source_file", true, none, 0, 10, 0, 1⟩
    [.node ⟨"struct_item", true, none, 0, 9, 0, 0⟩
      [.node ⟨"struct", false, none, 0, 6, 0, 0⟩ [],
        .node ⟨"type_identifier", true, some "name", 7, 8, 0, 0⟩ [],
        .node ⟨";", false, none, 8, 9, 0, 0⟩ []]]

/-- The grammar that parses the file. -/
def grammars : Grammars := fun language text =>
  if language = .rust ∧ text = file.content then some tree else none

/-- A provider whose first attempt for each language fails. -/
def provider : Provider := Provider.bundled.failing (· < 1) (.grammar "not loaded")

/-- A chunker. -/
def chunker : Chunker where
  budget := { maxTokens := 8, minTokens := 1, overlapTokens := 0, maxLines := 10 }
  valid := by decide
  pool := { provider }

/-- The first attempt for the language fails, and no other. -/
private lemma isSome_refusal?_iff (attempt : Nat) :
    (provider.refusal? .rust attempt).isSome ↔ attempt < 1 := by
  cases attempt with
  | zero => simp [provider, Provider.failing]
  | succ k => simp [provider, Provider.failing, Provider.bundled, Language.hasGrammar]

/-- The file as a line window. -/
def window : Chunk := Chunk.create "a.rs" 1 1 "struct A;" .block { language := "rust" }

/-- The declaration as it is cut out along the tree. -/
def declaration : Chunk :=
  Chunk.create "a.rs" 1 1 "struct A;" .classLike
    { language := "rust", className := some "A", signature := some "struct A;" }

/-- The first file is cut into lines, the second along the tree, and a third costs no further
attempt. So it is with extractions, of which the first is the module alone. -/
theorem results_of_three_files :
    (((chunker.renewed provider).chunkFile grammars file).chunks =
        Chunk.arrange chunker.budget (Chunk.ofLines chunker.budget file.path file.content) ∧
      ((chunker.renewed provider).chunkFile grammars file).chunks = [window]) ∧
    ((((chunker.renewed provider).afterAll grammars [file]).chunkFile grammars file).chunks =
        ((chunker.renewed provider.unfailing).chunkFile grammars file).chunks ∧
      (((chunker.renewed provider).afterAll grammars [file]).chunkFile grammars file).chunks =
        [declaration]) ∧
    ((chunker.renewed provider).afterAll grammars [file, file, file]).pool.attempts.count .rust =
      2 ∧
    (((Extractor.create {} provider).extract grammars file none).extraction =
        Extraction.ofModule (Entity.ofFile file.path file.content none) ∧
      ((Extractor.create {} provider).extract grammars file none).extraction.entities.map
        Entity.name = ["a.rs"]) ∧
    ((((Extractor.create {} provider).afterAll grammars [(file, none)]).extract grammars file
        none).extraction =
        ((Extractor.create {} provider.unfailing).extract grammars file none).extraction ∧
      (((Extractor.create {} provider).afterAll grammars [(file, none)]).extract grammars file
        none).extraction.entities.map Entity.name = ["a.rs", "A"]) := by
  have hCut : Chunker.request? provider file = some .rust := by decide +kernel
  have hExtracted : Extractor.request? provider file = some .rust := by decide +kernel
  obtain ⟨hChunks, hExtractions⟩ := results_of_session isSome_refusal?_iff grammars
  have hFirst := (hChunks chunker [] file).2.1 hCut
  have hSecond := (hChunks chunker [file] file).2.1 hCut
  have hAttempts := (hChunks chunker [file, file, file] file).1
  have hModule := (hExtractions {} [] file none).2.1 hExtracted
  have hFacts := (hExtractions {} [(file, none)] file none).2.1 hExtracted
  simp only [List.filterMap_cons, List.filterMap_nil, hCut] at hFirst hSecond hAttempts
  simp only [List.filterMap_cons, List.filterMap_nil, hExtracted] at hModule hFacts
  exact ⟨⟨hFirst, Eq.trans hFirst (by decide +kernel)⟩,
    ⟨hSecond, Eq.trans hSecond (by decide +kernel)⟩, hAttempts,
    ⟨hModule, (congrArg (·.entities.map Entity.name) hModule).trans (by decide +kernel)⟩,
    hFacts, (congrArg (·.entities.map Entity.name) hFacts).trans (by decide +kernel)⟩

end Retry

end CodeAtlas
