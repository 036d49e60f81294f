import CodeAtlas.Chunk.Error
import CodeAtlas.Language.Basic
import CodeAtlas.Log
import CodeAtlas.ParseTree.Basic

/-!
# Parser pools

Loading a grammar is expensive, so a pool keeps one parser for each language and builds it on
first use. A failed attempt leaves the pool without a parser for the language, and the next use
tries again.

## Main definitions

* `CodeAtlas.Grammars` — what each grammar makes of a text.
* `CodeAtlas.Provider` — where parsers come from: which language a path has, and which attempts
  to acquire a parser fail.
* `CodeAtlas.ParserPool` — the parsers built so far and the attempts made.
* `CodeAtlas.ParserPool.parser` — the parser for a language.
* `CodeAtlas.ParserPool.parse` — the tree of a text.
-/

set_option autoImplicit false

namespace CodeAtlas

/-- What each grammar makes of a text; none if parsing is given up. -/
abbrev Grammars : Type := Language → String → Option ParseTree

/-- Where parsers come from. -/
structure Provider where
  /-- The language of a path, if files of this language are to be parsed. -/
  detect : String → Option Language
  /-- Why the attempt with this number, counted from zero for each language, fails. -/
  refusal? : Language → Nat → Option ChunkError

namespace Provider

/-- The provider of the grammars at hand. -/
def bundled : Provider where
  detect := Language.detect
  refusal? language _ :=
    if language.hasGrammar then none else some (.unsupportedLanguage language.name)

/-- A provider whose attempts with certain numbers fail with an error, and are otherwise those of
another provider. -/
def failing (provider : Provider) (fails : Nat → Bool) (error : ChunkError) : Provider :=
  { provider with
    refusal? := fun language attempt =>
      if fails attempt then some error else provider.refusal? language attempt }

/-- A provider that takes every path to have the same language, or none. -/
def detecting (provider : Provider) (language : Option Language) : Provider :=
  { provider with detect := fun _ => language }

end Provider

/-- The parsers built so far and the attempts made. -/
structure ParserPool where
  /-- Where parsers come from. -/
  provider : Provider
  /-- The languages of all attempts, newest first. -/
  attempts : List Language := []
  /-- The languages that have a parser, in the order of construction. -/
  parsers : List Language := []

namespace ParserPool

/-- What a use of the pool gives, the pool afterwards, and what is logged. -/
structure Use (α : Type) where
  /-- The result, or why there is none. -/
  result : Except ChunkError α
  /-- The pool afterwards. -/
  pool : ParserPool
  /-- What is logged. -/
  log : List LogRecord

/-- A parser, named by its place in the order of construction. -/
abbrev ParserId : Type := Nat

/-- The number of attempts made. -/
def attemptCount (pool : ParserPool) : Nat := pool.attempts.length

/-- The record of an attempt. -/
def attemptRecord (language : Language) : LogRecord :=
  ⟨.debug, "Constructing parser for " ++ language.name⟩

/-- The parser for a language. If there is none yet, one attempt is made to acquire it. -/
def parser (pool : ParserPool) (language : Language) : Use ParserId :=
  match pool.parsers.idxOf? language with
  | some id => ⟨.ok id, pool, []⟩
  | none =>
    let tried := { pool with attempts := language :: pool.attempts }
    match pool.provider.refusal? language (pool.attempts.count language) with
    | some error => ⟨.error error, tried, [attemptRecord language]⟩
    | none =>
      ⟨.ok pool.parsers.length, { tried with parsers := pool.parsers ++ [language] },
        [attemptRecord language]⟩

/-- The parsers for several languages, asked for one after the other: the results in order, the
pool afterwards and all that is logged. -/
def parsersFor (pool : ParserPool) :
    List Language → List (Except ChunkError ParserId) × ParserPool × List LogRecord
  | [] => ([], pool, [])
  | language :: rest =>
    let use := pool.parser language
    let (results, pool, log) := use.pool.parsersFor rest
    (use.result :: results, pool, use.log ++ log)

/-- The tree of a text in a language. -/
def parse (pool : ParserPool) (grammars : Grammars) (language : Language) (text : String) :
    Use ParseTree :=
  let use := pool.parser language
  let result :=
    match use.result with
    | .error error => .error error
    | .ok _ =>
      match grammars language text with
      | some tree => .ok tree
      | none => .error (.parse "Failed to parse source code")
  ⟨result, use.pool, use.log⟩

/-- The tree of a text: the one at hand if there is one, else what parsing gives. -/
def treeOf (pool : ParserPool) (grammars : Grammars) (language : Language) (text : String) :
    Option ParseTree → Use ParseTree
  | some tree => ⟨.ok tree, pool, []⟩
  | none => pool.parse grammars language text

end ParserPool

end CodeAtlas
