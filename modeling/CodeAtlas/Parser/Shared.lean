import CodeAtlas.Parser.Pool

/-!
# Parser pools with several callers

Callers that run side by side share one pool. Each language has a slot, which is made when the
language is first asked for. A caller waits at the slot of its language until there is a parser, or
until it may make an attempt of its own: only one attempt is made at a slot at a time. If the
attempt fails, its caller gets the error, and the slot is free for the next one who waits. If it
succeeds, the parser stays in the slot and answers everyone who waits there.

The callers take their steps in any order. A schedule names the caller that takes the next step; a
caller that has to wait is passed over.

## Main definitions

* `CodeAtlas.Slot` — the place where the parser of a language is kept.
* `CodeAtlas.Caller` — a caller and how far it has come.
* `CodeAtlas.SharedPool`, `CodeAtlas.SharedPool.advance` — a pool with its callers, and the next
  step of one of them.
* `CodeAtlas.SharedPool.run` — the steps of a schedule.
-/

set_option autoImplicit false

namespace CodeAtlas

open ParserPool (ParserId)

/-- The place where the parser of a language is kept. -/
structure Slot where
  /-- The language. -/
  language : Language
  /-- Whether an attempt is under way. -/
  busy : Bool := false
  /-- The parser, once there is one. -/
  parser? : Option ParserId := none
  deriving DecidableEq, Repr

/-- The number of the slot of a language, and the slots afterwards: a slot is added if the language
has none. -/
def Slot.enter (slots : List Slot) (language : Language) : Nat × List Slot :=
  match slots.findIdx? (·.language == language) with
  | some slot => (slot, slots)
  | none => (slots.length, slots ++ [{ language }])

/-- How far a caller has come. -/
inductive Caller.Phase where
  /-- The caller has not asked yet. -/
  | idle
  /-- The caller waits at a slot. -/
  | waiting (slot : Nat)
  /-- The caller makes the attempt with this number, counted from zero for each language. -/
  | acquiring (slot attempt : Nat)
  /-- The caller has its answer. -/
  | answered (result : Except ChunkError ParserId)

/-- A caller that asks for the parser of a language. -/
structure Caller where
  /-- The language. -/
  language : Language
  /-- How far the caller has come. -/
  phase : Caller.Phase := .idle

namespace Caller

/-- What the caller was answered. -/
def answer? (caller : Caller) : Option (Language × Except ChunkError ParserId) :=
  match caller.phase with
  | .answered result => some (caller.language, result)
  | _ => none

/-- Whether the caller makes an attempt for a language. -/
def acquires (language : Language) (caller : Caller) : Bool :=
  match caller.phase with
  | .acquiring _ _ => caller.language == language
  | _ => false

/-- The slot that the caller is at. -/
def slot? (caller : Caller) : Option Nat :=
  match caller.phase with
  | .waiting slot => some slot
  | .acquiring slot _ => some slot
  | _ => none

end Caller

/-- A pool and the callers that share it. -/
structure SharedPool where
  /-- The parsers built so far and the attempts made. -/
  pool : ParserPool
  /-- The slots, in the order in which they were made. -/
  slots : List Slot := []
  /-- The callers. -/
  callers : List Caller

namespace SharedPool

/-- A fresh pool that is going to be asked for the parsers of several languages. -/
def start (provider : Provider) (languages : List Language) : SharedPool where
  pool := { provider }
  callers := languages.map fun language => { language }

/-- A caller comes to another phase. -/
def move (shared : SharedPool) (i : Nat) (caller : Caller) (phase : Caller.Phase) : SharedPool :=
  { shared with callers := shared.callers.set i { caller with phase } }

/-- A caller that waits gets the parser if there is one. If there is none, it starts an attempt,
unless one is under way. -/
def await (shared : SharedPool) (i : Nat) (caller : Caller) (slot : Nat) (held : Slot) :
    SharedPool :=
  match held.parser? with
  | some id => shared.move i caller (.answered (.ok id))
  | none =>
    if held.busy then shared
    else
      { shared.move i caller (.acquiring slot (shared.pool.attempts.count caller.language)) with
        pool := { shared.pool with attempts := caller.language :: shared.pool.attempts }
        slots := shared.slots.set slot { held with busy := true } }

/-- An attempt ends: its caller gets the error and the slot is free again, or its caller gets the
parser and the slot keeps it. -/
def conclude (shared : SharedPool) (i : Nat) (caller : Caller) (slot attempt : Nat) (held : Slot) :
    SharedPool :=
  match shared.pool.provider.refusal? caller.language attempt with
  | some error =>
    { shared.move i caller (.answered (.error error)) with
      slots := shared.slots.set slot { held with busy := false } }
  | none =>
    let id := shared.pool.parsers.length
    { shared.move i caller (.answered (.ok id)) with
      pool := { shared.pool with parsers := shared.pool.parsers ++ [caller.language] }
      slots := shared.slots.set slot { held with busy := false, parser? := some id } }

/-- The next step of a caller, if it can take one. -/
def advance (shared : SharedPool) (i : Nat) : SharedPool :=
  match shared.callers[i]? with
  | none => shared
  | some caller =>
    match caller.phase with
    | .idle =>
      let (slot, slots) := Slot.enter shared.slots caller.language
      { shared.move i caller (.waiting slot) with slots }
    | .waiting slot =>
      match shared.slots[slot]? with
      | none => shared
      | some held => shared.await i caller slot held
    | .acquiring slot attempt =>
      match shared.slots[slot]? with
      | none => shared
      | some held => shared.conclude i caller slot attempt held
    | .answered _ => shared

/-- The steps of the callers that a schedule names, in its order. -/
def run (shared : SharedPool) (schedule : List Nat) : SharedPool := schedule.foldl advance shared

end SharedPool

end CodeAtlas
