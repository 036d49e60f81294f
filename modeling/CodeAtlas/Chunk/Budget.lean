import CodeAtlas.Chunk.Error

/-!
# Chunk budgets

How large chunks may be, in tokens and in lines.

## Main definitions

* `CodeAtlas.Budget` — the four limits, with their defaults.
* `CodeAtlas.Budget.Valid` — the limits do not contradict each other.
* `CodeAtlas.Budget.Fault` — the ways to contradict; `Budget.fault?` finds the first.
* `CodeAtlas.Budget.validate` — the same as an error.

## Main results

* `CodeAtlas.Budget.fault?_eq_none_iff` — a budget is valid exactly when no fault is found.
-/

set_option autoImplicit false

namespace CodeAtlas

/-- The limits on the size of chunks. -/
structure Budget where
  /-- The most tokens of a chunk; only a single line may exceed it. -/
  maxTokens : Nat := 512
  /-- Gaps below this size are dropped, chunks below it may be merged. -/
  minTokens : Nat := 100
  /-- The most tokens that a window repeats of the one before. -/
  overlapTokens : Nat := 50
  /-- The most lines of a chunk. -/
  maxLines : Nat := 100
  deriving DecidableEq, Repr

namespace Budget

/-- Some token and some line fit, the lower limit is not above the upper one, and a window has
room besides what it repeats. -/
structure Valid (budget : Budget) : Prop where
  maxTokens_pos : 0 < budget.maxTokens
  maxLines_pos : 0 < budget.maxLines
  minTokens_le : budget.minTokens ≤ budget.maxTokens
  overlapTokens_lt : budget.overlapTokens < budget.maxTokens

/-- A way in which limits contradict each other. -/
inductive Fault where
  | noTokens
  | noLines
  | minAboveMax (minTokens maxTokens : Nat)
  | overlapTooLarge (overlapTokens maxTokens : Nat)
  deriving DecidableEq, Repr

/-- The wording of a fault. -/
def Fault.describe : Fault → String
  | noTokens => "maxChunkTokens must be > 0"
  | noLines => "maxChunkLines must be > 0"
  | minAboveMax least most =>
    "minChunkTokens (" ++ least.repr ++ ") cannot exceed maxChunkTokens (" ++ most.repr ++ ")"
  | overlapTooLarge overlap most =>
    "overlapTokens (" ++ overlap.repr ++ ") must be below maxChunkTokens (" ++ most.repr ++ ")"

/-- The first fault of a budget. -/
def fault? (budget : Budget) : Option Fault :=
  if budget.maxTokens = 0 then some .noTokens
  else if budget.maxLines = 0 then some .noLines
  else if budget.maxTokens < budget.minTokens then
    some (.minAboveMax budget.minTokens budget.maxTokens)
  else if budget.maxTokens ≤ budget.overlapTokens then
    some (.overlapTooLarge budget.overlapTokens budget.maxTokens)
  else none

/-- A budget is valid exactly when it has no fault. -/
theorem fault?_eq_none_iff (budget : Budget) : budget.fault? = none ↔ budget.Valid := by
  unfold fault?
  constructor
  · intro h
    split at h <;> try simp at h
    split at h <;> try simp at h
    split at h <;> try simp at h
    constructor <;> omega
  · intro h
    obtain ⟨h1, h2, h3, h4⟩ := h
    rw [if_neg (by omega), if_neg (by omega), if_neg (by omega), if_neg (by omega)]

instance (budget : Budget) : Decidable budget.Valid :=
  decidable_of_iff _ budget.fault?_eq_none_iff

/-- The budget itself if it is valid, else its first fault. -/
def validate (budget : Budget) : Except ChunkError { b : Budget // b.Valid } :=
  match h : budget.fault? with
  | none => .ok ⟨budget, budget.fault?_eq_none_iff.1 h⟩
  | some fault => .error (.invalidConfig fault.describe)

end Budget

end CodeAtlas
