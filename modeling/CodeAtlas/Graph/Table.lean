/-!
# Tables

## Main definitions

* `CodeAtlas.Table` — values under names; `Table.get?`, `insert` and `erase` read and change it.

## Main results

* `CodeAtlas.Table.get?_insert`, `get?_erase` — what is found after a change.
-/

set_option autoImplicit false

namespace CodeAtlas

/-- Values under names. -/
structure Table (α : Type) where
  /-- The entries, newest first; only the first one under a name counts. -/
  entries : List (String × α) := []

namespace Table

variable {α : Type}

/-- The value under a name. -/
def get? (table : Table α) (name : String) : Option α := table.entries.lookup name

/-- The table without a name. -/
def erase (table : Table α) (name : String) : Table α :=
  ⟨table.entries.filter fun entry => entry.1 != name⟩

/-- The table with a value under a name, in place of the one before. -/
def insert (table : Table α) (name : String) (value : α) : Table α :=
  ⟨(name, value) :: (table.erase name).entries⟩

/-- The names in a table. -/
def names (table : Table α) : List String := table.entries.map Prod.fst

/-- What is found behind an entry under another name. -/
private theorem lookup_cons_of_ne {name key : String} (h : name ≠ key) (value : α)
    (rest : List (String × α)) : List.lookup name ((key, value) :: rest) = rest.lookup name := by
  have hb : (name == key) = false := by simp [h]
  rw [List.lookup_cons, hb]

/-- What is found after a name is erased. -/
theorem get?_erase (table : Table α) (name other : String) :
    (table.erase name).get? other = if other = name then none else table.get? other := by
  obtain ⟨entries⟩ := table
  simp only [get?, erase]
  induction entries with
  | nil => simp
  | cons entry rest ih =>
    obtain ⟨key, value⟩ := entry
    by_cases hk : key = name
    · subst hk
      by_cases ho : other = key
      · subst ho
        simpa using ih
      · simpa [lookup_cons_of_ne ho, ho] using ih
    · by_cases ho : other = key
      · subst ho
        simp [hk]
      · simp [hk, lookup_cons_of_ne ho, ih]

/-- What is found after a value is inserted. -/
theorem get?_insert (table : Table α) (name other : String) (value : α) :
    (table.insert name value).get? other =
      if other = name then some value else table.get? other := by
  have h := get?_erase table name other
  simp only [get?] at h
  by_cases ho : other = name
  · simp [get?, insert, ho]
  · simp [get?, insert, lookup_cons_of_ne ho, ho, h]

/-- The value that is inserted is found under its name. -/
theorem get?_insert_self (table : Table α) (name : String) (value : α) :
    (table.insert name value).get? name = some value := by
  rw [get?_insert, if_pos rfl]

/-- A value is found after an insertion if it is the one inserted, or under another name. -/
theorem get?_insert_eq_some_iff {table : Table α} {name other : String} {value found : α} :
    (table.insert name value).get? other = some found ↔
      (other = name ∧ found = value) ∨ (other ≠ name ∧ table.get? other = some found) := by
  rw [get?_insert]
  split <;> simp_all [eq_comm]

end Table

end CodeAtlas
