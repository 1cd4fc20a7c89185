/-!
# Finite tables

A table gives finitely many keys a value each. Writing a key replaces the value
it had. The whole behaviour is one law, `get?_insert`; everything else about a
table is derived from it.
-/

namespace TreeBackend

/-- Finitely many entries. A key that was written later stands nearer to the front. -/
structure Table (κ α : Type) where
  entries : List (κ × α) := []

namespace Table

variable {κ α : Type} [DecidableEq κ]

/-- The value of the first entry with the given key. -/
def find? (key : κ) : List (κ × α) → Option α
  | [] => none
  | (candidate, value) :: rest => if candidate = key then some value else find? key rest

/-- Gives the first entry with the given key a new value. -/
def replace (key : κ) (value : α) : List (κ × α) → List (κ × α)
  | [] => []
  | (candidate, old) :: rest =>
      if candidate = key then (candidate, value) :: rest
      else (candidate, old) :: replace key value rest

def get? (table : Table κ α) (key : κ) : Option α := find? key table.entries

/-- Gives a key a value, in place if the key already has one. -/
def insert (table : Table κ α) (key : κ) (value : α) : Table κ α :=
  match table.get? key with
  | some _ => ⟨replace key value table.entries⟩
  | none => ⟨(key, value) :: table.entries⟩

/-- The table of a list of entries; of two entries with one key the later one counts. -/
def ofList (entries : List (κ × α)) : Table κ α :=
  entries.foldl (fun table entry => table.insert entry.1 entry.2) {}

theorem find?_replace (key other : κ) (value : α) (entries : List (κ × α)) :
    find? other (replace key value entries) =
      if key = other then (find? other entries).map (fun _ => value)
      else find? other entries := by
  induction entries with
  | nil => simp [find?, replace]
  | cons entry rest ih =>
      obtain ⟨candidate, old⟩ := entry
      by_cases same : key = other
      · subst same
        by_cases here : candidate = key <;> simp_all [find?, replace]
      · by_cases here : candidate = key
        · subst here
          simp [find?, replace, same]
        · simp_all [find?, replace]

@[simp] theorem get?_empty (key : κ) : ({} : Table κ α).get? key = none := rfl

theorem get?_insert (table : Table κ α) (key other : κ) (value : α) :
    (table.insert key value).get? other = if key = other then some value else table.get? other := by
  unfold insert
  cases found : table.get? key with
  | none => simp [get?, find?]
  | some old =>
      simp only [get?] at found ⊢
      rw [find?_replace]
      by_cases same : key = other
      · subst same
        simp [found]
      · simp [same]

end Table

end TreeBackend
