/-
  Insertion-ordered tables

  A table maps keys to values and remembers the order in which keys first
  came. A key that is put again keeps its place and takes the new value.
-/
namespace FlowTyping

/-- Keys with their values, in the order in which the keys first came. -/
structure Table (κ α : Type) where
  entries : List (κ × α)
  deriving Repr

namespace Table

variable {κ α : Type}

def empty : Table κ α := ⟨[]⟩

instance : Inhabited (Table κ α) := ⟨empty⟩

def keys (t : Table κ α) : List κ := t.entries.map (·.1)

def size (t : Table κ α) : Nat := t.entries.length

def isEmpty (t : Table κ α) : Bool := t.entries.isEmpty

variable [DecidableEq κ]

def get? (t : Table κ α) (key : κ) : Option α := t.entries.lookup key

def contains (t : Table κ α) (key : κ) : Bool := (t.get? key).isSome

/-- Replaces the value at `key` in a list of entries, or adds it at the end. -/
def putEntry (key : κ) (value : α) : List (κ × α) → List (κ × α)
  | [] => [(key, value)]
  | entry :: rest =>
    if entry.1 = key then (key, value) :: rest else entry :: putEntry key value rest

def put (t : Table κ α) (key : κ) (value : α) : Table κ α := ⟨putEntry key value t.entries⟩

/-- Puts every entry in order: of two with one key the later value stays, at the earlier place. -/
def putAll (t : Table κ α) (entries : List (κ × α)) : Table κ α :=
  entries.foldl (fun t entry => t.put entry.1 entry.2) t

def ofList (entries : List (κ × α)) : Table κ α := empty.putAll entries

theorem lookup_putEntry (key other : κ) (value : α) (entries : List (κ × α)) :
    (putEntry key value entries).lookup other =
      if other = key then some value else entries.lookup other := by
  induction entries with
  | nil =>
    by_cases h : other = key
    · simp [putEntry, h]
    · simp [putEntry, List.lookup_cons, h, beq_eq_false_iff_ne.mpr h]
  | cons entry rest ih =>
    obtain ⟨k, v⟩ := entry
    by_cases hk : k = key
    · subst hk
      by_cases h : other = k
      · simp [putEntry, h]
      · simp [putEntry, List.lookup_cons, h, beq_eq_false_iff_ne.mpr h]
    · by_cases h : other = k
      · subst h
        simp [putEntry, hk]
      · simp [putEntry, List.lookup_cons, hk, beq_eq_false_iff_ne.mpr h, ih]

/-- The key put last reads back; every other key reads as before. -/
theorem get?_put (t : Table κ α) (key other : κ) (value : α) :
    (t.put key value).get? other = if other = key then some value else t.get? other :=
  lookup_putEntry key other value t.entries

end Table

end FlowTyping
