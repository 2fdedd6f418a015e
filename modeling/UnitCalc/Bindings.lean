/-!
# Bindings

A finite map from names, kept as the list of its entries in the order in which the names were first bound.
-/

namespace UnitCalc

structure Bindings (α : Type) where
  entries : List (String × α) := []

namespace Bindings

variable {α : Type}

def empty : Bindings α := ⟨[]⟩

def get? (b : Bindings α) (name : String) : Option α := b.entries.lookup name

/-- The entries with one of them replaced, or added at the end. -/
def setEntry (name : String) (value : α) : List (String × α) → List (String × α)
  | [] => [(name, value)]
  | entry :: rest =>
    if entry.1 = name then (name, value) :: rest else entry :: setEntry name value rest

def set (b : Bindings α) (name : String) (value : α) : Bindings α :=
  ⟨setEntry name value b.entries⟩

/-- Binds names to values pairwise; of two values for one name the later stays. -/
def ofPairs (pairs : List (String × α)) : Bindings α :=
  pairs.foldl (fun b pair => b.set pair.1 pair.2) empty

@[simp] theorem get?_empty (name : String) : (empty : Bindings α).get? name = none := rfl

theorem lookup_entry (entry : String × α) (rest : List (String × α)) (name : String) :
    (entry :: rest).lookup name = if name = entry.1 then some entry.2 else rest.lookup name := by
  rw [List.lookup_cons]
  by_cases h : name = entry.1
  · simp [h]
  · simp [h, beq_false_of_ne h]

theorem lookup_setEntry (name other : String) (value : α) (entries : List (String × α)) :
    (setEntry name value entries).lookup other =
      if other = name then some value else entries.lookup other := by
  induction entries with
  | nil => rw [setEntry, lookup_entry]
  | cons entry rest ih =>
    rw [setEntry]
    by_cases h : entry.1 = name
    · rw [if_pos h, lookup_entry, lookup_entry, h]
      split <;> rfl
    · rw [if_neg h, lookup_entry, lookup_entry, ih]
      by_cases hother : other = name
      · have hne : other ≠ entry.1 := fun hsame => h (hsame.symm.trans hother)
        rw [if_neg hne, if_pos hother, if_pos hother]
      · rw [if_neg hother, if_neg hother]

@[simp] theorem get?_set (b : Bindings α) (name other : String) (value : α) :
    (b.set name value).get? other = if other = name then some value else b.get? other :=
  lookup_setEntry name other value b.entries

end Bindings

end UnitCalc
