/-!
# Heaps — numbered things that never go away

A heap hands out numbers in order of allocation. An entry may be replaced but is never removed, so
a number that once named an entry names one for good.

Main statements: `get?_set`, `get?_alloc` and the size equations say what the operations do to
every number.
-/

namespace ReactiveCells

/-- Entries numbered from zero in order of allocation. -/
structure Heap (α : Type) where
  entries : List α

namespace Heap

variable {α : Type}

/-- The heap without entries. -/
def empty : Heap α := ⟨[]⟩

/-- How many entries were allocated. -/
def size (h : Heap α) : Nat :=
  h.entries.length

/-- The entry with a given number, if it was allocated. -/
def get? (h : Heap α) (i : Nat) : Option α :=
  h.entries[i]?

/-- Replaces an entry; a number that was not allocated is ignored. -/
def set (h : Heap α) (i : Nat) (a : α) : Heap α :=
  ⟨h.entries.set i a⟩

/-- Adds an entry; its number is the size before. -/
def alloc (h : Heap α) (a : α) : Heap α :=
  ⟨h.entries ++ [a]⟩

@[simp] theorem get?_empty (i : Nat) : (empty : Heap α).get? i = none := rfl

@[simp] theorem size_set (h : Heap α) (i : Nat) (a : α) : (h.set i a).size = h.size := by
  simp [size, set]

@[simp] theorem size_alloc (h : Heap α) (a : α) : (h.alloc a).size = h.size + 1 := by
  simp [size, alloc]

theorem get?_set (h : Heap α) (i j : Nat) (a : α) :
    (h.set i a).get? j = if i = j then (h.get? j).map fun _ => a else h.get? j := by
  simp only [get?, set, List.getElem?_set]
  by_cases e : i = j
  · subst e
    by_cases hi : i < h.entries.length <;> simp [hi]
  · simp [e]

@[simp] theorem get?_set_self (h : Heap α) (i : Nat) (a b : α) (hi : h.get? i = some b) :
    (h.set i a).get? i = some a := by
  simp [get?_set, hi]

theorem get?_set_ne (h : Heap α) (i j : Nat) (a : α) (e : i ≠ j) :
    (h.set i a).get? j = h.get? j := by
  simp [get?_set, e]

/-- What is there after something has been taken away was there before. -/
theorem of_get?_set_none (h : Heap (Option α)) (i j : Nat) (a : α)
    (hj : (h.set i none).get? j = some (some a)) : h.get? j = some (some a) := by
  by_cases e : i = j
  · rw [get?_set, if_pos e] at hj
    obtain ⟨b, -, hb⟩ := Option.map_eq_some_iff.1 hj
    exact nomatch hb
  · rwa [get?_set_ne _ _ _ _ e] at hj

/-- Replacing an entry by itself changes nothing. -/
theorem set_of_get? (h : Heap α) (i : Nat) (a : α) (hi : h.get? i = some a) : h.set i a = h := by
  obtain ⟨hlt, rfl⟩ := List.getElem?_eq_some_iff.1 hi
  exact congrArg Heap.mk (List.set_getElem_self hlt)

@[simp] theorem get?_alloc_self (h : Heap α) (a : α) : (h.alloc a).get? h.size = some a := by
  simp [get?, alloc, size]

@[simp] theorem get?_size (h : Heap α) : h.get? h.size = none := by
  simp [get?, size]

/-- A number that was never allocated names nothing or the entry added. -/
theorem get?_alloc_of_none (h : Heap α) (i : Nat) (a : α) (hi : h.get? i = none) :
    (h.alloc a).get? i = none ∨ (h.alloc a).get? i = some a := by
  have hle : h.entries.length ≤ i := List.getElem?_eq_none_iff.1 hi
  rw [get?, alloc, List.getElem?_append_right hle]
  cases i - h.entries.length with
  | zero => exact Or.inr rfl
  | succ n => exact Or.inl rfl

/-- Allocation leaves every earlier entry in place. -/
theorem get?_alloc_of_some (h : Heap α) (i : Nat) (a b : α) (hi : h.get? i = some b) :
    (h.alloc a).get? i = some b := by
  have hlt : i < h.entries.length := (List.getElem?_eq_some_iff.1 hi).1
  simpa [get?, alloc, List.getElem?_append_left hlt] using hi

/-- What a heap with one more entry holds was there before or is the entry added. -/
theorem of_get?_alloc_eq_some (h : Heap α) (i : Nat) (a b : α) (hi : (h.alloc a).get? i = some b) :
    h.get? i = some b ∨ b = a := by
  cases hold : h.get? i with
  | some c =>
      rw [get?_alloc_of_some h i a c hold] at hi
      exact Or.inl hi
  | none =>
      rcases get?_alloc_of_none h i a hold with hnone | hnew
      · exact nomatch hnone.symm.trans hi
      · exact Or.inr (Option.some.inj (hi.symm.trans hnew))

end Heap

end ReactiveCells
