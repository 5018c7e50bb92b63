/-!
# Cells — a value and the stamp of the store that put it there

Every store into a cell gets a stamp of its own, also one that stores a value equal to the one
held. A conditional store made against a stamp therefore succeeds exactly if nothing at all was
stored since the stamp was read.

Main statements: `swapIn_eq_some_iff` (when a conditional store succeeds) and `stamp_lt_store`
(a store never reuses a stamp).
-/

namespace ReactiveCells

/-- A value together with the number of stores made before it. -/
structure Cell (V : Type) where
  value : V
  stamp : Nat
deriving Repr

namespace Cell

variable {V : Type}

/-- A cell that was never stored to. -/
def new (v : V) : Cell V := ⟨v, 0⟩

/-- Stores a value under a new stamp. -/
def store (c : Cell V) (v : V) : Cell V := ⟨v, c.stamp + 1⟩

/-- Stores `v` if nothing was stored since `stamp` was read. -/
def swapIn (c : Cell V) (stamp : Nat) (v : V) : Option (Cell V) :=
  if c.stamp = stamp then some (c.store v) else none

/-- Stores `update` if the value held equals `expect`. -/
def exchange [BEq V] (c : Cell V) (expect update : V) : Option (Cell V) :=
  if c.value == expect then some (c.store update) else none

theorem stamp_lt_store (c : Cell V) (v : V) : c.stamp < (c.store v).stamp :=
  Nat.lt_succ_self _

theorem swapIn_eq_some_iff (c d : Cell V) (stamp : Nat) (v : V) :
    c.swapIn stamp v = some d ↔ c.stamp = stamp ∧ d = c.store v := by
  by_cases h : c.stamp = stamp <;> simp [swapIn, h, eq_comm]

end Cell

end ReactiveCells
