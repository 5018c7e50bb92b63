/-!
# Monitors — lock identities and the monitors held

A `LockId` is a token for mutual exclusion. It carries the serial number that makes it itself and
the order key by which several locks are acquired; two lock ids are equal only if they name the
same monitor, so distinct locks may share a key.

The monitors held at a moment are a list, the latest first. Monitors are reentrant: entering one
that is already held adds another entry, and its hold depth is the number of its entries.

Main statements: `depth_enter` and `depth_leave` say what entering and leaving do to the depth of
every monitor, and `leave_enter` that a matching pair changes nothing at all.
-/

namespace ReactiveCells

/-- A lock: its identity and the key that orders acquisition. -/
structure LockId where
  serial : Nat
  key : Nat
deriving DecidableEq, Repr

/-- What can be held: the monitor of a lock, or the one monitor that is taken first by lock sets
with colliding keys. -/
inductive Monitor where
  | tieBreaker
  | lock (l : LockId)
deriving DecidableEq, Repr

/-- The monitors held, the latest entered first. -/
abbrev Held := List Monitor

namespace Held

/-- How often a monitor is held. -/
def depth (h : Held) (m : Monitor) : Nat :=
  h.count m

/-- Enters a monitor; it may already be held. -/
def enter (h : Held) (m : Monitor) : Held :=
  m :: h

/-- Gives back the latest hold of a monitor. -/
def leave (h : Held) (m : Monitor) : Held :=
  h.erase m

theorem depth_leave (h : Held) (m n : Monitor) :
    (h.leave m).depth n = h.depth n - if m = n then 1 else 0 := by
  by_cases e : m = n
  · subst e; simp [leave, depth, List.count_erase_self]
  · simp [leave, depth, e, List.count_erase_of_ne (Ne.symm e)]

@[simp] theorem leave_enter (h : Held) (m : Monitor) : (h.enter m).leave m = h := by
  simp [leave, enter]

end Held

end ReactiveCells
