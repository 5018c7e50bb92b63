import ReactiveCells.Lock.Ordered
import ReactiveCells.Program

/-!
# Taking locks — running programs inside monitors
-/

namespace ReactiveCells

variable {V P σ ε : Type}

/-- Runs `body` inside a lock. -/
def LockId.run (l : LockId) (body : Act V P σ ε V) : Act V P σ ε V :=
  Act.hold (.lock l) body

def LockId.isLocked (l : LockId) : Act V P σ ε Bool :=
  Act.isHeld (.lock l)

namespace OrderedLock

/-- Builds an ordered lock and reports it. -/
def create (ls : List LockId) : Act V P σ ε OrderedLock := do
  let o := on ls
  Act.report (.lockCreated o.locks.length o.needsTieBreaker)
  return o

/-- Runs `body` inside all the locks, entered in order. -/
def take (o : OrderedLock) (body : Act V P σ ε V) : Act V P σ ε V := do
  Act.report (.lockTaken o.locks)
  Act.holdAll o.acquisitions body

end OrderedLock

end ReactiveCells
