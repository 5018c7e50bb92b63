import ReactiveCells.Node
import ReactiveCells.Registry

/-!
# Breakers — switchable couplings

A breaker keeps a copy of its delegate's value. While it is closed, a subscription forwards what
the delegate emits into the copy, and writes to the breaker go on to the delegate; while it is
open the two go their own ways. Closing first pushes the copy into the delegate.
-/

namespace ReactiveCells

/-- What a breaker has of its own: its copy, and the bag that holds the forwarding subscription
while it is closed. -/
structure Breaker where
  copy : PublisherRef
  coupling : BagRef
deriving DecidableEq, Repr

namespace Breaker

variable {V P σ ε : Type} [BEq V]

/-- The handle of a breaker in front of a delegate. -/
def node {F : Type} (b : Breaker) (delegate : Node F .reactive) : Node F .reactive :=
  .breaker delegate b.copy b.coupling

def isClosed (b : Breaker) : Act V P σ ε Bool :=
  Node.isCoupled b.coupling

/-- Closes a breaker that is open. -/
def close (b : Breaker) (delegate : Node (Routine V P σ ε) .reactive) : Act V P σ ε Unit := do
  delegate.set (← Act.current b.copy)
  let s ← delegate.subscribe [b.copy] fun v => Act.publish b.copy v
  let _ ← Act.bag b.coupling fun _ => [s]
  Act.report .breakerClosed

/-- Opens a breaker that is closed. -/
def breakOpen (b : Breaker) : Act V P σ ε Unit := do
  let taken ← Act.bag b.coupling fun _ => []
  Registry.disposeEach taken
  Act.report .breakerOpened

/-- Closes or opens a breaker; asking for the state it is in does nothing. -/
def setClosed (b : Breaker) (delegate : Node (Routine V P σ ε) .reactive) (closed : Bool) :
    Act V P σ ε Unit := do
  if (← b.isClosed) == closed then return
  if closed then b.close delegate else b.breakOpen

/-- An open breaker with a value of its own. -/
def createOpen (initial : V) : Act V P σ ε Breaker := do
  let copy ← Act.newPublisher none initial
  let coupling ← Act.newBag
  return { copy, coupling }

/-- A closed breaker, starting from the delegate's value. -/
def createClosed (delegate : Node (Routine V P σ ε) .reactive) : Act V P σ ε Breaker := do
  let b ← createOpen (← delegate.get)
  b.setClosed delegate true
  return b

end Breaker

end ReactiveCells
