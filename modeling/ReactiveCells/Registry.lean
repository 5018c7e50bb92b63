import ReactiveCells.Program

/-!
# Registries — subscriptions that are disposed together

A registry is a bag of subscriptions in order of registration. `disposeAll` takes the whole bag
out before it disposes the first of them, so a teardown may register again.
-/

namespace ReactiveCells.Registry

variable {V P σ ε : Type}

def register (r : BagRef) (s : SubscriptionRef) : Act V P σ ε Unit := do
  let _ ← Act.bag r (· ++ [s])

/-- How many subscriptions a registry holds. -/
def size (r : BagRef) : Act V P σ ε Nat := do
  return (← Act.bag r id).length

/-- Disposes subscriptions, the first one first. -/
def disposeEach : List SubscriptionRef → Act V P σ ε Unit
  | [] => pure ()
  | s :: rest => do
      Act.dispose s
      disposeEach rest

/-- Empties a registry and disposes what it held. -/
def disposeAll (r : BagRef) : Act V P σ ε Unit := do
  let taken ← Act.bag r fun _ => []
  Act.report (.disposing taken.length)
  disposeEach taken

end ReactiveCells.Registry
