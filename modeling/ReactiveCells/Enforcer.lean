import ReactiveCells.Node

/-!
# Enforcers — invariants on reactive nodes

An enforcer watches every value a node emits and writes back what its invariant makes of it, if
that differs. The facade `Node.enforced` in front of the node shows corrected values only. The
node itself may hold a violating value until its correction is delivered, and contradictory
enforcers on one node correct each other without end.
-/

namespace ReactiveCells.Enforcer

variable {V P σ ε : Type} [BEq V]

/-- Writes `invariant v` back to the node if it differs from `v`. -/
def correct (node : Node (Routine V P σ ε) .reactive) (invariant : Routine V P σ ε) (v : V) :
    Act V P σ ε Unit := do
  let corrected ← (invariant v).act
  if corrected != v then
    Act.report .correcting
    node.set corrected

/-- Attaches an enforcer to a node. The subscription goes into the facade and ends the
correction when it is disposed. Until then the enforcer keeps the node, even if nobody else does. -/
def enforce (node : Node (Routine V P σ ε) .reactive) (invariant : Routine V P σ ε) :
    Act V P σ ε SubscriptionRef := do
  let s ← node.subscribe node.publishers (correct node invariant)
  Act.report .enforcerAttached
  return s

/-- Detaches an enforcer; doing so again changes nothing. -/
def dispose (s : SubscriptionRef) : Act V P σ ε Unit := do
  if !(← Act.isDisposed s) then Act.report .enforcerDetached
  Act.dispose s

end ReactiveCells.Enforcer
