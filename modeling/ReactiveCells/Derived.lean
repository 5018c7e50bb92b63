import ReactiveCells.Node
import ReactiveCells.Registry

/-!
# Derived values — computed from reactive nodes

A derived value has a publisher of its own and subscriptions to its sources, which compute it anew
whenever a source emits; only distinct results are passed on. A combination of two sources keeps
the latest value of each side and never reads a source while it is being notified.
-/

namespace ReactiveCells

/-- A computed value and the registry of its source subscriptions. -/
structure Derived where
  value : PublisherRef
  sources : BagRef
deriving DecidableEq, Repr

namespace Derived

variable {V P σ ε : Type} [BEq V]

/-- Follows one source. -/
def follow (source : Node (Routine V P σ ε) .reactive) (compute : Routine V P σ ε) :
    Act V P σ ε Derived := do
  let value ← Act.newPublisher none (← (compute (← source.get)).act)
  let sources ← Act.newBag
  let s ← source.subscribe [value] fun v => do Act.publish value (← (compute v).act)
  Registry.register sources s
  return { value, sources }

/-- The pair of latest values with the first side replaced. -/
def replaceLeft (v : V) : List V → List V
  | _ :: rest => v :: rest
  | [] => [v]

/-- The pair of latest values with the second side replaced. -/
def replaceRight (v : V) : List V → List V
  | left :: _ => [left, v]
  | [] => [v]

/-- Applies a function of two values to a pair of latest values. -/
def combinePair (compute : V → V → Prog V P σ ε) (fallback : V) : List V → Prog V P σ ε
  | left :: right :: _ => compute left right
  | _ => .ret fallback

/-- Records a source's new value and computes the combination inside the derived publisher. -/
def recombine (value : PublisherRef) (latest : MemoRef) (compute : V → V → Prog V P σ ε)
    (replace : V → List V → List V) (v : V) : Act V P σ ε Unit := do
  let _ ← Act.amend value fun _ => Act.prog do
    let old ← Act.memo latest (replace v)
    (combinePair compute v (replace v old)).act

/-- Follows two sources. -/
def combine (a b : Node (Routine V P σ ε) .reactive) (compute : V → V → Prog V P σ ε) :
    Act V P σ ε Derived := do
  let left ← a.get
  let right ← b.get
  let latest ← Act.newMemo [left, right]
  let value ← Act.newPublisher none (← (compute left right).act)
  let sources ← Act.newBag
  Registry.register sources (← a.subscribe [value] (recombine value latest compute replaceLeft))
  Registry.register sources (← b.subscribe [value] (recombine value latest compute replaceRight))
  return { value, sources }

def get (d : Derived) : Act V P σ ε V :=
  Act.current d.value

def subscribe (d : Derived) (keeps : List PublisherRef) (observer : V → Act V P σ ε Unit) :
    Act V P σ ε SubscriptionRef :=
  Act.attach d.value keeps observer

/-- Stops following the sources; the value computed last stays. -/
def dispose (d : Derived) : Act V P σ ε Unit :=
  Registry.disposeAll d.sources

end Derived

end ReactiveCells
