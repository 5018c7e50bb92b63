import ReactiveCells.Duplicates
import ReactiveCells.Program

/-!
# Ordered sets — reactive lists without duplicates

An ordered set is a publisher of lists. Whatever is written is first resolved by the set's policy;
a refused list leaves the set as it was.
-/

namespace ReactiveCells

/-- Values of type `V` that stand for lists of `T`. -/
class HasElements (V : Type) (T : outParam Type) where
  elements : V → List T
  ofElements : List T → V

/-- Lists stand for themselves. -/
instance {T : Type} : HasElements (List T) T where
  elements := id
  ofElements := id

/-- A publisher of lists and the policy for writes to it. -/
structure OrderedSet where
  publisher : PublisherRef
  policy : DuplicatePolicy
deriving DecidableEq, Repr

namespace OrderedSet

variable {V T P σ ε : Type} [HasElements V T] [BEq T]

open HasElements

/-- Resolves a list by a policy and reports a refusal. -/
def resolve (policy : DuplicatePolicy) (vs : List T) :
    Act V P σ ε (Except DuplicateValue (List T)) := do
  let answer := policy.resolve vs
  if let .error e := answer then Act.report (.duplicateRejected e.index e.firstIndex)
  return answer

/-- A set without elements. -/
def empty (policy : DuplicatePolicy) : Act V P σ ε OrderedSet := do
  return { publisher := ← Act.newPublisher none (ofElements []), policy }

/-- A set that holds what its policy makes of a list. -/
def ofList (policy : DuplicatePolicy) (vs : List T) :
    Act V P σ ε (Except DuplicateValue OrderedSet) := do
  match ← resolve policy vs with
  | .error e => return .error e
  | .ok resolved =>
      return .ok { publisher := ← Act.newPublisher none (ofElements resolved), policy }

/-- The elements of a set in order. -/
def get (s : OrderedSet) : Act V P σ ε (List T) := do
  return elements (← Act.current s.publisher)

def contains (s : OrderedSet) (v : T) : Act V P σ ε Bool := do
  return (← s.get).elem v

/-- Replaces the list; yields the reason if the list is refused. -/
def set (s : OrderedSet) (vs : List T) : Act V P σ ε (Except DuplicateValue Unit) := do
  match ← resolve s.policy vs with
  | .error e => return .error e
  | .ok resolved =>
      Act.publish s.publisher (ofElements resolved)
      return .ok ()

/-- Replaces the list by what `f` makes of it; yields the list then held, or the reason if the
result of `f` is refused. -/
def modify (s : OrderedSet) (f : Routine V P σ ε) :
    Act V P σ ε (Except DuplicateValue (List T)) := do
  let refused ← Act.newMemo []
  let held ← Act.amend s.publisher fun v => Act.prog do
    let next ← (f v).act
    match ← resolve s.policy (elements next) with
    | .ok resolved => return ofElements resolved
    | .error _ =>
        let _ ← Act.memo refused fun _ => [next]
        return v
  match ← Act.memo refused id with
  | [] => return .ok (elements held)
  | next :: _ => return s.policy.resolve (elements next)

def subscribe (s : OrderedSet) (keeps : List PublisherRef) (observer : V → Act V P σ ε Unit) :
    Act V P σ ε SubscriptionRef :=
  Act.attach s.publisher keeps observer

end OrderedSet

end ReactiveCells
