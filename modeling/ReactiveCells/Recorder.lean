import ReactiveCells.Program

/-!
# Recorders — everything a source emitted

A recorder is an observer that keeps what it is given, the replayed value included.
-/

namespace ReactiveCells

/-- The values recorded and the subscription that records them. -/
structure Recorder where
  recorded : MemoRef
  subscription : SubscriptionRef
deriving DecidableEq, Repr

namespace Recorder

variable {V P σ ε : Type}

/-- Starts recording with the subscribe operation of a source. The recorder keeps no publisher. -/
def attach
    (subscribe : List PublisherRef → (V → Act V P σ ε Unit) → Act V P σ ε SubscriptionRef) :
    Act V P σ ε Recorder := do
  let recorded ← Act.newMemo []
  let subscription ← subscribe [] fun v => do
    let _ ← Act.memo recorded (· ++ [v])
  return { recorded, subscription }

/-- The values recorded so far. -/
def values (r : Recorder) : Act V P σ ε (List V) :=
  Act.memo r.recorded id

/-- Stops recording. -/
def detach (r : Recorder) : Act V P σ ε Unit :=
  Act.dispose r.subscription

end Recorder

end ReactiveCells
