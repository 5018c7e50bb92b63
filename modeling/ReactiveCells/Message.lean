import ReactiveCells.Lock.Monitor

/-!
# Messages — what the containers report about themselves

A message names an occurrence; its level and its text are fixed here and nowhere else.
-/

namespace ReactiveCells

/-- How prominent a message is. -/
inductive Level where
  | debug
  | trace
deriving DecidableEq, Repr

/-- An occurrence that a container reports. -/
inductive Message where
  /-- A conditional store lost against another store; `attempt` of them did so far. -/
  | contended (attempt : Nat)
  | lockCreated (locks : Nat) (needsTieBreaker : Bool)
  | lockTaken (locks : List LockId)
  | duplicateRejected (index firstIndex : Nat)
  | correcting
  | enforcerAttached
  | enforcerDetached
  | breakerClosed
  | breakerOpened
  | observerSubscribed (id observers : Nat)
  | observerUnsubscribed (id observers : Nat)
  | disposing (count : Nat)
deriving DecidableEq, Repr

/-- The text of a truth value. -/
def flagText (b : Bool) : String :=
  if b then "true" else "false"

/-- The text of a lock: its order key. -/
def LockId.text (l : LockId) : String :=
  "LockId(" ++ toString l.key ++ ")"

/-- The text of a list: its elements between brackets, separated by commas. -/
def listText (texts : List String) : String :=
  "[" ++ ", ".intercalate texts ++ "]"

namespace Message

def level : Message → Level
  | .contended _ | .lockTaken _ | .correcting | .observerSubscribed .. | .observerUnsubscribed .. =>
      .trace
  | .lockCreated .. | .duplicateRejected .. | .enforcerAttached | .enforcerDetached
  | .breakerClosed | .breakerOpened | .disposing _ => .debug

def text : Message → String
  | .contended n => "CAS contended, retrying. attempt: " ++ toString n
  | .lockCreated n b =>
      "Ordered lock created. locks: " ++ toString n ++ ", needs_tie_breaker: " ++ flagText b
  | .lockTaken ls => "Taking ordered lock. locks: " ++ listText (ls.map LockId.text)
  | .duplicateRejected i j =>
      "Rejecting duplicate. index: " ++ toString i ++ ", first_index: " ++ toString j
  | .correcting => "Correcting value that violates invariant"
  | .enforcerAttached => "Invariant enforcer attached"
  | .enforcerDetached => "Invariant enforcer detached"
  | .breakerClosed => "Breaker closed"
  | .breakerOpened => "Breaker opened"
  | .observerSubscribed id n =>
      "Observer subscribed. id: " ++ toString id ++ ", observers: " ++ toString n
  | .observerUnsubscribed id n =>
      "Observer unsubscribed. id: " ++ toString id ++ ", observers: " ++ toString n
  | .disposing n => "Disposing subscriptions. count: " ++ toString n

end Message

end ReactiveCells
