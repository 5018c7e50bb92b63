import ReactiveCells.Script.Store

/-!
# Descriptions — the texts that show what an object holds

The text of an object names its kind and shows its parts, and the values it holds at that moment.
-/

namespace ReactiveCells.Script

/-- The text of a record: its kind and its fields in order. -/
def recordText (kind : String) (fields : List (String × String)) : String :=
  kind ++ " \x7b " ++ ", ".intercalate (fields.map fun f => f.1 ++ ": " ++ f.2) ++ " \x7d"

/-- The text of a record that does not show all its fields. -/
def openRecordText (kind : String) (fields : List (String × String)) : String :=
  kind ++ " \x7b " ++ String.join (fields.map fun f => f.1 ++ ": " ++ f.2 ++ ", ") ++ ".. \x7d"

/-- The text of a wrapper around one part. -/
def wrapperText (kind part : String) : String :=
  kind ++ "(" ++ part ++ ")"

/-- The text of a policy where an object is shown. -/
def policyText : DuplicatePolicy → String
  | .reject => "Error"
  | .takeFirst => "TakeFirst"
  | .takeLast => "TakeLast"

/-- The word for a policy in scripts. -/
def policyWord : DuplicatePolicy → String
  | .reject => "error"
  | .takeFirst => "take_first"
  | .takeLast => "take_last"

/-- What is said where deadlocks are not watched for. -/
def deadlockText : String :=
  "deadlock detection disabled, enable the `deadlock_detection` feature for details"

def converterText : String := openRecordText "Converter" []

def describeSubscription (s : SubscriptionRef) : Doing String := do
  return recordText "Subscription" [("disposed", flagText (← Act.isDisposed s))]

def describeSubscriptions : List SubscriptionRef → Doing (List String)
  | [] => return []
  | s :: rest => do
      let first ← describeSubscription s
      return first :: (← describeSubscriptions rest)

def describeNode : {k : Kind} → Node Closure k → Doing String
  | _, .plain c => do return wrapperText "Plain" (← Act.load c).text
  | _, .swap c => do return wrapperText "CasBox" (← Act.load c).text
  | _, .guarded l c => do
      return recordText "LockBox" [("lock", l.text), ("value", (← Act.load c).text)]
  | _, .rx p => do return wrapperText "RxBox" (← Act.current p).text
  | _, .rxGuarded l p => do
      let v ← Act.hold (.lock l) (Act.current p)
      return recordText "RxLockBox" [("lock", l.text), ("value", v.text)]
  | _, .view root _ => do return openRecordText "Mapped" [("root", ← describeNode root)]
  | _, .enforced root _ s => do
      return recordText "Enforced"
        [("underlying", ← describeNode root), ("subscription", ← describeSubscription s)]
  | _, .breaker delegate copy coupling => do
      return recordText "Breaker"
        [("closed", flagText (← Node.isCoupled coupling)), ("value", (← Act.current copy).text),
          ("delegate", ← describeNode delegate)]

/-- The text of an object. -/
def describe : Object → Doing String
  | .node n => describeNode n
  | .derived d => do return wrapperText "Derived" (← d.get).text
  | .orderedSet s => do
      let vs : List Value ← s.get
      return recordText "RxOrderedSet"
        [("policy", policyText s.policy), ("values", listText (Value.texts vs))]
  | .subscription s => describeSubscription s
  | .recorder r => do return recordText "Recorder" [("values", listText (Value.texts (← r.values)))]
  | .registry r => do
      let subscriptions := listText (← describeSubscriptions (← Act.bag r id))
      return recordText "SubscriptionRegistry"
        [("subscriptions", recordText "Mutex" [("data", subscriptions)])]
  | .lock l => return l.text
  | .orderedLock o => do
      return recordText "OrderedLock"
        [("locks", listText (o.locks.map LockId.text)),
          ("needs_tie_breaker", flagText o.needsTieBreaker)]

end ReactiveCells.Script
