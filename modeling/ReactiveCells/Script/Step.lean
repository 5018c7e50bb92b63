import ReactiveCells.Script.Computation

/-!
# Script steps — what a script can ask for

A script is a list of steps. Steps name objects by strings, and functions in them may run further
steps. What could not be understood is kept as such and refused when it is reached: a whole step
by the constructor `malformed`, and any other part of a step as `none`.
-/

namespace ReactiveCells.Script

/-- The containers a script can make. -/
inductive BoxKind where
  | plain
  | cas
  | lock
  | rx
  | rxlock
deriving DecidableEq, Repr

mutual

/-- A function of a script. -/
inductive Fn where
  | compute (c : Computation)
  | panic (text : String)
  /-- Logs the value it is given. -/
  | tap (tag : String)
  /-- Runs steps with its value as their argument. -/
  | perform (steps : List Step)
  /-- Panics at every call after the first `n`. -/
  | limit (n : Nat) (text : String)
  /-- The `i`-th call applies the `i`-th function, later calls the last one. -/
  | nth (fs : List Fn)
  | seq (fs : List Fn)
  | cond (test : Test) (yes no : Fn)

/-- A function of two values. -/
inductive Combiner where
  | combine (c : Combination)
  | andThen (g : Combiner) (f : Fn)

/-- A value given outright, or a function of the argument at hand. -/
inductive Expr where
  | lit (v : Value)
  | arg (f : Fn)

/-- What an observer does when a test holds. -/
inductive Rule where
  | mk (test : Test) (steps : List Step)

/-- A step and the name under which it is logged. -/
inductive Step where
  | mk (name : String) (op : Operation)

/-- What a step does. -/
inductive Operation where
  | malformed
  -- making objects
  | newBox (id : String) (kind : BoxKind) (value : Option Expr) (lock : Option String)
  | view (id on : String) (forward backward : Option Fn) (reverse : Bool)
  | enforce (id on : String) (f : Option Fn)
  /-- An open breaker has a value of its own. -/
  | breaker (id on : String) (closed : Option Bool) (value : Option Expr)
  | derivedMap (id on : String) (f : Option Fn)
  | derivedCombine (id a b : String) (g : Option Combiner)
  | orderedSet (id : String) (policy : DuplicatePolicy) (values : Option (List Value))
  | clone (id on : String)
  | inner (id on : String)
  -- containers
  | get (on : String)
  | set (on : String) (value : Option Expr)
  | modify (on : String) (f : Option Fn)
  | compareAndSet (on : String) (expect update : Option Expr)
  | getAndSet (on : String) (value : Option Expr)
  | convert (on : String) (value : Option Expr)
  | revert (on : String) (value : Option Expr)
  | contains (on : String) (value : Option Expr)
  | policy (on : String)
  | setClosed (on : String) (closed : Option Bool)
  | isClosed (on : String)
  | observerCount (on : String)
  -- subscriptions
  | subscribe (id on : String) (rules : Option (List Rule))
  | newSubscription (id : String) (steps : List Step)
  | emptySubscription (id : String)
  | dispose (on : String)
  | isDisposed (on : String)
  | recorder (id on : String)
  | recorded (on : String)
  | registry (id : String)
  | register (on sub : String)
  | registrySize (on : String)
  | disposeAll (on : String)
  -- locks
  | newLock (id : String) (key : Option Nat)
  | lockOf (id on : String)
  | orderKey (on : String)
  | sameLock (a b : String)
  | isLocked (on : String)
  | lockRun (on : String) (steps : Option (List Step))
  | ordered (id : String) (locks : List String)
  | sameSequence (a b : String)
  | take (on : String) (steps : Option (List Step))
  | takeAndGet (on : String) (steps : Option (List Step)) (value : Option Expr)
  -- control
  | echo (value : Option Expr)
  | panic (text : String)
  | attempt (steps : List Step)
  | hammer (on : String) (f : Option Fn) (threads iterations : Option Nat)
  | debug (on : String) (converter : Bool)
  | deadlockReport

end

end ReactiveCells.Script
