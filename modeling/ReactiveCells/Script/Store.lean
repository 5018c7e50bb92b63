import ReactiveCells.Breaker
import ReactiveCells.Derived
import ReactiveCells.Enforcer
import ReactiveCells.Lock.Taking
import ReactiveCells.Recorder
import ReactiveCells.Script.Step

/-!
# Script store — named objects, counters and notes

What a script keeps between its steps: the objects it has named, and the counters of functions and
observers that count their calls. A function in use is known by the execution that made it and by
the path to it inside the function that was written there, so every part has a counter of its own.

A step holds the object it works on until the step is over, even if its name is given to another
object meanwhile. The publishers that are kept in this way, and by names, are the `Store.kept`.
-/

namespace ReactiveCells.Script

/-- A function in use. -/
structure Closure where
  fn : Fn
  /-- The execution that made it. -/
  origin : Nat
  /-- Where it stands in the function made then, innermost first. -/
  path : List Nat

/-- The part of a function in use that stands at place `i`. -/
def Closure.part (c : Closure) (i : Nat) (f : Fn) : Closure :=
  ⟨f, c.origin, i :: c.path⟩

/-- Something with a name. -/
inductive Object where
  | node {k : Kind} (n : Node Closure k)
  | derived (d : Derived)
  | orderedSet (s : OrderedSet)
  | subscription (s : SubscriptionRef)
  | recorder (r : Recorder)
  | registry (r : BagRef)
  | lock (l : LockId)
  | orderedLock (o : OrderedLock)

/-- The publishers that an object keeps. A subscription keeps none. -/
def Object.publishers : Object → List PublisherRef
  | .node n => n.publishers
  | .derived d => [d.value]
  | .orderedSet s => [s.publisher]
  | .subscription _ | .recorder _ | .registry _ | .lock _ | .orderedLock _ => []

/-- Whether an object is a view with a converter. -/
def Object.isView : Object → Bool
  | .node (.view ..) => true
  | _ => false

/-- Why a step was not performed. -/
inductive Refusal where
  | notFound
  | unsupported
  | badInput
deriving DecidableEq, Repr

/-- What a step answers. -/
inductive Answer where
  | null
  | value (v : Value)
  | panicked (text : String)
  | refused (why : Refusal)
  | duplicate (e : DuplicateValue)
  | recording (vs : List Value)
  | registry (size : Nat)
  /-- The keys of an ordered lock in order of acquisition. -/
  | acquisition (keys : List Nat) (needsTieBreaker : Bool)

/-- What is logged while a script runs. -/
inductive Note where
  | observed (name : String) (v : Value)
  | tapped (tag : String) (v : Value)
  | nested (name : String) (answer : Answer)
  /-- A step of the script itself was performed. -/
  | finished (answer : Answer)

/-- What a script keeps between its steps. -/
structure Store where
  names : List (String × Object)
  /-- The publishers of the objects that steps in progress work on. -/
  inUse : List PublisherRef
  /-- How many functions and observers were made. -/
  origins : Nat
  counts : List ((Nat × List Nat) × Nat)

/-- The store of a script that has not begun. -/
def Store.empty : Store := ⟨[], [], 0, []⟩

/-- The publishers kept by names and by steps in progress. -/
def Store.kept (s : Store) : List PublisherRef :=
  s.names.flatMap (fun entry => entry.2.publishers) ++ s.inUse

/-- What runs on behalf of a script. -/
inductive Procedure where
  | apply (f : Closure) (v : Value)
  | combine (g : Combiner) (origin : Nat) (path : List Nat) (a b : Value)
  | steps (ss : List Step) (arg : Option Value)
  | observe (name : String) (origin : Nat) (rules : List Rule) (v : Value)

/-- A program of a script. -/
abbrev Code := Prog Value Procedure Store Note

/-- Something a script does on its way. -/
abbrev Doing := Act Value Procedure Store Note

/-- Something a script does on its way, unless it is refused. -/
abbrev Attempt := ExceptT Refusal Doing

/-- Something that is never refused. -/
def sure {α : Type} (doing : Doing α) : Attempt α :=
  ExceptT.lift doing

/-- The same entries with the one under `key` replaced. -/
def replaceEntry {α β : Type} [BEq α] (key : α) (b : β) : List (α × β) → List (α × β)
  | [] => [(key, b)]
  | (a, x) :: rest => if a == key then (key, b) :: rest else (a, x) :: replaceEntry key b rest

/-- What the script keeps at this moment. -/
def readStore : Doing Store :=
  Act.own id

/-- Gives a name to an object, taking it from its holder. -/
def bindName (name : String) (o : Object) : Doing Unit := do
  let _ ← Act.own fun s => { s with names := replaceEntry name o s.names }

/-- The object with a name, for a glance. -/
def glanceAt (name : String) : Attempt Object := do
  let s ← readStore
  match s.names.lookup name with
  | some o => return o
  | none => throw .notFound

/-- Takes publishers into use. -/
def use (ps : List PublisherRef) : Doing Unit := do
  let _ ← Act.own fun s => { s with inUse := ps ++ s.inUse }

/-- The object with a name, for a step that works on it until it is over. -/
def lookupName (name : String) : Attempt Object := do
  let o ← glanceAt name
  use o.publishers
  return o

/-- Does something, after which exactly the publishers in use before are in use. -/
def releasing {α : Type} (doing : Doing α) : Doing α := do
  let before ← readStore
  let a ← doing
  let _ ← Act.own fun s => { s with inUse := before.inUse }
  return a

/-- A number for a function or an observer that is made now. -/
def newOrigin : Doing Nat := do
  let s : Store ← Act.own fun s => { s with origins := s.origins + 1 }
  return s.origins

/-- Puts a function to use. -/
def instantiate (f : Fn) : Doing Closure := do
  return ⟨f, ← newOrigin, []⟩

/-- Counts one more call; yields the calls made, this one included. -/
def countCall (origin : Nat) (path : List Nat) : Doing Nat := do
  let calls (s : Store) : Nat := (s.counts.lookup (origin, path)).getD 0 + 1
  let old ← Act.own fun s => { s with counts := replaceEntry (origin, path) (calls s) s.counts }
  return calls old

/-- The routine of a function in use. A computation needs no procedure. -/
def Closure.routine (f : Closure) : Routine Value Procedure Store Note :=
  match f.fn with
  | .compute c => fun v => .ret (c.apply v)
  | _ => fun v => .call (.apply f v) .ret

/-- A node as the library takes it. -/
def routines {k : Kind} (n : Node Closure k) : Node (Routine Value Procedure Store Note) k :=
  n.map Closure.routine

end ReactiveCells.Script
