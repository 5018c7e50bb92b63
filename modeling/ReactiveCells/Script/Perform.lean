import ReactiveCells.Script.Describe

/-!
# Performing steps — what the steps and functions of a script do

`perform` gives the answer of one step; `Procedure.body` runs what a script has put to use: its
functions, its nested steps and its observers. Both only hand work to the containers and to
procedures, so neither recurs.

A step looks up its objects before it looks at the rest of what it was given, and it is refused
before it does anything: a malformed step first of all, then one that names no object, then one
whose object lacks the operation, and last one with a part that could not be understood or a value
that cannot be computed.
-/

namespace ReactiveCells.Script

open HasElements

/-- A part of a step that has to be understood. -/
def given {α : Type} : Option α → Attempt α
  | some a => return a
  | none => throw .badInput

/-- How to compute an expression, given the argument at hand. -/
def prepare (arg : Option Value) : Option Expr → Except Refusal (Doing Value)
  | none => .error .badInput
  | some (.lit v) => .ok (return v)
  | some (.arg f) =>
      match arg with
      | none => .error .badInput
      | some v => .ok do
          let used ← instantiate f
          Act.call (.apply used v)

/-- The value an expression has, given the argument at hand. -/
def evaluate (arg : Option Value) (e : Option Expr) : Attempt Value :=
  match prepare arg e with
  | .ok computing => sure computing
  | .error why => throw why

/-- Runs steps with an argument. -/
def runSteps (steps : List Step) (arg : Option Value) : Doing Value :=
  Act.call (.steps steps arg)

/-- A node of any kind. -/
def lookupNode (name : String) : Attempt ((k : Kind) × Node Closure k) := do
  match ← lookupName name with
  | @Object.node k n => return ⟨k, n⟩
  | _ => throw .unsupported

def lookupReactive (name : String) : Attempt (Node Closure .reactive) := do
  match ← lookupName name with
  | @Object.node .reactive n => return n
  | _ => throw .unsupported

def lookupSwap (name : String) : Attempt (Node Closure .swap) := do
  match ← lookupName name with
  | @Object.node .swap n => return n
  | _ => throw .unsupported

/-- The outermost converter of a view. -/
def lookupConverter (name : String) : Attempt (Converter Closure) := do
  match ← lookupName name with
  | .node (.view _ conv) => return conv
  | _ => throw .unsupported

def lookupBreaker (name : String) : Attempt (Node Closure .reactive × Breaker) := do
  match ← lookupName name with
  | .node (.breaker delegate copy coupling) => return (delegate, { copy, coupling })
  | _ => throw .unsupported

def lookupSet (name : String) : Attempt OrderedSet := do
  match ← lookupName name with
  | .orderedSet s => return s
  | _ => throw .unsupported

def lookupRecorder (name : String) : Attempt Recorder := do
  match ← lookupName name with
  | .recorder r => return r
  | _ => throw .unsupported

def lookupRegistry (name : String) : Attempt BagRef := do
  match ← lookupName name with
  | .registry r => return r
  | _ => throw .unsupported

def lookupOrdered (name : String) : Attempt OrderedLock := do
  match ← lookupName name with
  | .orderedLock o => return o
  | _ => throw .unsupported

/-- A lock, or the lock of a node that has one. The node itself is not held on to. -/
def lookupLock (name : String) : Attempt LockId := do
  match ← glanceAt name with
  | .lock l => return l
  | .node n =>
      match n.lock? with
      | some l => return l
      | none => throw .unsupported
  | _ => throw .unsupported

def lookupLocks : List String → Attempt (List LockId)
  | [] => return []
  | name :: rest => do
      let l ← lookupLock name
      return l :: (← lookupLocks rest)

/-- How to register an observer. -/
abbrev Subscribe := List PublisherRef → (Value → Doing Unit) → Doing SubscriptionRef

/-- How to subscribe to a reactive node or a derived value. -/
def subscribeTo : Object → Attempt Subscribe
  | @Object.node .reactive n => return (routines n).subscribe
  | .derived d => return d.subscribe
  | _ => throw .unsupported

/-- A new container. -/
def newBox (kind : BoxKind) (lock : Option LockId) (v : Value) : Doing Object :=
  let locked : Doing LockId :=
    match lock with
    | some l => return l
    | none => Act.newLock none
  match kind with
  | .plain => do return .node (.plain (← Act.newCell v))
  | .cas => do return .node (.swap (← Act.newCell v))
  | .lock => do
      let l ← locked
      return .node (.guarded l (← Act.newCell v))
  | .rx => do return .node (.rx (← Act.newPublisher none v))
  | .rxlock => do
      let l ← locked
      return .node (.rxGuarded l (← Act.newPublisher (some l) v))

/-- Applies a function to a node's value a number of times. -/
def modifyOften {k : Kind} (n : Node (Routine Value Procedure Store Note) k)
    (f : Routine Value Procedure Store Note) : Nat → Doing Unit
  | 0 => return ()
  | times + 1 => do
      let _ ← n.modify f
      modifyOften n f times

/-- Stores an object under a name. -/
def keep (id : String) (o : Object) : Attempt Answer := do
  bindName id o
  return .null

/-- Answers nothing. -/
def quietly (doing : Doing Unit) : Attempt Answer := do
  doing
  return .null

/-- Answers a value. -/
def answering (doing : Doing Value) : Attempt Answer := do
  return .value (← doing)

/-- Answers a truth value. -/
def deciding (doing : Doing Bool) : Attempt Answer := do
  return .value (.bool (← doing))

/-- Answers a number. -/
def counting (n : Nat) : Answer :=
  .value (.int (Int64.ofInt n))

/-- What an operation does and answers, given the argument at hand. -/
def perform (arg : Option Value) : Operation → Attempt Answer
  | .malformed => throw .badInput
  | .newBox id kind value lock => do
      let v ← evaluate arg value
      let l ← match kind, lock with
        | .lock, some name | .rxlock, some name => some <$> lookupLock name
        | _, _ => pure none
      keep id (← newBox kind l v)
  | .view id on forward backward reverse => do
      let ⟨_, root⟩ ← lookupNode on
      let forward ← given forward
      let backward ← given backward
      let conv : Converter Closure := ⟨← instantiate forward, ← instantiate backward⟩
      keep id (.node (root.view (if reverse then conv.reverse else conv)))
  | .enforce id on f => do
      let root ← lookupReactive on
      let invariant ← instantiate (← given f)
      let s ← Enforcer.enforce (routines root) invariant.routine
      keep id (.node (root.enforced invariant s))
  | .breaker id on closed value => do
      let delegate ← lookupReactive on
      let b ← if ← given closed then sure (Breaker.createClosed (routines delegate))
        else sure (Breaker.createOpen (← evaluate arg value))
      keep id (.node (b.node delegate))
  | .derivedMap id on f => do
      let source ← lookupReactive on
      let compute ← instantiate (← given f)
      keep id (.derived (← Derived.follow (routines source) compute.routine))
  | .derivedCombine id a b g => do
      let left ← lookupReactive a
      let right ← lookupReactive b
      let g ← given g
      let origin ← newOrigin
      let compute (v w : Value) : Code := .call (.combine g origin [] v w) .ret
      keep id (.derived (← Derived.combine (routines left) (routines right) compute))
  | .orderedSet id policy none => do
      keep id (.orderedSet (← sure (OrderedSet.empty policy)))
  | .orderedSet id policy (some values) => do
      match ← sure (OrderedSet.ofList policy values) with
      | .ok s => keep id (.orderedSet s)
      | .error e => return .duplicate e
  | .clone id on => do keep id (← lookupName on)
  | .inner id on => do
      match ← lookupName on with
      | .node (.view root _) => keep id (.node root)
      | .node (.enforced root _ _) => keep id (.node root)
      | .node (.breaker delegate _ _) => keep id (.node delegate)
      | _ => throw .unsupported
  | .get on => do
      match ← lookupName on with
      | .node n => answering (routines n).get
      | .derived d => answering d.get
      | .orderedSet s => do return .value (.list (← sure s.get))
      | _ => throw .unsupported
  | .set on value => do
      match ← lookupName on with
      | .node n => do quietly ((routines n).set (← evaluate arg value))
      | .orderedSet s => do
          match ← sure (s.set (elements (← evaluate arg value))) with
          | .ok () => return .null
          | .error e => return .duplicate e
      | _ => throw .unsupported
  | .modify on f => do
      match ← lookupName on with
      | .node n => do answering ((routines n).modify (← instantiate (← given f)).routine)
      | .orderedSet s => do
          match ← sure (s.modify (← instantiate (← given f)).routine) with
          | .ok vs => return .value (.list vs)
          | .error e => return .duplicate e
      | _ => throw .unsupported
  | .compareAndSet on expect update => do
      let n ← lookupSwap on
      let e ← evaluate arg expect
      deciding ((routines n).compareAndSet e (← evaluate arg update))
  | .getAndSet on value => do
      let n ← lookupSwap on
      answering ((routines n).getAndSet (← evaluate arg value))
  | .convert on value => do
      let conv ← lookupConverter on
      answering (conv.forward.routine (← evaluate arg value)).act
  | .revert on value => do
      let conv ← lookupConverter on
      answering (conv.backward.routine (← evaluate arg value)).act
  | .contains on value => do
      let s ← lookupSet on
      deciding (s.contains (← evaluate arg value))
  | .policy on => do return .value (.str (policyWord (← lookupSet on).policy))
  | .setClosed on closed => do
      let (delegate, b) ← lookupBreaker on
      quietly (b.setClosed (routines delegate) (← given closed))
  | .isClosed on => do deciding (← lookupBreaker on).2.isClosed
  | .observerCount on => do
      match ← lookupName on with
      | .node (.rx p) | .node (.rxGuarded _ p) => return counting (← sure (Act.observerCount p))
      | _ => throw .unsupported
  | .subscribe id on rules => do
      let subscribe : Subscribe ← match ← lookupName on with
        | .orderedSet s => pure s.subscribe
        | o => subscribeTo o
      let rules ← given rules
      let origin ← newOrigin
      let s ← subscribe [] fun v => do let _ ← Act.call (.observe id origin rules v)
      keep id (.subscription s)
  | .newSubscription id steps => do
      keep id (.subscription (← Act.onDispose (runSteps steps none).prog))
  | .emptySubscription id => do keep id (.subscription (← sure Act.newDisposed))
  | .dispose on => do
      match ← lookupName on with
      | .subscription s => quietly (Act.dispose s)
      | .node (.enforced _ _ s) => quietly (Enforcer.dispose s)
      | .derived d => quietly d.dispose
      | .recorder r => quietly r.detach
      | _ => throw .unsupported
  | .isDisposed on => do
      match ← lookupName on with
      | .subscription s | .node (.enforced _ _ s) => deciding (Act.isDisposed s)
      | _ => throw .unsupported
  | .recorder id on => do
      keep id (.recorder (← Recorder.attach (← subscribeTo (← lookupName on))))
  | .recorded on => do return .recording (← sure (← lookupRecorder on).values)
  | .registry id => do keep id (.registry (← sure Act.newBag))
  | .register on sub => do
      let r ← lookupRegistry on
      match ← lookupName sub with
      | .subscription s => quietly (Registry.register r s)
      | _ => throw .unsupported
  | .registrySize on => do return .registry (← sure (Registry.size (← lookupRegistry on)))
  | .disposeAll on => do quietly (Registry.disposeAll (← lookupRegistry on))
  | .newLock id key => do
      let l ← sure (Act.newLock key)
      bindName id (.lock l)
      return counting l.key
  | .lockOf id on => do
      let l ← lookupLock on
      bindName id (.lock l)
      return counting l.key
  | .orderKey on => do return counting (← lookupLock on).key
  | .sameLock a b => do
      let l ← lookupLock a
      return .value (.bool (l == (← lookupLock b)))
  | .isLocked on => do deciding (← lookupLock on).isLocked
  | .lockRun on steps => do
      let l ← lookupLock on
      let _ ← l.run (runSteps (← given steps) arg)
      return .null
  | .ordered id locks => do
      let o ← sure (OrderedLock.create (← lookupLocks locks))
      bindName id (.orderedLock o)
      return .acquisition (o.locks.map LockId.key) o.needsTieBreaker
  | .sameSequence a b => do
      let o ← lookupOrdered a
      return .value (.bool (o.locks == (← lookupOrdered b).locks))
  | .take on steps => do
      let o ← lookupOrdered on
      let _ ← o.take (runSteps (← given steps) arg)
      return .null
  | .takeAndGet on steps value => do
      let o ← lookupOrdered on
      let steps ← given steps
      match prepare arg value with
      | .error why => throw why
      | .ok computing => answering <| o.take do
          let _ ← runSteps steps arg
          computing
  | .echo value => do return .value (← evaluate arg value)
  | .panic text => Act.panic text
  | .attempt steps => do
      match ← Act.attempt (runSteps steps arg).prog with
      | none => return .null
      | some text => return .panicked text
  | .hammer on f threads iterations => do
      let ⟨_, n⟩ ← lookupNode on
      let used ← instantiate (← given f)
      modifyOften (routines n) used.routine ((← given threads) * (← given iterations))
      answering (routines n).get
  | .debug on converter => do
      let o ← lookupName on
      if converter && o.isView then return .value (.str converterText)
      return .value (.str (← describe o))
  | .deadlockReport => return .value (.str deadlockText)

/-- The answer of a step, a refusal included. -/
def performStep (arg : Option Value) : Step → Doing Answer
  | .mk _ op => do
      match ← releasing (perform arg op).run with
      | .ok a => return a
      | .error why => return .refused why

/-- Performs nested steps in order and notes the answer of each. -/
def performNested (arg : Option Value) : List Step → Doing Unit
  | [] => return ()
  | .mk name op :: rest => do
      Act.tell (.nested name (← performStep arg (.mk name op)))
      performNested arg rest

/-- Runs the steps of every rule whose test holds. -/
def obey (calls : Nat) (v : Value) : List Rule → Doing Unit
  | [] => return ()
  | .mk test steps :: rest => do
      if test.holds (some calls) v then performNested (some v) steps
      obey calls v rest

/-- Applies parts of a function one after another, the first of them standing at place `i`. -/
def applyParts (c : Closure) (i : Nat) (fs : List Fn) (v : Value) : Doing Value :=
  match fs with
  | [] => return v
  | .compute f :: rest => applyParts c (i + 1) rest (f.apply v)
  | f :: rest => do
      let w ← Act.call (.apply (c.part i f) v)
      applyParts c (i + 1) rest w

/-- Applies a function in use. -/
def Closure.apply (c : Closure) (v : Value) : Doing Value :=
  match c.fn with
  | .compute f => return f.apply v
  | .panic text => Act.panic text
  | .tap tag => do
      Act.tell (.tapped tag v)
      return v
  | .perform steps => do
      performNested (some v) steps
      return v
  | .limit n text => do
      if n < (← countCall c.origin c.path) then Act.panic text
      return v
  | .nth fs => do
      let i := min (← countCall c.origin c.path) fs.length - 1
      match fs[i]? with
      | none => return v
      | some f => Act.call (.apply (c.part i f) v)
  | .seq fs => applyParts c 0 fs v
  | .cond test yes no =>
      if test.holds none v then Act.call (.apply (c.part 0 yes) v)
      else Act.call (.apply (c.part 1 no) v)

/-- What a procedure does. Those that are not functions end with a value nobody looks at. -/
def Procedure.body : Procedure → Code
  | .apply f v => (f.apply v).prog
  | .combine g origin path a b =>
      match g with
      | .combine c => .ret (c.apply a b)
      | .andThen g f => Act.prog do
          let v ← Act.call (.combine g origin (0 :: path) a b)
          Act.call (.apply ⟨f, origin, 1 :: path⟩ v)
  | .steps ss arg => (performNested arg ss).thenRet default
  | .observe name origin rules v => Act.prog do
      let calls ← countCall origin []
      Act.tell (.observed name v)
      obey calls v rules
      return v

end ReactiveCells.Script
