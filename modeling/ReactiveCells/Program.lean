import ReactiveCells.Message

/-!
# Programs — what runs on top of the containers

Everything that is run is a program: the body of a call, an observer, a conversion, a teardown.
A program is a finite tree. It ends with a value or a panic, or it performs one operation and goes
on in a way that depends on the answer. Operations of one indivisible step are `Atom`s; the others
run further programs before they answer, and the machine says how.

A tree is finite, but what is run need not be: `call` enters a procedure named by a `P`, and the
body of a procedure may call procedures again. The containers' values have type `V`; whoever
writes the programs may keep a store of type `σ` and leave notes of type `ε`.

A program ends with a value. Where it is run for its effects alone the value does not matter.

Main statements: `bind_ret` and `bind_assoc` (programs compose), and with them the monad `Act` in
which the operations are written down.
-/

namespace ReactiveCells

/-- Names a cell. -/
structure CellRef where
  index : Nat
deriving DecidableEq, Repr

/-- Names a publisher. -/
structure PublisherRef where
  index : Nat
deriving DecidableEq, Repr

/-- Names a subscription, which is disposed at most once. -/
structure SubscriptionRef where
  index : Nat
deriving DecidableEq, Repr

/-- Names a list of values that some programs share. -/
structure MemoRef where
  index : Nat
deriving DecidableEq, Repr

/-- Names a bag of subscriptions. -/
structure BagRef where
  index : Nat
deriving DecidableEq, Repr

/-- An operation of one indivisible step. -/
inductive Atom (V σ ε : Type) where
  /-- Changes the store of the programs' author; answers the store before. -/
  | own (f : σ → σ)
  /-- Leaves a note. -/
  | tell (e : ε)
  /-- Reports an occurrence. -/
  | report (m : Message)
  | newCell (v : V)
  | load (c : CellRef)
  | store (c : CellRef) (v : V)
  /-- Stores a value; answers the value before. -/
  | swap (c : CellRef) (v : V)
  /-- Stores `update` if the cell holds `expect`; answers whether it did. -/
  | exchange (c : CellRef) (expect update : V)
  /-- Allocates a lock, with the next order key or with a given one. -/
  | newLock (key : Option Nat)
  | isHeld (m : Monitor)
  | newPublisher (guard : Option LockId) (v : V)
  | current (p : PublisherRef)
  | observerCount (p : PublisherRef)
  /-- Allocates a subscription that is disposed from the start. -/
  | newDisposed
  | isDisposed (s : SubscriptionRef)
  | newMemo (vs : List V)
  /-- Changes a shared list; answers the list before. -/
  | memo (r : MemoRef) (f : List V → List V)
  | newBag
  /-- Changes a bag; answers the bag before. -/
  | bag (r : BagRef) (f : List SubscriptionRef → List SubscriptionRef)

/-- What an operation answers. -/
def Atom.Answer {V σ ε : Type} : Atom V σ ε → Type
  | .own _ => σ
  | .tell _ | .report _ | .store .. => Unit
  | .newCell _ => CellRef
  | .load _ | .swap .. | .current _ => V
  | .exchange .. | .isHeld _ | .isDisposed _ => Bool
  | .newLock _ => LockId
  | .newPublisher .. => PublisherRef
  | .observerCount _ => Nat
  | .newDisposed => SubscriptionRef
  | .newMemo _ => MemoRef
  | .memo .. => List V
  | .newBag => BagRef
  | .bag .. => List SubscriptionRef

/-- A program. -/
inductive Prog (V P σ ε : Type) where
  | ret (v : V)
  | panic (text : String)
  | atom (a : Atom V σ ε) (k : a.Answer → Prog V P σ ε)
  /-- Runs a procedure. -/
  | call (c : P) (k : V → Prog V P σ ε)
  /-- Runs `body` and goes on after its end or its panic, whose text is handed over. -/
  | attempt (body : Prog V P σ ε) (k : Option String → Prog V P σ ε)
  /-- Runs `body` inside a monitor. -/
  | hold (m : Monitor) (body : Prog V P σ ε) (k : V → Prog V P σ ε)
  /-- Applies `f` to the value of a cell and stores the result, again and again until nothing was
  stored meanwhile. -/
  | retry (c : CellRef) (f : V → Prog V P σ ε) (k : V → Prog V P σ ε)
  /-- Makes `v` the value of a publisher. -/
  | publish (p : PublisherRef) (v : V) (k : Prog V P σ ε)
  /-- Applies `f` to the value of a publisher; answers the value held after delivery. -/
  | amend (p : PublisherRef) (f : V → Prog V P σ ε) (k : V → Prog V P σ ε)
  /-- Registers an observer, which keeps the publishers `keeps`. -/
  | attach (p : PublisherRef) (keeps : List PublisherRef) (observer : V → Prog V P σ ε)
      (k : SubscriptionRef → Prog V P σ ε)
  /-- Allocates a subscription that runs `teardown` when it is disposed. -/
  | onDispose (teardown : Prog V P σ ε) (k : SubscriptionRef → Prog V P σ ε)
  | dispose (s : SubscriptionRef) (k : Prog V P σ ε)

/-- A program that depends on a value: a reaction, a conversion, a function to modify by. -/
abbrev Routine (V P σ ε : Type) := V → Prog V P σ ε

/-- What a publisher calls: a reaction to its values, and the publishers that the reaction keeps
because it works on them. -/
structure Observer (V P σ ε : Type) where
  react : Routine V P σ ε
  keeps : List PublisherRef

namespace Prog

variable {V P σ ε : Type}

/-- Runs a program and then another one on its value. -/
def bind : Prog V P σ ε → (V → Prog V P σ ε) → Prog V P σ ε
  | .ret v, g => g v
  | .panic t, _ => .panic t
  | .atom a k, g => .atom a fun x => (k x).bind g
  | .call c k, g => .call c fun v => (k v).bind g
  | .attempt b k, g => .attempt b fun r => (k r).bind g
  | .hold m b k, g => .hold m b fun v => (k v).bind g
  | .retry c f k, g => .retry c f fun v => (k v).bind g
  | .publish p v k, g => .publish p v (k.bind g)
  | .amend p f k, g => .amend p f fun v => (k v).bind g
  | .attach p keeps o k, g => .attach p keeps o fun s => (k s).bind g
  | .onDispose t k, g => .onDispose t fun s => (k s).bind g
  | .dispose s k, g => .dispose s (k.bind g)

@[simp] theorem ret_bind (v : V) (g : Routine V P σ ε) : (ret v).bind g = g v := rfl

@[simp] theorem bind_ret (p : Prog V P σ ε) : p.bind ret = p := by
  induction p <;> simp_all [bind]

theorem bind_assoc (p : Prog V P σ ε) (g h : Routine V P σ ε) :
    (p.bind g).bind h = p.bind fun v => (g v).bind h := by
  induction p <;> simp_all [bind]

end Prog

/-- Something a program does on its way, yielding an `α` for what follows. -/
def Act (V P σ ε α : Type) := (α → Prog V P σ ε) → Prog V P σ ε

instance {V P σ ε : Type} : Monad (Act V P σ ε) where
  pure a := fun k => k a
  bind m f := fun k => m fun a => f a k

instance {V P σ ε : Type} : LawfulMonad (Act V P σ ε) where
  map_const := rfl
  id_map _ := rfl
  seqLeft_eq _ _ := rfl
  seqRight_eq _ _ := rfl
  pure_seq _ _ := rfl
  pure_bind _ _ := rfl
  bind_assoc _ _ _ := rfl
  bind_pure_comp _ _ := rfl
  bind_map _ _ := rfl

/-- Runs a whole program on the way, yielding its value. -/
def Prog.act {V P σ ε : Type} (p : Prog V P σ ε) : Act V P σ ε V :=
  fun k => p.bind k

namespace Act

variable {V P σ ε : Type}

/-- The program that does `m` and ends with its value. -/
def prog (m : Act V P σ ε V) : Prog V P σ ε :=
  m .ret

/-- The program that does `m` and ends with `v`. -/
def thenRet (m : Act V P σ ε Unit) (v : V) : Prog V P σ ε :=
  m fun _ => .ret v

/-- Performs an operation of one step. -/
def atom (a : Atom V σ ε) : Act V P σ ε a.Answer :=
  fun k => .atom a k

/-- Ends with a panic. -/
def panic {α : Type} (text : String) : Act V P σ ε α :=
  fun _ => .panic text

def call (c : P) : Act V P σ ε V :=
  fun k => .call c k

/-- Yields the text of the panic that ended `body`, if one did. -/
def attempt (body : Prog V P σ ε) : Act V P σ ε (Option String) :=
  fun k => .attempt body k

def hold (m : Monitor) (body : Act V P σ ε V) : Act V P σ ε V :=
  fun k => .hold m body.prog k

/-- Runs `body` inside all the monitors, the first one entered first. -/
def holdAll : List Monitor → Act V P σ ε V → Act V P σ ε V
  | [], body => body
  | m :: ms, body => hold m (holdAll ms body)

def retry (c : CellRef) (f : Routine V P σ ε) : Act V P σ ε V :=
  fun k => .retry c f k

def publish (p : PublisherRef) (v : V) : Act V P σ ε Unit :=
  fun k => .publish p v (k ())

def amend (p : PublisherRef) (f : Routine V P σ ε) : Act V P σ ε V :=
  fun k => .amend p f k

def attach (p : PublisherRef) (keeps : List PublisherRef) (observer : V → Act V P σ ε Unit) :
    Act V P σ ε SubscriptionRef :=
  fun k => .attach p keeps (fun v => (observer v).thenRet v) k

def onDispose (teardown : Prog V P σ ε) : Act V P σ ε SubscriptionRef :=
  fun k => .onDispose teardown k

def dispose (s : SubscriptionRef) : Act V P σ ε Unit :=
  fun k => .dispose s (k ())

def own (f : σ → σ) : Act V P σ ε σ := atom (.own f)

def tell (e : ε) : Act V P σ ε Unit := atom (.tell e)

def report (m : Message) : Act V P σ ε Unit := atom (.report m)

def newCell (v : V) : Act V P σ ε CellRef := atom (.newCell v)

def load (c : CellRef) : Act V P σ ε V := atom (.load c)

def store (c : CellRef) (v : V) : Act V P σ ε Unit := atom (.store c v)

def swap (c : CellRef) (v : V) : Act V P σ ε V := atom (.swap c v)

def exchange (c : CellRef) (expect update : V) : Act V P σ ε Bool :=
  atom (.exchange c expect update)

def newLock (key : Option Nat) : Act V P σ ε LockId := atom (.newLock key)

def isHeld (m : Monitor) : Act V P σ ε Bool := atom (.isHeld m)

def newPublisher (guard : Option LockId) (v : V) : Act V P σ ε PublisherRef :=
  atom (.newPublisher guard v)

def current (p : PublisherRef) : Act V P σ ε V := atom (.current p)

def observerCount (p : PublisherRef) : Act V P σ ε Nat := atom (.observerCount p)

def newDisposed : Act V P σ ε SubscriptionRef := atom .newDisposed

def isDisposed (s : SubscriptionRef) : Act V P σ ε Bool := atom (.isDisposed s)

def newMemo (vs : List V) : Act V P σ ε MemoRef := atom (.newMemo vs)

def memo (r : MemoRef) (f : List V → List V) : Act V P σ ε (List V) := atom (.memo r f)

def newBag : Act V P σ ε BagRef := atom .newBag

def bag (r : BagRef) (f : List SubscriptionRef → List SubscriptionRef) :
    Act V P σ ε (List SubscriptionRef) :=
  atom (.bag r f)

end Act

end ReactiveCells
