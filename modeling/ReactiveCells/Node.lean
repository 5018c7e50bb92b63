import ReactiveCells.Program

/-!
# Nodes — handles of containers and of views on containers

A node is what a client holds to work with a value: a cell, a guarded cell, a publisher, or a
facade in front of another node. The kind of a node says which operations it has beyond `get`,
`set` and `modify`: `swap` nodes compare and exchange, `guarded` nodes have a lock, `reactive`
nodes have observers.

A view shows a node through a converter and stores nothing itself: reads convert what the root
holds, writes revert before they reach the root, and `modify` is one `modify` of the root, so a view
is exactly as atomic as its root. An enforced facade is a view whose converter applies one
invariant in both directions. A breaker reads its own copy; its writes also reach the delegate
while the two are coupled.

`F` is the type of functions. The operations need routines; a client that keeps its nodes in a
store may keep them with names of functions instead and pass through `Node.map`.

Main statements: `get_view_view`, `set_view_view` and `modify_view_view` — two views with pure
converters are one view with the composed converter — and the equations of `IsBox`, the handles of
a publisher itself.
-/

namespace ReactiveCells

/-- A pair of conversions. They are meant to be inverse to each other, which is not checked. -/
structure Converter (F : Type) where
  forward : F
  backward : F

/-- The converter in the other direction. -/
def Converter.reverse {F : Type} (c : Converter F) : Converter F :=
  ⟨c.backward, c.forward⟩

/-- What a node can do beyond `get`, `set` and `modify`. -/
inductive Kind where
  | plain
  | swap
  | guarded
  | reactive
deriving DecidableEq, Repr

/-- The handle of a container or of a view on one. -/
inductive Node (F : Type) : Kind → Type where
  | plain (c : CellRef) : Node F .plain
  | swap (c : CellRef) : Node F .swap
  /-- A cell whose operations run inside a lock. -/
  | guarded (l : LockId) (c : CellRef) : Node F .guarded
  | rx (p : PublisherRef) : Node F .reactive
  /-- A publisher whose operations run inside a lock. -/
  | rxGuarded (l : LockId) (p : PublisherRef) : Node F .reactive
  | view {k : Kind} (root : Node F k) (conv : Converter F) : Node F k
  /-- A facade that shows only what the invariant leaves, and the subscription that corrects the
  root. -/
  | enforced (root : Node F .reactive) (invariant : F) (s : SubscriptionRef) : Node F .reactive
  /-- A copy of the delegate's value, coupled to it while the bag holds a subscription. -/
  | breaker (delegate : Node F .reactive) (copy : PublisherRef) (coupling : BagRef) :
      Node F .reactive

/-- `f` seen from behind a converter: converts, applies `f` and reverts. -/
def Converter.within {V P σ ε : Type} (c : Converter (Routine V P σ ε)) (f : Routine V P σ ε) :
    Routine V P σ ε :=
  fun v => (c.forward v).bind fun shown => (f shown).bind c.backward

namespace Node

/-- The same node with functions of another kind. -/
def map {F G : Type} (g : F → G) : {k : Kind} → Node F k → Node G k
  | _, .plain c => .plain c
  | _, .swap c => .swap c
  | _, .guarded l c => .guarded l c
  | _, .rx p => .rx p
  | _, .rxGuarded l p => .rxGuarded l p
  | _, .view root conv => .view (root.map g) ⟨g conv.forward, g conv.backward⟩
  | _, .enforced root f s => .enforced (root.map g) (g f) s
  | _, .breaker d copy coupling => .breaker (d.map g) copy coupling

/-- The lock inside which the operations of a node run. A breaker has none of its own. -/
def lock? {F : Type} : {k : Kind} → Node F k → Option LockId
  | _, .guarded l _ | _, .rxGuarded l _ => some l
  | _, .view root _ | _, .enforced root _ _ => root.lock?
  | _, .plain _ | _, .swap _ | _, .rx _ | _, .breaker .. => none

/-- The publishers that a handle of the node keeps. -/
def publishers {F : Type} : {k : Kind} → Node F k → List PublisherRef
  | _, .plain _ | _, .swap _ | _, .guarded .. => []
  | _, .rx p | _, .rxGuarded _ p => [p]
  | _, .view root _ | _, .enforced root _ _ => root.publishers
  | _, .breaker delegate copy _ => copy :: delegate.publishers

variable {V P σ ε : Type}

/-- Whether a breaker follows its delegate. -/
def isCoupled (coupling : BagRef) : Act V P σ ε Bool := do
  return !(← Act.bag coupling id).isEmpty

/-- The value a node shows. -/
def get : {k : Kind} → Node (Routine V P σ ε) k → Act V P σ ε V
  | _, .plain c | _, .swap c => Act.load c
  | _, .guarded l c => Act.hold (.lock l) (Act.load c)
  | _, .rx p => Act.current p
  | _, .rxGuarded l p => Act.hold (.lock l) (Act.current p)
  | _, .view root conv => do (conv.forward (← root.get)).act
  | _, .enforced root f _ => do (f (← root.get)).act
  | _, .breaker _ copy _ => Act.current copy

/-- Writes a value. -/
def set : {k : Kind} → Node (Routine V P σ ε) k → V → Act V P σ ε Unit
  | _, .plain c, v | _, .swap c, v => Act.store c v
  | _, .guarded l c, v => do
      let _ ← Act.hold (.lock l) (do Act.store c v; return v)
  | _, .rx p, v | _, .rxGuarded _ p, v => Act.publish p v
  | _, .view root conv, v => do root.set (← (conv.backward v).act)
  | _, .enforced root f _, v => do root.set (← (f v).act)
  | _, .breaker delegate copy coupling, v => do
      Act.publish copy v
      if ← isCoupled coupling then delegate.set v

/-- Applies `f` to the value and stores the result; yields the value then held. -/
def modify : {k : Kind} → Node (Routine V P σ ε) k → Routine V P σ ε → Act V P σ ε V
  | _, .plain c, f => do
      let next ← (f (← Act.load c)).act
      Act.store c next
      Act.load c
  | _, .swap c, f => Act.retry c f
  | _, .guarded l c, f => Act.hold (.lock l) do
      let next ← (f (← Act.load c)).act
      Act.store c next
      return next
  | _, .rx p, f | _, .rxGuarded _ p, f => Act.amend p f
  | _, .view root conv, f => do
      (conv.forward (← root.modify (conv.within f))).act
  | _, .enforced root inv _, f => do
      (inv (← root.modify (Converter.within ⟨inv, inv⟩ f))).act
  | _, .breaker delegate copy coupling, f => do
      if ← isCoupled coupling then delegate.modify f else Act.amend copy f

/-- How a node of kind `swap` compares and sets. -/
def comparing : {k : Kind} → Node (Routine V P σ ε) k → k = .swap → V → V → Act V P σ ε Bool
  | _, .swap c, _, expect, update => Act.exchange c expect update
  | _, .view root conv, h, expect, update => do
      let e ← (conv.backward expect).act
      let u ← (conv.backward update).act
      root.comparing h e u
  | _, .plain _, h, _, _ | _, .guarded .., h, _, _ | _, .rx _, h, _, _ | _, .rxGuarded .., h, _, _
  | _, .enforced .., h, _, _ | _, .breaker .., h, _, _ => nomatch h

/-- Stores `update` if the value equals `expect`; yields whether it did. -/
def compareAndSet (n : Node (Routine V P σ ε) .swap) : V → V → Act V P σ ε Bool :=
  n.comparing rfl

/-- How a node of kind `swap` exchanges its value. -/
def exchanging : {k : Kind} → Node (Routine V P σ ε) k → k = .swap → V → Act V P σ ε V
  | _, .swap c, _, v => Act.swap c v
  | _, .view root conv, h, v => do
      let previous ← root.exchanging h (← (conv.backward v).act)
      (conv.forward previous).act
  | _, .plain _, h, _ | _, .guarded .., h, _ | _, .rx _, h, _ | _, .rxGuarded .., h, _
  | _, .enforced .., h, _ | _, .breaker .., h, _ => nomatch h

/-- Stores a value; yields the value before. -/
def getAndSet (n : Node (Routine V P σ ε) .swap) : V → Act V P σ ε V :=
  n.exchanging rfl

/-- Passes on the converted values, except those equal to the one passed on before. -/
def converting [BEq V] (last : MemoRef) (conv : Routine V P σ ε)
    (observer : V → Act V P σ ε Unit) (v : V) : Act V P σ ε Unit := do
  let shown ← (conv v).act
  let repeats (seen : List V) : Bool := seen.any (· == shown)
  let seen ← Act.memo last fun seen => if repeats seen then seen else [shown]
  if repeats seen then return
  observer shown

/-- How a reactive node registers an observer. -/
def subscribing [BEq V] : {k : Kind} → Node (Routine V P σ ε) k → k = .reactive →
    List PublisherRef → (V → Act V P σ ε Unit) → Act V P σ ε SubscriptionRef
  | _, .rx p, _, keeps, observer | _, .rxGuarded _ p, _, keeps, observer
  | _, .breaker _ p _, _, keeps, observer => Act.attach p keeps observer
  | _, .view root conv, h, keeps, observer => do
      let last ← Act.newMemo []
      root.subscribing h keeps (converting last conv.forward observer)
  | _, .enforced root f _, h, keeps, observer => do
      let last ← Act.newMemo []
      root.subscribing h keeps (converting last f observer)
  | _, .plain _, h, _, _ | _, .swap _, h, _, _ | _, .guarded .., h, _, _ => nomatch h

/-- Registers an observer, which keeps the publishers `keeps`. It is called with the value shown,
and then with every distinct one. -/
def subscribe [BEq V] (n : Node (Routine V P σ ε) .reactive) (keeps : List PublisherRef)
    (observer : V → Act V P σ ε Unit) : Act V P σ ε SubscriptionRef :=
  n.subscribing rfl keeps observer

/-- The routine of a function that does nothing but compute. -/
def pureRoutine (f : V → V) : Routine V P σ ε := fun v => .ret (f v)

variable {k : Kind} (n : Node (Routine V P σ ε) k) (f f' g g' : V → V)

/-- Two views read as one with the composed conversion. -/
theorem get_view_view :
    ((n.view ⟨pureRoutine f, pureRoutine f'⟩).view ⟨pureRoutine g, pureRoutine g'⟩).get =
      (n.view ⟨pureRoutine (g ∘ f), pureRoutine (f' ∘ g')⟩).get :=
  rfl

theorem set_view_view :
    ((n.view ⟨pureRoutine f, pureRoutine f'⟩).view ⟨pureRoutine g, pureRoutine g'⟩).set =
      (n.view ⟨pureRoutine (g ∘ f), pureRoutine (f' ∘ g')⟩).set :=
  rfl

theorem within_within (h : Routine V P σ ε) :
    Converter.within ⟨pureRoutine f, pureRoutine f'⟩
        (Converter.within ⟨pureRoutine g, pureRoutine g'⟩ h) =
      Converter.within ⟨pureRoutine (g ∘ f), pureRoutine (f' ∘ g')⟩ h := by
  ext v
  show ((h (g (f v))).bind (pureRoutine g')).bind (pureRoutine f') = _
  rw [Prog.bind_assoc]
  rfl

theorem modify_view_view (h : Routine V P σ ε) :
    ((n.view ⟨pureRoutine f, pureRoutine f'⟩).view ⟨pureRoutine g, pureRoutine g'⟩).modify h =
      (n.view ⟨pureRoutine (g ∘ f), pureRoutine (f' ∘ g')⟩).modify h := by
  show (do
    let v ← n.modify (Converter.within _ (Converter.within _ h))
    pure (g (f v))) = _
  rw [within_within]
  rfl

/-- The handles of a publisher itself, with a lock or without. -/
inductive IsBox {F : Type} (p : PublisherRef) : Node F .reactive → Prop where
  | rx : IsBox p (.rx p)
  | rxGuarded (l : LockId) : IsBox p (.rxGuarded l p)

section Box

variable {p : PublisherRef} {b : Node (Routine V P σ ε) .reactive}

theorem IsBox.set_eq (h : b.IsBox p) : b.set = Act.publish p := by
  cases h <;> rfl

theorem IsBox.modify_eq (h : b.IsBox p) : b.modify = Act.amend p := by
  cases h <;> rfl

theorem IsBox.subscribe_eq [BEq V] (h : b.IsBox p) : b.subscribe = Act.attach p := by
  cases h <;> rfl

end Box

end Node

end ReactiveCells
