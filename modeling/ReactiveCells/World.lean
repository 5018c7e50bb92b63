import ReactiveCells.Cell
import ReactiveCells.Heap
import ReactiveCells.Program
import ReactiveCells.Publisher
import ReactiveCells.Retention

/-!
# The world — everything that programs share

A world holds all cells, publishers, subscriptions, shared lists and bags, the monitors held, and
the store of the programs' author. `perform` says what an indivisible operation answers and what
it leaves; it fails only on a name that was never allocated.

Main statements: `publisher?_setPublisher_self` and `publisher?_setPublisher_ne` (what replacing a
publisher does to every name), `performed` (what an indivisible operation may do to each part).
-/

namespace ReactiveCells

/-- What disposing a subscription does. -/
inductive Teardown (V P σ ε : Type) where
  /-- Removes an observer from its publisher. -/
  | detach (p : PublisherRef) (id : Nat)
  | run (c : Prog V P σ ε)

/-- Something that happened at one step. -/
inductive Event (V ε : Type) where
  | note (e : ε)
  | message (m : Message)
  /-- A publisher's value changed. -/
  | committed (p : PublisherRef) (v : V)
  /-- An observer was queued for registration. -/
  | queued (p : PublisherRef) (id : Nat)
  /-- An observer was called. -/
  | called (p : PublisherRef) (id : Nat) (v : V)
  /-- An observer was removed, which left `observers` registered. -/
  | detached (p : PublisherRef) (id observers : Nat)
  /-- The teardown of a subscription was taken. -/
  | disposed (s : SubscriptionRef)

/-- All that programs share. -/
structure World (V P σ ε : Type) where
  store : σ
  cells : Heap (Cell V)
  publishers : Heap (Publisher V (Observer V P σ ε))
  /-- The teardown of every subscription, absent once it is disposed. -/
  subscriptions : Heap (Option (Teardown V P σ ε))
  memos : Heap (List V)
  bags : Heap (List SubscriptionRef)
  held : Held
  /-- How many locks were allocated. -/
  locks : Nat
  /-- The order key of the next lock that asks for none. -/
  nextKey : Nat

namespace World

variable {V P σ ε : Type}

/-- A world without anything in it but a store. -/
def new (store : σ) : World V P σ ε :=
  { store, cells := .empty, publishers := .empty, subscriptions := .empty, memos := .empty,
    bags := .empty, held := [], locks := 0, nextKey := 1 }

def publisher? (w : World V P σ ε) (p : PublisherRef) :
    Option (Publisher V (Observer V P σ ε)) :=
  w.publishers.get? p.index

def setPublisher (w : World V P σ ε) (p : PublisherRef) (s : Publisher V (Observer V P σ ε)) :
    World V P σ ε :=
  { w with publishers := w.publishers.set p.index s }

/-- What every publisher keeps through its observers. -/
def keepings (w : World V P σ ε) : List (PublisherRef × List PublisherRef) :=
  w.publishers.entries.zipIdx.map fun (s, i) => (⟨i⟩, s.kept.flatMap Observer.keeps)

/-- The publishers that are not gone, given those that are kept from outside. -/
def survivors (w : World V P σ ε) (outright : List PublisherRef) : List PublisherRef :=
  (ReactiveCells.survivors outright w.keepings).map (·.1)

def cell? (w : World V P σ ε) (c : CellRef) : Option (Cell V) :=
  w.cells.get? c.index

def setCell (w : World V P σ ε) (c : CellRef) (d : Cell V) : World V P σ ε :=
  { w with cells := w.cells.set c.index d }

def enter (w : World V P σ ε) (m : Monitor) : World V P σ ε :=
  { w with held := w.held.enter m }

/-- Enters monitors, the last of the list first. -/
def enterAll (w : World V P σ ε) (ms : List Monitor) : World V P σ ε :=
  ms.foldr (fun m w => w.enter m) w

def leave (w : World V P σ ε) (m : Monitor) : World V P σ ε :=
  { w with held := w.held.leave m }

/-- Allocates a subscription. -/
def newSubscription (w : World V P σ ε) (t : Option (Teardown V P σ ε)) :
    SubscriptionRef × World V P σ ε :=
  (⟨w.subscriptions.size⟩, { w with subscriptions := w.subscriptions.alloc t })

/-- Allocates a lock; a given order key leaves the next key alone. -/
def newLock (w : World V P σ ε) : Option Nat → LockId × World V P σ ε
  | some key => (⟨w.locks, key⟩, { w with locks := w.locks + 1 })
  | none => (⟨w.locks, w.nextKey⟩, { w with locks := w.locks + 1, nextKey := w.nextKey + 1 })

/-- The answer, the world left and the events of an indivisible operation. -/
def perform [BEq V] (w : World V P σ ε) :
    (a : Atom V σ ε) → Option (a.Answer × World V P σ ε × List (Event V ε))
  | .own f => some (w.store, { w with store := f w.store }, [])
  | .tell e => some ((), w, [.note e])
  | .report m => some ((), w, [.message m])
  | .newCell v => some (⟨w.cells.size⟩, { w with cells := w.cells.alloc (.new v) }, [])
  | .load c => (w.cell? c).map fun d => (d.value, w, [])
  | .store c v => (w.cell? c).map fun d => ((), w.setCell c (d.store v), [])
  | .swap c v => (w.cell? c).map fun d => (d.value, w.setCell c (d.store v), [])
  | .exchange c expect update =>
      (w.cell? c).map fun d =>
        match d.exchange expect update with
        | some d' => (true, w.setCell c d', [])
        | none => (false, w, [])
  | .newLock key => let (l, w') := w.newLock key; some (l, w', [])
  | .isHeld m => some (decide (0 < w.held.depth m), w, [])
  | .newPublisher guard v =>
      some (⟨w.publishers.size⟩, { w with publishers := w.publishers.alloc (.new guard v) }, [])
  | .current p => (w.publisher? p).map fun s => (s.current, w, [])
  | .observerCount p => (w.publisher? p).map fun s => (s.observers.length, w, [])
  | .newDisposed => let (s, w') := w.newSubscription none; some (s, w', [])
  | .isDisposed s => (w.subscriptions.get? s.index).map fun t => (t.isNone, w, [])
  | .newMemo vs => some (⟨w.memos.size⟩, { w with memos := w.memos.alloc vs }, [])
  | .memo r f =>
      (w.memos.get? r.index).map fun vs => (vs, { w with memos := w.memos.set r.index (f vs) }, [])
  | .newBag => some (⟨w.bags.size⟩, { w with bags := w.bags.alloc [] }, [])
  | .bag r f =>
      (w.bags.get? r.index).map fun ss => (ss, { w with bags := w.bags.set r.index (f ss) }, [])

/-! ## What an operation leaves alone -/

section Publishers

variable {w : World V P σ ε} {p q : PublisherRef} {s s' : Publisher V (Observer V P σ ε)}

theorem publisher?_setPublisher_self (h : w.publisher? p = some s) :
    (w.setPublisher p s').publisher? p = some s' :=
  Heap.get?_set_self _ _ _ _ h

theorem publisher?_setPublisher_ne (h : q ≠ p) :
    (w.setPublisher q s).publisher? p = w.publisher? p := by
  apply Heap.get?_set_ne
  intro e
  apply h
  cases q
  cases p
  exact congrArg _ e

/-- Replacing a publisher twice is replacing it once. -/
theorem setPublisher_setPublisher :
    (w.setPublisher p s).setPublisher p s' = w.setPublisher p s' :=
  congrArg (fun h => { w with publishers := h }) (congrArg Heap.mk (List.set_set _))

theorem setPublisher_self (h : w.publisher? p = some s) : w.setPublisher p s = w :=
  congrArg (fun h => { w with publishers := h }) (Heap.set_of_get? _ _ _ h)

@[simp] theorem leave_enter (w : World V P σ ε) (m : Monitor) : (w.enter m).leave m = w :=
  congrArg (fun h => { w with held := h }) (Held.leave_enter w.held m)

/-- Entering monitors changes nothing but the monitors held. -/
theorem enterAll_eq (w : World V P σ ε) (ms : List Monitor) :
    w.enterAll ms = { w with held := ms.foldr (fun m h => h.enter m) w.held } := by
  induction ms with
  | nil => rfl
  | cons m ms ih =>
      show (w.enterAll ms).enter m = _
      rw [ih]
      rfl

@[simp] theorem publisher?_enterAll (ms : List Monitor) :
    (w.enterAll ms).publisher? p = w.publisher? p := by
  rw [enterAll_eq]
  rfl

theorem publisher?_enterAll_setPublisher {ms : List Monitor} (h : w.publisher? p = some s) :
    ((w.enterAll ms).setPublisher p s').publisher? p = some s' :=
  publisher?_setPublisher_self ((publisher?_enterAll ms).trans h)

theorem cell?_setCell_self {c : CellRef} {d : Cell V} (h : w.cell? c = some d) (d' : Cell V) :
    (w.setCell c d').cell? c = some d' :=
  Heap.get?_set_self _ _ _ _ h

/-- Replacing a cell twice is replacing it once. -/
theorem setCell_setCell {c : CellRef} {d d' : Cell V} :
    (w.setCell c d).setCell c d' = w.setCell c d' :=
  congrArg (fun h => { w with cells := h }) (congrArg Heap.mk (List.set_set _))

theorem setCell_self {c : CellRef} {d : Cell V} (h : w.cell? c = some d) : w.setCell c d = w :=
  congrArg (fun h => { w with cells := h }) (Heap.set_of_get? _ _ _ h)

end Publishers

/-! ## What an indivisible operation does to each part -/

section Performed

/-- What an indivisible operation may do to each part of a world but the cells, whose change depends
on what they hold: nothing, or what it is for. -/
structure Performed (w : World V P σ ε) (a : Atom V σ ε) (w' : World V P σ ε)
    (es : List (Event V ε)) : Prop where
  store : w'.store = w.store ∨ ∃ f, a = .own f ∧ w'.store = f w.store
  publishers : w'.publishers = w.publishers ∨
    ∃ guard v, a = .newPublisher guard v ∧ w'.publishers = w.publishers.alloc (.new guard v)
  subscriptions : w'.subscriptions = w.subscriptions ∨
    w'.subscriptions = w.subscriptions.alloc none
  memos : w'.memos = w.memos ∨ (∃ vs, w'.memos = w.memos.alloc vs) ∨
    ∃ r f vs, a = .memo r f ∧ w'.memos = w.memos.set r.index (f vs)
  bags : w'.bags = w.bags ∨ w'.bags = w.bags.alloc [] ∨
    ∃ r f ss, a = .bag r f ∧ w'.bags = w.bags.set r.index (f ss)
  held : w'.held = w.held
  events : es = [] ∨ (∃ e, es = [.note e]) ∨ ∃ m, es = [.message m]

theorem Performed.refl (w : World V P σ ε) (a : Atom V σ ε) : w.Performed a w [] :=
  ⟨Or.inl rfl, Or.inl rfl, Or.inl rfl, Or.inl rfl, Or.inl rfl, rfl, Or.inl rfl⟩

variable [BEq V] {w w' : World V P σ ε} {a : Atom V σ ε} {x : a.Answer} {es : List (Event V ε)}

theorem performed (h : w.perform a = some (x, w', es)) : w.Performed a w' es := by
  cases a with
  | own f => cases h; exact { Performed.refl w _ with store := Or.inr ⟨f, rfl, rfl⟩ }
  | tell e => cases h; exact { Performed.refl w _ with events := Or.inr (Or.inl ⟨e, rfl⟩) }
  | report m => cases h; exact { Performed.refl w _ with events := Or.inr (Or.inr ⟨m, rfl⟩) }
  | newPublisher guard v =>
      cases h
      exact { Performed.refl w _ with publishers := Or.inr ⟨guard, v, rfl, rfl⟩ }
  | newDisposed => cases h; exact { Performed.refl w _ with subscriptions := Or.inr rfl }
  | newMemo vs => cases h; exact { Performed.refl w _ with memos := Or.inr (Or.inl ⟨vs, rfl⟩) }
  | newBag => cases h; exact { Performed.refl w _ with bags := Or.inr (Or.inl rfl) }
  | memo r f =>
      obtain ⟨vs, -, h⟩ := Option.map_eq_some_iff.1 h
      cases h
      exact { Performed.refl w _ with memos := Or.inr (Or.inr ⟨r, f, _, rfl, rfl⟩) }
  | bag r f =>
      obtain ⟨ss, -, h⟩ := Option.map_eq_some_iff.1 h
      cases h
      exact { Performed.refl w _ with bags := Or.inr (Or.inr ⟨r, f, _, rfl, rfl⟩) }
  -- what is left changes the cells, the locks or nothing
  | newLock key => cases key <;> cases h <;> exact { Performed.refl w _ with }
  | exchange c expect update =>
      obtain ⟨d, -, h⟩ := Option.map_eq_some_iff.1 h
      split at h <;> cases h <;> exact { Performed.refl w _ with }
  | load | store | swap | current | observerCount | isDisposed =>
      obtain ⟨d, -, h⟩ := Option.map_eq_some_iff.1 h
      cases h
      exact { Performed.refl w _ with }
  | newCell | isHeld => cases h; exact { Performed.refl w _ with }

variable {p : PublisherRef} {s : Publisher V (Observer V P σ ε)}

theorem perform_publisher? (h : w.perform a = some (x, w', es)) (hp : w.publisher? p = some s) :
    w'.publisher? p = some s := by
  rcases (performed h).publishers with he | ⟨guard, v, -, he⟩
  · rw [World.publisher?, he]
    exact hp
  · rw [World.publisher?, he]
    exact Heap.get?_alloc_of_some _ _ _ _ hp

/-- A publisher that is there after an operation was there before or has just been made. -/
theorem of_perform_publisher? (h : w.perform a = some (x, w', es))
    (hp : w'.publisher? p = some s) :
    w.publisher? p = some s ∨ ∃ guard v, s = .new guard v := by
  rcases (performed h).publishers with he | ⟨guard, v, -, he⟩
  · rw [World.publisher?, he] at hp
    exact Or.inl hp
  · rw [World.publisher?, he] at hp
    exact (Heap.of_get?_alloc_eq_some _ _ _ _ hp).imp_right fun hs => ⟨guard, v, hs⟩

theorem perform_subscription? {i : Nat} {t : Option (Teardown V P σ ε)}
    (h : w.perform a = some (x, w', es)) (hi : w.subscriptions.get? i = some t) :
    w'.subscriptions.get? i = some t := by
  rcases (performed h).subscriptions with he | he
  · rwa [he]
  · rw [he]
    exact Heap.get?_alloc_of_some _ _ _ _ hi

/-- An operation allocates nothing with a teardown. -/
theorem of_perform_teardown {i : Nat} {t : Teardown V P σ ε} (h : w.perform a = some (x, w', es))
    (hi : w'.subscriptions.get? i = some (some t)) : w.subscriptions.get? i = some (some t) := by
  rcases (performed h).subscriptions with he | he
  · rwa [he] at hi
  · rw [he] at hi
    exact (Heap.of_get?_alloc_eq_some _ _ _ _ hi).resolve_right nofun

/-- Only an operation on a shared list changes it. -/
theorem perform_memo? {m : MemoRef} {vs : List V} (h : w.perform a = some (x, w', es))
    (hm : w.memos.get? m.index = some vs) (hno : ∀ f, a ≠ .memo m f) :
    w'.memos.get? m.index = some vs := by
  rcases (performed h).memos with he | ⟨us, he⟩ | ⟨r, f, us, rfl, he⟩
  · rwa [he]
  · rw [he]
    exact Heap.get?_alloc_of_some _ _ _ _ hm
  · rw [he]
    refine (Heap.get?_set_ne _ _ _ _ fun hr => ?_).trans hm
    obtain rfl : r = m := congrArg MemoRef.mk hr
    exact hno f rfl

/-- Only an operation on a bag changes it. -/
theorem perform_bag? {r : BagRef} {ss : List SubscriptionRef}
    (h : w.perform a = some (x, w', es)) (hr : w.bags.get? r.index = some ss)
    (hno : ∀ f, a ≠ .bag r f) : w'.bags.get? r.index = some ss := by
  rcases (performed h).bags with he | he | ⟨b, f, us, rfl, he⟩
  · rwa [he]
  · rw [he]
    exact Heap.get?_alloc_of_some _ _ _ _ hr
  · rw [he]
    refine (Heap.get?_set_ne _ _ _ _ fun hb => ?_).trans hr
    obtain rfl : b = r := congrArg BagRef.mk hb
    exact hno f rfl

end Performed


/-! ## What an operation on something that exists yields -/

section Existing

variable [BEq V] {w : World V P σ ε}

theorem perform_current {p : PublisherRef} {s : Publisher V (Observer V P σ ε)}
    (h : w.publisher? p = some s) : w.perform (.current p) = some (s.current, w, []) :=
  congrArg (Option.map _) h

theorem perform_memo {m : MemoRef} {vs : List V} (h : w.memos.get? m.index = some vs)
    (f : List V → List V) :
    w.perform (.memo m f) = some (vs, { w with memos := w.memos.set m.index (f vs) }, []) :=
  congrArg (Option.map _) h

theorem perform_bag {r : BagRef} {ss : List SubscriptionRef}
    (h : w.bags.get? r.index = some ss) (f : List SubscriptionRef → List SubscriptionRef) :
    w.perform (.bag r f) = some (ss, { w with bags := w.bags.set r.index (f ss) }, []) :=
  congrArg (Option.map _) h

end Existing

end World

end ReactiveCells
