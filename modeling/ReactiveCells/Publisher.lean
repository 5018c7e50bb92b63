import ReactiveCells.Lock.Monitor

/-!
# Publishers — a value, its observers, and the queue between them

A publisher holds a current value and hands every change of it to its observers. Changes and
registrations are queued, and one drain at a time takes entries from the front of the queue: a
change goes to all observers registered at that moment, a registration adds its observer and
replays to it the value delivered last. What is queued meanwhile waits for its turn, so all
observers see the same changes in the same order.

The operations here are the atomic steps of that protocol; the calls of observers happen between
them. `O` is the type of observers, which no step looks into.

Two views of a publisher make its steps easy to follow: the `timeline`, which is the value
delivered last and the queued changes, and the `ids` of the observers registered and queued.

Main statements: `commit_eq_none_iff` (when a write changes nothing), `timeline_commit` and
`timeline_pop` (a commit lengthens the timeline at its end, taking an entry shortens it at its
start at most), and `ids_enqueue`.
-/

namespace ReactiveCells

/-- An observer under the number its publisher gave it. -/
structure Registration (O : Type) where
  id : Nat
  observer : O

/-- An entry of the queue. -/
inductive Pending (V O : Type) where
  /-- A committed change, to be handed to all observers. -/
  | emit (v : V)
  /-- An observer that waits to be registered. -/
  | attach (r : Registration O)

/-- One call of an observer that is due. -/
structure Call (V O : Type) where
  id : Nat
  value : V
  observer : O

/-- What one queue entry makes due. -/
inductive Delivery (V O : Type) where
  /-- A change for every observer registered at this moment. -/
  | round (calls : List (Call V O))
  /-- The replay to an observer just registered; now there are `observers` of them. -/
  | replay (call : Call V O) (observers : Nat)

/-- The state of a publisher. If it has a guard, every operation on it happens inside that lock. -/
structure Publisher (V O : Type) where
  guard : Option LockId
  current : V
  /-- The value handed to observers last, replayed to new ones. -/
  delivered : V
  observers : List (Registration O)
  pending : List (Pending V O)
  /-- Whether some call is taking entries from the queue. -/
  draining : Bool
  nextId : Nat

/-- The number of a queued registration. -/
def Pending.id? {V O : Type} : Pending V O → Option Nat
  | .emit _ => none
  | .attach r => some r.id

/-- The observer that waits to be registered. -/
def Pending.observer? {V O : Type} : Pending V O → Option O
  | .emit _ => none
  | .attach r => some r.observer

/-- The value of a queued change. -/
def Pending.value? {V O : Type} : Pending V O → Option V
  | .emit v => some v
  | .attach _ => none

/-- The calls that a delivery makes due. -/
def Delivery.calls {V O : Type} : Delivery V O → List (Call V O)
  | .round calls => calls
  | .replay call _ => [call]

namespace Publisher

variable {V O : Type}

/-- A publisher without observers. -/
def new (guard : Option LockId) (v : V) : Publisher V O :=
  { guard, current := v, delivered := v, observers := [], pending := [], draining := false,
    nextId := 0 }

/-- The monitors that an operation on the publisher enters. -/
def monitors (s : Publisher V O) : List Monitor :=
  s.guard.toList.map Monitor.lock

/-- Makes `v` the current value and queues the change; nothing happens if `v` is held already. -/
def commit [BEq V] (s : Publisher V O) (v : V) : Option (Publisher V O) :=
  if s.current == v then none
  else some { s with current := v, pending := s.pending ++ [.emit v] }

/-- Queues a registration under the next number. -/
def enqueue (s : Publisher V O) (o : O) : Publisher V O :=
  { s with pending := s.pending ++ [.attach ⟨s.nextId, o⟩], nextId := s.nextId + 1 }

/-- Starts draining, unless a drain is in progress. -/
def beginDrain (s : Publisher V O) : Option (Publisher V O) :=
  if s.draining then none else some { s with draining := true }

/-- Stops draining; done by a drain that finds the queue empty. -/
def endDrain (s : Publisher V O) : Publisher V O :=
  { s with draining := false }

/-- Takes the first queue entry. -/
def pop (s : Publisher V O) : Option (Delivery V O × Publisher V O) :=
  match s.pending with
  | [] => none
  | .emit v :: rest =>
      some (.round (s.observers.map fun r => ⟨r.id, v, r.observer⟩),
        { s with delivered := v, pending := rest })
  | .attach r :: rest =>
      some (.replay ⟨r.id, s.delivered, r.observer⟩ (s.observers.length + 1),
        { s with observers := s.observers ++ [r], pending := rest })

/-- Gives up a drain that an observer's panic ended: what is still queued is lost. -/
def abandon (s : Publisher V O) : Publisher V O :=
  { s with draining := false, pending := [] }

/-- Removes the observer with a given number, registered or still queued. -/
def detach (s : Publisher V O) (id : Nat) : Publisher V O :=
  { s with
    observers := s.observers.filter (·.id != id)
    pending := s.pending.filter (·.id? != some id) }

/-- The observers registered and queued. -/
def kept (s : Publisher V O) : List O :=
  s.observers.map (·.observer) ++ s.pending.filterMap Pending.observer?

/-- The values delivered last and queued, in order of commit. -/
def timeline (s : Publisher V O) : List V :=
  s.delivered :: s.pending.filterMap Pending.value?

/-- The numbers of the observers registered and queued, in order of registration. -/
def ids (s : Publisher V O) : List Nat :=
  s.observers.map (·.id) ++ s.pending.filterMap Pending.id?

theorem commit_eq_none_iff [BEq V] (s : Publisher V O) (v : V) :
    s.commit v = none ↔ (s.current == v) = true := by
  by_cases h : (s.current == v) = true <;> simp [commit, h]

/-- A commit puts its value at the end of the timeline and makes it current. -/
theorem timeline_commit [BEq V] {s t : Publisher V O} {v : V} (h : s.commit v = some t) :
    t.timeline = s.timeline ++ [v] ∧ t.current = v := by
  unfold commit at h
  split at h
  · cases h
  · cases h
    simp [timeline, Pending.value?]

@[simp] theorem timeline_enqueue (s : Publisher V O) (o : O) :
    (s.enqueue o).timeline = s.timeline := by
  simp [enqueue, timeline, Pending.value?]

@[simp] theorem ids_enqueue (s : Publisher V O) (o : O) :
    (s.enqueue o).ids = s.ids ++ [s.nextId] := by
  simp [enqueue, ids, Pending.id?]

@[simp] theorem timeline_detach (s : Publisher V O) (id : Nat) :
    (s.detach id).timeline = s.timeline := by
  have h : ∀ l : List (Pending V O),
      (l.filter (·.id? != some id)).filterMap Pending.value? = l.filterMap Pending.value? := by
    intro l
    induction l with
    | nil => rfl
    | cons a l ih => cases a <;> grind [Pending.id?, Pending.value?]
  simp [detach, timeline, h]

/-- Taking an entry drops at most the head of the timeline: a change moves it on by one value. -/
theorem timeline_pop {s t : Publisher V O} {d : Delivery V O} (h : s.pop = some (d, t)) :
    t.timeline = s.timeline ∨ t.timeline = s.timeline.tail := by
  unfold pop at h
  split at h
  · cases h
  · next hp => cases h; right; simp [timeline, hp, Pending.value?]
  · next hp => cases h; left; simp [timeline, hp, List.filterMap_cons, Pending.value?]

theorem pop_eq_none_iff (s : Publisher V O) : s.pop = none ↔ s.pending = [] := by
  unfold pop
  split <;> simp_all

end Publisher

end ReactiveCells
