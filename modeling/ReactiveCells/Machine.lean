import ReactiveCells.World

/-!
# The machine — how programs run

A thread is a focus and a stack of frames. The focus is the program being run, a publisher about
to be drained, or a panic that unwinds; a frame is a call that waits for something above it to
end. `step` makes one move, looking at the focus and the topmost frame only, so every state in the
middle of a delivery, of a function passed to a container, or of an unwinding is a state of its
own.

A drain ends with the value held once it is over, whether it delivered anything or found another
drain at work. A panic passes frame by frame: a monitor is left, a drain gives up its queue, an
`attempt` stops it, and every other frame just goes.
-/

namespace ReactiveCells

/-- A call that waits for what runs above it. -/
inductive Frame (V P σ ε : Type) where
  | resume (k : V → Prog V P σ ε)
  | attempt (k : Option String → Prog V P σ ε)
  /-- Leaves a monitor. -/
  | leave (m : Monitor)
  /-- Drains a publisher; `calls` of the delivery at hand are still due. -/
  | deliver (p : PublisherRef) (calls : List (Call V (Observer V P σ ε)))
  /-- Waits for an observer to end. -/
  | observe (o : Observer V P σ ε)
  /-- Makes the value it gets the value of a publisher. -/
  | commit (p : PublisherRef)
  /-- Hands out the subscription of a registration. -/
  | register (p : PublisherRef) (id : Nat) (k : SubscriptionRef → Prog V P σ ε)
  /-- Stores the value it gets if the cell still has the stamp, else applies `f` again. -/
  | swapIn (c : CellRef) (stamp attempts : Nat) (f : Routine V P σ ε)

/-- What a thread does next. -/
inductive Focus (V P σ ε : Type) where
  | run (c : Prog V P σ ε)
  /-- Drains a publisher unless that is being done already. -/
  | drain (p : PublisherRef)
  | unwind (text : String)

/-- A focus and the calls that wait for it, the latest first. -/
structure Thread (V P σ ε : Type) where
  focus : Focus V P σ ε
  stack : List (Frame V P σ ε)

/-- A world, a thread and the events of the step that led there. -/
abbrev Moved (V P σ ε : Type) := World V P σ ε × Thread V P σ ε × List (Event V ε)

/-- How a program ended. -/
inductive Outcome (V : Type) where
  | returned (v : V)
  | panicked (text : String)
deriving DecidableEq, Repr

/-- The publishers that a waiting call keeps: those of the observer it waits for, and those of the
observers it has yet to call. -/
def Frame.keeps {V P σ ε : Type} : Frame V P σ ε → List PublisherRef
  | .deliver _ calls => calls.flatMap (·.observer.keeps)
  | .observe o => o.keeps
  | .resume _ | .attempt _ | .leave _ | .commit _ | .register .. | .swapIn .. => []

namespace Thread

variable {V P σ ε : Type} [BEq V]

/-- The thread that is about to run a program. -/
def start (c : Prog V P σ ε) : Thread V P σ ε := ⟨.run c, []⟩

/-- The publishers that the observers of deliveries in progress keep. -/
def keeps (t : Thread V P σ ε) : List PublisherRef :=
  t.stack.flatMap Frame.keeps

/-- How a thread ended, if it did. -/
def outcome? : Thread V P σ ε → Option (Outcome V)
  | ⟨.run (.ret v), []⟩ => some (.returned v)
  | ⟨.unwind text, []⟩ => some (.panicked text)
  | _ => none

/-- A value reaches the topmost frame. -/
def stepReturn (w : World V P σ ε) (v : V) :
    List (Frame V P σ ε) → Option (Moved V P σ ε)
  | [] => none
  | .resume k :: st => some (w, ⟨.run (k v), st⟩, [])
  | .attempt k :: st => some (w, ⟨.run (k none), st⟩, [])
  | .leave m :: st => some (w.leave m, ⟨.run (.ret v), st⟩, [])
  | .deliver p (c :: calls) :: st =>
      some (w, ⟨.run (c.observer.react c.value), .observe c.observer :: .deliver p calls :: st⟩,
        [.called p c.id c.value])
  | .deliver p [] :: st => do
      let s ← w.publisher? p
      match s.pop with
      | none => some (w.setPublisher p s.endDrain, ⟨.run (.ret s.current), st⟩, [])
      | some (d, s') =>
          some (w.setPublisher p s', ⟨.run (.ret v), .deliver p d.calls :: st⟩,
            match d with
            | .round _ => []
            | .replay c n => [.message (.observerSubscribed c.id n)])
  | .observe _ :: st => some (w, ⟨.run (.ret v), st⟩, [])
  | .commit p :: st => do
      let s ← w.publisher? p
      match s.commit v with
      | none => some (w, ⟨.run (.ret s.current), st⟩, [])
      | some s' => some (w.setPublisher p s', ⟨.drain p, st⟩, [.committed p v])
  | .register p id k :: st =>
      let (s, w') := w.newSubscription (some (.detach p id))
      some (w', ⟨.run (k s), st⟩, [])
  | .swapIn c stamp attempts f :: st => do
      let d ← w.cell? c
      match d.swapIn stamp v with
      | some d' => some (w.setCell c d', ⟨.run (.ret v), st⟩, [])
      | none =>
          some (w, ⟨.run (f d.value), .swapIn c d.stamp (attempts + 1) f :: st⟩,
            [.message (.contended (attempts + 1))])

/-- A panic reaches the topmost frame. -/
def stepUnwind (w : World V P σ ε) (text : String) :
    List (Frame V P σ ε) → Option (Moved V P σ ε)
  | [] => none
  | .attempt k :: st => some (w, ⟨.run (k (some text)), st⟩, [])
  | .leave m :: st => some (w.leave m, ⟨.unwind text, st⟩, [])
  | .deliver p _ :: st => do
      let s ← w.publisher? p
      some (w.setPublisher p s.abandon, ⟨.unwind text, st⟩, [])
  | .resume _ :: st | .observe _ :: st | .commit _ :: st | .register .. :: st | .swapIn .. :: st =>
      some (w, ⟨.unwind text, st⟩, [])

/-- A publisher is to be drained. -/
def stepDrain (w : World V P σ ε) (p : PublisherRef) (st : List (Frame V P σ ε)) :
    Option (Moved V P σ ε) := do
  let s ← w.publisher? p
  match s.beginDrain with
  | none => some (w, ⟨.run (.ret s.current), st⟩, [])
  | some s' => some (w.setPublisher p s', ⟨.run (.ret s.current), .deliver p [] :: st⟩, [])

/-- A program performs its first operation; `body` gives the procedures. -/
def stepRun (body : P → Prog V P σ ε) (w : World V P σ ε) (st : List (Frame V P σ ε)) :
    Prog V P σ ε → Option (Moved V P σ ε)
  | .ret v => stepReturn w v st
  | .panic text => some (w, ⟨.unwind text, st⟩, [])
  | .atom a k => do
      let (x, w', es) ← w.perform a
      some (w', ⟨.run (k x), st⟩, es)
  | .call c k => some (w, ⟨.run (body c), .resume k :: st⟩, [])
  | .attempt b k => some (w, ⟨.run b, .attempt k :: st⟩, [])
  | .hold m b k => some (w.enter m, ⟨.run b, .leave m :: .resume k :: st⟩, [])
  | .retry c f k => do
      let d ← w.cell? c
      some (w, ⟨.run (f d.value), .swapIn c d.stamp 0 f :: .resume k :: st⟩, [])
  | .publish p v k => do
      let s ← w.publisher? p
      let w' := w.enterAll s.monitors
      let st' := s.monitors.map .leave ++ .resume (fun _ => k) :: st
      match s.commit v with
      | none => some (w', ⟨.run (.ret s.current), st'⟩, [])
      | some s' => some (w'.setPublisher p s', ⟨.drain p, st'⟩, [.committed p v])
  | .amend p f k => do
      let s ← w.publisher? p
      some (w.enterAll s.monitors,
        ⟨.run (f s.current), .commit p :: s.monitors.map .leave ++ .resume k :: st⟩, [])
  | .attach p keeps o k => do
      let s ← w.publisher? p
      some ((w.enterAll s.monitors).setPublisher p (s.enqueue ⟨o, keeps⟩),
        ⟨.drain p, s.monitors.map .leave ++ .register p s.nextId k :: st⟩, [.queued p s.nextId])
  | .onDispose t k =>
      let (s, w') := w.newSubscription (some (.run t))
      some (w', ⟨.run (k s), st⟩, [])
  | .dispose s k => do
      let t ← w.subscriptions.get? s.index
      let w' := { w with subscriptions := w.subscriptions.set s.index none }
      match t with
      | none => some (w, ⟨.run k, st⟩, [])
      | some (.run c) => some (w', ⟨.run c, .resume (fun _ => k) :: st⟩, [.disposed s])
      | some (.detach p id) => do
          let d := (← w.publisher? p).detach id
          some (w'.setPublisher p d, ⟨.run k, st⟩,
            [.disposed s, .detached p id d.observers.length])

/-- One move of a thread; none if it has ended. -/
def step (body : P → Prog V P σ ε) (w : World V P σ ε) (t : Thread V P σ ε) :
    Option (Moved V P σ ε) :=
  match t.focus with
  | .run c => stepRun body w t.stack c
  | .drain p => stepDrain w p t.stack
  | .unwind text => stepUnwind w text t.stack

/-- Moves until the thread has ended, at most `fuel` times. What `watch` makes of every move comes
out latest first, in front of `past`; it is shown the state in which the move was made. -/
def run {α : Type} (body : P → Prog V P σ ε)
    (watch : World V P σ ε → Thread V P σ ε → Event V ε → Option α) (fuel : Nat)
    (w : World V P σ ε) (t : Thread V P σ ε) (past : List α) :
    World V P σ ε × Thread V P σ ε × List α :=
  match fuel with
  | 0 => (w, t, past)
  | fuel + 1 =>
      match step body w t with
      | none => (w, t, past)
      | some (w', t', es) =>
          run body watch fuel w' t' ((es.filterMap (watch w t)).reverse ++ past)

end Thread

end ReactiveCells
