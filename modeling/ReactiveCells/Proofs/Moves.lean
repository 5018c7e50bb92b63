import ReactiveCells.Machine

/-!
# Moves — the machine as a list of rules

`Thread.step` decides what a thread does next by looking at its focus and its topmost frame. Here
the same moves are listed one by one, each with its condition, its effect and its events, so that
what every move keeps can be proved by one case for each rule.

Main statements: `moves_iff` (the rules are exactly what `step` does) and `Moves.over` (no move
looks below the topmost frame).
-/

namespace ReactiveCells

variable {V P σ ε : Type}

/-- Whether a panic goes through a frame without leaving a trace. -/
def Frame.Transparent : Frame V P σ ε → Prop
  | .resume _ | .observe _ | .commit _ | .register .. | .swapIn .. => True
  | .attempt _ | .leave _ | .deliver .. => False

/-- The message about an observer that was just registered. -/
def Delivery.report {O : Type} : Delivery V O → List (Event V ε)
  | .round _ => []
  | .replay c n => [.message (.observerSubscribed c.id n)]

/-- The frames that leave the monitors of a publisher. -/
def Publisher.leaving {O : Type} (s : Publisher V O) : List (Frame V P σ ε) :=
  s.monitors.map .leave

/-- What a frame that leaves a monitor does not change holds on top of all those of a publisher. -/
@[elab_as_elim]
theorem Publisher.leaving_induction {O : Type} {motive : List (Frame V P σ ε) → Prop}
    (s : Publisher V O) {st : List (Frame V P σ ε)}
    (leave : ∀ m st, motive st → motive (.leave m :: st)) (h : motive st) :
    motive (s.leaving ++ st) := by
  have hall : ∀ ms : List Monitor, motive (ms.map .leave ++ st) := by
    intro ms
    induction ms with
    | nil => exact h
    | cons m ms ih => exact leave m _ ih
  exact hall s.monitors

theorem Publisher.forall_mem_leaving {O : Type} {motive : Frame V P σ ε → Prop}
    (s : Publisher V O) {st : List (Frame V P σ ε)} (leave : ∀ m, motive (.leave m))
    (h : ∀ fr ∈ st, motive fr) : ∀ fr ∈ s.leaving ++ st, motive fr :=
  s.leaving_induction (fun m _ ih => List.forall_mem_cons.2 ⟨leave m, ih⟩) h

theorem mem_of_mem_leaving {O : Type} {s : Publisher V O} {fr : Frame V P σ ε}
    {st : List (Frame V P σ ε)} (h : fr ∈ s.leaving ++ st) : (∃ m, fr = .leave m) ∨ fr ∈ st := by
  rcases List.mem_append.1 h with hleave | hst
  · obtain ⟨m, -, rfl⟩ := List.mem_map.1 hleave
    exact Or.inl ⟨m, rfl⟩
  · exact Or.inr hst

theorem Publisher.filterMap_leaving {O α : Type} (s : Publisher V O) (st : List (Frame V P σ ε))
    {f : Frame V P σ ε → Option α} (hf : ∀ m, f (.leave m) = none) :
    (s.leaving ++ st).filterMap f = st.filterMap f :=
  s.leaving_induction (motive := fun st' => st'.filterMap f = st.filterMap f)
    (fun m _ ih => (List.filterMap_cons_none (hf m)).trans ih) rfl

/-- The thread on top of a longer stack. -/
def Thread.over (t : Thread V P σ ε) (rest : List (Frame V P σ ε)) : Thread V P σ ε :=
  ⟨t.focus, t.stack ++ rest⟩

namespace Thread

variable [BEq V]

/-- What a thread does in one move, rule by rule. -/
inductive Moves (body : P → Prog V P σ ε) :
    World V P σ ε → Thread V P σ ε → List (Event V ε) → World V P σ ε → Thread V P σ ε → Prop where
  -- a value reaches a frame
  | resumed {w v k st} : Moves body w ⟨.run (.ret v), .resume k :: st⟩ [] w ⟨.run (k v), st⟩
  | unharmed {w v k st} : Moves body w ⟨.run (.ret v), .attempt k :: st⟩ [] w ⟨.run (k none), st⟩
  | left {w v m st} :
      Moves body w ⟨.run (.ret v), .leave m :: st⟩ [] (w.leave m) ⟨.run (.ret v), st⟩
  | called {w v p c calls st} :
      Moves body w ⟨.run (.ret v), .deliver p (c :: calls) :: st⟩ [.called p c.id c.value] w
        ⟨.run (c.observer.react c.value), .observe c.observer :: .deliver p calls :: st⟩
  | drained {w v p s st} : w.publisher? p = some s → s.pop = none →
      Moves body w ⟨.run (.ret v), .deliver p [] :: st⟩ [] (w.setPublisher p s.endDrain)
        ⟨.run (.ret s.current), st⟩
  | popped {w v p s d s' st} : w.publisher? p = some s → s.pop = some (d, s') →
      Moves body w ⟨.run (.ret v), .deliver p [] :: st⟩ d.report (w.setPublisher p s')
        ⟨.run (.ret v), .deliver p d.calls :: st⟩
  | observed {w v o st} : Moves body w ⟨.run (.ret v), .observe o :: st⟩ [] w ⟨.run (.ret v), st⟩
  | amendedSame {w v p s st} : w.publisher? p = some s → s.commit v = none →
      Moves body w ⟨.run (.ret v), .commit p :: st⟩ [] w ⟨.run (.ret s.current), st⟩
  | amended {w v p s s' st} : w.publisher? p = some s → s.commit v = some s' →
      Moves body w ⟨.run (.ret v), .commit p :: st⟩ [.committed p v] (w.setPublisher p s')
        ⟨.drain p, st⟩
  | registered {w v p id k st} :
      Moves body w ⟨.run (.ret v), .register p id k :: st⟩ []
        (w.newSubscription (some (.detach p id))).2
        ⟨.run (k (w.newSubscription (some (.detach p id))).1), st⟩
  | swapped {w v c stamp n f d d' st} : w.cell? c = some d → d.swapIn stamp v = some d' →
      Moves body w ⟨.run (.ret v), .swapIn c stamp n f :: st⟩ [] (w.setCell c d')
        ⟨.run (.ret v), st⟩
  | contended {w v c stamp n f d st} : w.cell? c = some d → d.swapIn stamp v = none →
      Moves body w ⟨.run (.ret v), .swapIn c stamp n f :: st⟩ [.message (.contended (n + 1))] w
        ⟨.run (f d.value), .swapIn c d.stamp (n + 1) f :: st⟩
  -- a panic reaches a frame
  | caught {w text k st} :
      Moves body w ⟨.unwind text, .attempt k :: st⟩ [] w ⟨.run (k (some text)), st⟩
  | expelled {w text m st} :
      Moves body w ⟨.unwind text, .leave m :: st⟩ [] (w.leave m) ⟨.unwind text, st⟩
  | abandoned {w text p calls s st} : w.publisher? p = some s →
      Moves body w ⟨.unwind text, .deliver p calls :: st⟩ [] (w.setPublisher p s.abandon)
        ⟨.unwind text, st⟩
  | passed {w text fr st} : Frame.Transparent fr →
      Moves body w ⟨.unwind text, fr :: st⟩ [] w ⟨.unwind text, st⟩
  -- a publisher is to be drained
  | busy {w p s st} : w.publisher? p = some s → s.beginDrain = none →
      Moves body w ⟨.drain p, st⟩ [] w ⟨.run (.ret s.current), st⟩
  | draining {w p s s' st} : w.publisher? p = some s → s.beginDrain = some s' →
      Moves body w ⟨.drain p, st⟩ [] (w.setPublisher p s')
        ⟨.run (.ret s.current), .deliver p [] :: st⟩
  -- a program performs its first operation
  | panicked {w text st} : Moves body w ⟨.run (.panic text), st⟩ [] w ⟨.unwind text, st⟩
  | performed {w w' a k x es st} : w.perform a = some (x, w', es) →
      Moves body w ⟨.run (.atom a k), st⟩ es w' ⟨.run (k x), st⟩
  | entered {w c k st} :
      Moves body w ⟨.run (.call c k), st⟩ [] w ⟨.run (body c), .resume k :: st⟩
  | attempted {w b k st} :
      Moves body w ⟨.run (.attempt b k), st⟩ [] w ⟨.run b, .attempt k :: st⟩
  | held {w m b k st} :
      Moves body w ⟨.run (.hold m b k), st⟩ [] (w.enter m) ⟨.run b, .leave m :: .resume k :: st⟩
  | retried {w c f k d st} : w.cell? c = some d →
      Moves body w ⟨.run (.retry c f k), st⟩ [] w
        ⟨.run (f d.value), .swapIn c d.stamp 0 f :: .resume k :: st⟩
  | publishedSame {w p v k s st} : w.publisher? p = some s → s.commit v = none →
      Moves body w ⟨.run (.publish p v k), st⟩ [] (w.enterAll s.monitors)
        ⟨.run (.ret s.current), s.leaving ++ .resume (fun _ => k) :: st⟩
  | published {w p v k s s' st} : w.publisher? p = some s → s.commit v = some s' →
      Moves body w ⟨.run (.publish p v k), st⟩ [.committed p v]
        ((w.enterAll s.monitors).setPublisher p s')
        ⟨.drain p, s.leaving ++ .resume (fun _ => k) :: st⟩
  | amending {w p f k s st} : w.publisher? p = some s →
      Moves body w ⟨.run (.amend p f k), st⟩ [] (w.enterAll s.monitors)
        ⟨.run (f s.current), .commit p :: s.leaving ++ .resume k :: st⟩
  | attached {w p keeps o k s st} : w.publisher? p = some s →
      Moves body w ⟨.run (.attach p keeps o k), st⟩ [.queued p s.nextId]
        ((w.enterAll s.monitors).setPublisher p (s.enqueue ⟨o, keeps⟩))
        ⟨.drain p, s.leaving ++ .register p s.nextId k :: st⟩
  | prepared {w c k st} :
      Moves body w ⟨.run (.onDispose c k), st⟩ [] (w.newSubscription (some (.run c))).2
        ⟨.run (k (w.newSubscription (some (.run c))).1), st⟩
  | disposedAgain {w s k st} : w.subscriptions.get? s.index = some none →
      Moves body w ⟨.run (.dispose s k), st⟩ [] w ⟨.run k, st⟩
  | tornDown {w s c k st} : w.subscriptions.get? s.index = some (some (.run c)) →
      Moves body w ⟨.run (.dispose s k), st⟩ [.disposed s]
        { w with subscriptions := w.subscriptions.set s.index none }
        ⟨.run c, .resume (fun _ => k) :: st⟩
  | detached {w s p id q k st} : w.subscriptions.get? s.index = some (some (.detach p id)) →
      w.publisher? p = some q →
      Moves body w ⟨.run (.dispose s k), st⟩
        [.disposed s, .detached p id (q.detach id).observers.length]
        ({ w with subscriptions := w.subscriptions.set s.index none }.setPublisher p (q.detach id))
        ⟨.run k, st⟩

variable {body : P → Prog V P σ ε} {w w' : World V P σ ε} {t t' : Thread V P σ ε}
  {es : List (Event V ε)}

/-- A panic goes through a transparent frame. -/
theorem step_of_transparent {text : String} {fr : Frame V P σ ε} {st : List (Frame V P σ ε)}
    (h : fr.Transparent) :
    Thread.step body w ⟨.unwind text, fr :: st⟩ = some (w, ⟨.unwind text, st⟩, []) := by
  cases fr with
  | resume | observe | commit | register | swapIn => rfl
  | attempt | leave | deliver => exact h.elim

/-- Every rule is a step. -/
theorem Moves.step (h : Moves body w t es w' t') : Thread.step body w t = some (w', t', es) := by
  cases h with
  | resumed | unharmed | left | called | observed | registered | caught | expelled | panicked
  | entered | attempted | held | prepared => rfl
  | drained hp hs | busy hp hs => simp [Thread.step, stepRun, stepReturn, stepDrain, hp, hs]
  | popped hp hs =>
      simp only [Thread.step, stepRun, stepReturn, hp, hs, Option.bind_eq_bind, Option.bind_some]
      split <;> rfl
  | draining hp hs => simp [Thread.step, stepDrain, hp, hs]
  | amendedSame hp hs | amended hp hs => simp [Thread.step, stepRun, stepReturn, hp, hs]
  | swapped hc hs | contended hc hs => simp [Thread.step, stepRun, stepReturn, hc, hs]
  | abandoned hp => simp [Thread.step, stepUnwind, hp]
  | passed hfr => exact step_of_transparent hfr
  | performed ha => simp [Thread.step, stepRun, ha]
  | retried hc => simp [Thread.step, stepRun, hc]
  | publishedSame hp hs | published hp hs =>
      simp [Thread.step, stepRun, hp, hs, Publisher.leaving]
  | amending hp | attached hp => simp [Thread.step, stepRun, hp, Publisher.leaving]
  | disposedAgain hs | tornDown hs => simp [Thread.step, stepRun, hs]
  | detached hs hp => simp [Thread.step, stepRun, hs, hp]

theorem moves_of_stepReturn {v : V} {st : List (Frame V P σ ε)}
    (h : stepReturn w v st = some (w', t', es)) : Moves body w ⟨.run (.ret v), st⟩ es w' t' := by
  cases st with
  | nil => exact nomatch h
  | cons fr st =>
      cases fr with
      | resume k => cases h; exact .resumed
      | attempt k => cases h; exact .unharmed
      | leave m => cases h; exact .left
      | observe o => cases h; exact .observed
      | register p id k => cases h; exact .registered
      | deliver p calls =>
          cases calls with
          | cons c calls => cases h; exact .called
          | nil =>
              obtain ⟨s, hs, h⟩ := Option.bind_eq_some_iff.1 h
              cases hpop : s.pop with
              | none => rw [hpop] at h; cases h; exact .drained hs hpop
              | some r =>
                  obtain ⟨d, s'⟩ := r
                  rw [hpop] at h
                  cases d <;> cases h <;> exact .popped hs hpop
      | commit p =>
          obtain ⟨s, hs, h⟩ := Option.bind_eq_some_iff.1 h
          cases hc : s.commit v with
          | none => rw [hc] at h; cases h; exact .amendedSame hs hc
          | some s' => rw [hc] at h; cases h; exact .amended hs hc
      | swapIn c stamp n f =>
          obtain ⟨d, hd, h⟩ := Option.bind_eq_some_iff.1 h
          cases hc : d.swapIn stamp v with
          | none => rw [hc] at h; cases h; exact .contended hd hc
          | some d' => rw [hc] at h; cases h; exact .swapped hd hc

theorem moves_of_stepUnwind {text : String} {st : List (Frame V P σ ε)}
    (h : stepUnwind w text st = some (w', t', es)) : Moves body w ⟨.unwind text, st⟩ es w' t' := by
  cases st with
  | nil => exact nomatch h
  | cons fr st =>
      cases fr with
      | attempt k => cases h; exact .caught
      | leave m => cases h; exact .expelled
      | deliver p calls =>
          obtain ⟨s, hs, h⟩ := Option.bind_eq_some_iff.1 h
          cases h
          exact .abandoned hs
      | resume | observe | commit | register | swapIn => cases h; exact .passed trivial

theorem moves_of_stepDrain {p : PublisherRef} {st : List (Frame V P σ ε)}
    (h : stepDrain w p st = some (w', t', es)) : Moves body w ⟨.drain p, st⟩ es w' t' := by
  obtain ⟨s, hs, h⟩ := Option.bind_eq_some_iff.1 h
  cases hb : s.beginDrain with
  | none => rw [hb] at h; cases h; exact .busy hs hb
  | some s' => rw [hb] at h; cases h; exact .draining hs hb

theorem moves_of_stepRun {c : Prog V P σ ε} {st : List (Frame V P σ ε)}
    (h : stepRun body w st c = some (w', t', es)) : Moves body w ⟨.run c, st⟩ es w' t' := by
  cases c with
  | ret v => exact moves_of_stepReturn h
  | panic text => cases h; exact .panicked
  | atom a k =>
      obtain ⟨⟨x, w₁, es₁⟩, ha, h⟩ := Option.bind_eq_some_iff.1 h
      cases h
      exact .performed ha
  | call c k => cases h; exact .entered
  | attempt b k => cases h; exact .attempted
  | hold m b k => cases h; exact .held
  | retry c f k =>
      obtain ⟨d, hd, h⟩ := Option.bind_eq_some_iff.1 h
      cases h
      exact .retried hd
  | publish p v k =>
      obtain ⟨s, hs, h⟩ := Option.bind_eq_some_iff.1 h
      cases hc : s.commit v with
      | none => rw [hc] at h; cases h; exact .publishedSame hs hc
      | some s' => rw [hc] at h; cases h; exact .published hs hc
  | amend p f k =>
      obtain ⟨s, hs, h⟩ := Option.bind_eq_some_iff.1 h
      cases h
      exact .amending hs
  | attach p keeps o k =>
      obtain ⟨s, hs, h⟩ := Option.bind_eq_some_iff.1 h
      cases h
      exact .attached hs
  | onDispose c k => cases h; exact .prepared
  | dispose s k =>
      obtain ⟨t, hs, h⟩ := Option.bind_eq_some_iff.1 h
      cases t with
      | none => cases h; exact .disposedAgain hs
      | some d =>
          cases d with
          | run c => cases h; exact .tornDown hs
          | detach p id =>
              obtain ⟨q, hq, h⟩ := Option.bind_eq_some_iff.1 h
              cases h
              exact .detached hs hq

/-- The rules are exactly the moves of the machine. -/
theorem moves_iff : Moves body w t es w' t' ↔ Thread.step body w t = some (w', t', es) := by
  constructor
  · exact Moves.step
  · intro h
    obtain ⟨f, st⟩ := t
    cases f with
    | run c => exact moves_of_stepRun h
    | drain p => exact moves_of_stepDrain h
    | unwind text => exact moves_of_stepUnwind h

/-- A move looks at the topmost frame only, so it is the same on a longer stack. -/
theorem Moves.over (h : Moves body w t es w' t') (rest : List (Frame V P σ ε)) :
    Moves body w (t.over rest) es w' (t'.over rest) := by
  cases h with
  | resumed => exact .resumed
  | unharmed => exact .unharmed
  | left => exact .left
  | called => exact .called
  | drained hp hs => exact .drained hp hs
  | popped hp hs => exact .popped hp hs
  | observed => exact .observed
  | amendedSame hp hs => exact .amendedSame hp hs
  | amended hp hs => exact .amended hp hs
  | registered => exact .registered
  | swapped hc hs => exact .swapped hc hs
  | contended hc hs => exact .contended hc hs
  | caught => exact .caught
  | expelled => exact .expelled
  | abandoned hp => exact .abandoned hp
  | passed hfr => exact .passed hfr
  | busy hp hs => exact .busy hp hs
  | draining hp hs => exact .draining hp hs
  | panicked => exact .panicked
  | performed ha => exact .performed ha
  | entered => exact .entered
  | attempted => exact .attempted
  | held => exact .held
  | retried hc => exact .retried hc
  | publishedSame hp hs => simpa [Thread.over] using Moves.publishedSame hp hs
  | published hp hs => simpa [Thread.over] using Moves.published hp hs
  | amending hp => simpa [Thread.over] using Moves.amending hp
  | attached hp => simpa [Thread.over] using Moves.attached hp
  | prepared => exact .prepared
  | disposedAgain hs => exact .disposedAgain hs
  | tornDown hs => exact .tornDown hs
  | detached hs hp => exact .detached hs hp

end Thread

end ReactiveCells
