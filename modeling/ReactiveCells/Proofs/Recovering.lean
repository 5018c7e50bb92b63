import ReactiveCells.Proofs.Confluence
import ReactiveCells.Proofs.Holding
import ReactiveCells.Proofs.Lapses

/-!
# Recovering — publishers after panics

A drain belongs to one call. However deep panics go and wherever they are caught, the call that
drains a publisher is the one that says so no longer: it does when it finds the queue empty, and
when a panic ends it. So a publisher is never left behind with a drain that nobody makes, nor with
entries that nobody takes, and the next change is handed out in the call that makes it.

A round goes from observer to observer. While one of them runs, other calls on the publisher queue
at most, so in between no observer is called by anybody else (`Run.muted`). A panic of an observer
ends the round, and the publisher is ready for the next one.

Main statement: `panic_never_wedges`.
-/

namespace ReactiveCells

variable {V P σ ε : Type}

/-- The call that a signal tells of, by observer and value. -/
def Signal.call? : Signal V → Option (Nat × V)
  | .called id v => some (id, v)
  | .committed _ | .queued _ | .detached _ => none

/-- The calls made, by observer and value. -/
def callsMade (ls : List (Signal V)) : List (Nat × V) :=
  ls.filterMap Signal.call?

@[simp] theorem callsMade_append (ls ls' : List (Signal V)) :
    callsMade (ls ++ ls') = callsMade ls ++ callsMade ls' :=
  List.filterMap_append

theorem callsMade_called (p : PublisherRef) (id : Nat) (v : V) (es : List (Event V ε)) :
    callsMade (signals p (.called p id v :: es)) = (id, v) :: callsMade (signals p es) := by
  simp [callsMade, Signal.call?]

variable [BEq V] {body : P → Prog V P σ ε} {p : PublisherRef} {w w' w₁ w₂ : World V P σ ε}
  {t t' : Thread V P σ ε} {es es' : List (Event V ε)} {s : Publisher V (Observer V P σ ε)}

/-! ## While a drain is in progress below -/

/-- A publisher that is being drained by a call below is not drained by any other. -/
theorem View.Move.muted {l : List (Signal V)} {x x' : View V P σ ε} (h : View.Move p x l x')
    (hd : x.state.draining = true) (hdue : x.due = []) :
    x'.state.draining = true ∧ x'.due = [] ∧ callsMade l = [] := by
  cases h with
  | other | enqueue | busy | detach => exact ⟨hd, hdue, rfl⟩
  | commit _ hc =>
      obtain rfl := Publisher.commit_eq_some hc
      exact ⟨hd, hdue, rfl⟩
  | start hb => exact nomatch hd.symm.trans (Publisher.beginDrain_eq_some hb).1
  | call | pop | finish | abandon => exact nomatch hdue

/-- While a call below drains a publisher, nobody else calls its observers. -/
theorem Run.muted (h : AnyRun body w t es w' t') (hp : w.publisher? p = some s)
    (hd : s.draining = true) (hdue : t.due p = []) :
    ∃ s', w'.publisher? p = some s' ∧ s'.draining = true ∧ t'.due p = [] ∧
      callsMade (signals p es) = [] := by
  induction h with
  | refl => exact ⟨s, hp, hd, hdue, rfl⟩
  | step _ hstep _ ih =>
      obtain ⟨s₁, hp₁, hd₁, hdue₁, hmade⟩ := ih
      obtain ⟨s', hp', hmove⟩ := (Thread.moves_iff.2 hstep).view hp₁
      obtain ⟨hd', hdue', hnone⟩ := hmove.muted hd₁ hdue₁
      refine ⟨s', hp', hd', hdue', ?_⟩
      rw [signals_append, callsMade_append, hmade, hnone, List.append_nil]
  | next _ _ hc _ _ => exact hc.elim

/-! ## A round, call by call -/

/-- The observers of these calls come back, one after the other, with the events meanwhile and the
world that they leave. -/
inductive World.Hands (body : P → Prog V P σ ε) (p : PublisherRef) :
    World V P σ ε → List (Call V (Observer V P σ ε)) → List (Event V ε) → World V P σ ε → Prop where
  | nil (w : World V P σ ε) : Hands body p w [] [] w
  | cons {w w₁ w₂ : World V P σ ε} {c : Call V (Observer V P σ ε)}
      {calls : List (Call V (Observer V P σ ε))} {es es' : List (Event V ε)} {u : V} :
      AnyRun body w (.start (c.observer.react c.value)) es w₁ ⟨.run (.ret u), []⟩ →
      Hands body p w₁ calls es' w₂ →
      Hands body p w (c :: calls) (.called p c.id c.value :: (es ++ es')) w₂

variable {c : Call V (Observer V P σ ε)} {calls rest : List (Call V (Observer V P σ ε))}
  {st : List (Frame V P σ ε)}

/-- A drain goes on with the next call once the observer is back. -/
theorem Run.observed {u : V} (h : AnyRun body w (.start (c.observer.react c.value)) es w'
    ⟨.run (.ret u), []⟩) (v : V) :
    AnyRun body w ⟨.run (.ret v), .deliver p (c :: calls) :: st⟩ (.called p c.id c.value :: es) w'
      ⟨.run (.ret u), .deliver p calls :: st⟩ := by
  have hcall : Thread.Moves body w ⟨.run (.ret v), .deliver p (c :: calls) :: st⟩ _ w _ := .called
  have hreact := h.through rfl .ret (.observe c.observer :: .deliver p calls :: st)
  have hback := hreact.trans (.single (Thread.moves_iff.1 .observed) trivial)
  rw [Prog.bind_ret, List.append_nil] at hback
  exact .cons hcall.step trivial hback

/-- A drain makes its calls in order. -/
theorem World.Hands.run (h : World.Hands body p w calls es w') (rest) (st) (v : V) :
    ∃ u, AnyRun body w ⟨.run (.ret v), .deliver p (calls ++ rest) :: st⟩ es w'
      ⟨.run (.ret u), .deliver p rest :: st⟩ := by
  induction h generalizing v with
  | nil => exact ⟨v, .refl⟩
  | @cons _ _ _ _ _ _ _ u hreact _ ih =>
      obtain ⟨u', hrest⟩ := ih u
      exact ⟨u', (Run.observed hreact v).trans hrest⟩

/-- Nobody else calls the observers meanwhile. -/
theorem World.Hands.made (h : World.Hands body p w calls es w') (hp : w.publisher? p = some s)
    (hd : s.draining = true) :
    ∃ s', w'.publisher? p = some s' ∧ s'.draining = true ∧
      callsMade (signals p es) = calls.map fun c => (c.id, c.value) := by
  induction h generalizing s with
  | nil => exact ⟨s, hp, hd, rfl⟩
  | cons hreact _ ih =>
      obtain ⟨s₁, hp₁, hd₁, -, hnone⟩ := hreact.muted hp hd rfl
      obtain ⟨s', hp', hd', hrest⟩ := ih hp₁ hd₁
      refine ⟨s', hp', hd', ?_⟩
      rw [callsMade_called, signals_append, callsMade_append, hnone, hrest]
      rfl

/-! ## A panic ends a round -/

/-- Whether a panic goes through a waiting call and leaves at most a monitor. -/
def Frame.Light : Frame V P σ ε → Prop
  | .resume _ | .leave _ | .observe _ | .commit _ | .register .. | .swapIn .. => True
  | .attempt _ | .deliver .. => False

/-- A panic that nothing stops leaves the monitors on its way. -/
theorem expel_run {upper : List (Frame V P σ ε)} (hupper : ∀ fr ∈ upper, fr.Light)
    (w : World V P σ ε) (text : String) (st : List (Frame V P σ ε)) :
    AnyRun body w ⟨.unwind text, upper ++ st⟩ [] (w.leaveAll (upper.filterMap Frame.monitor?))
      ⟨.unwind text, st⟩ := by
  induction upper generalizing w with
  | nil => exact .refl
  | cons fr upper ih =>
      have hrest := fun w => ih (fun fr hfr => hupper fr (List.mem_cons_of_mem _ hfr)) w
      have hfr : fr.Light := hupper fr List.mem_cons_self
      have pass : fr.Transparent → AnyRun body w ⟨.unwind text, fr :: (upper ++ st)⟩ []
          (w.leaveAll (upper.filterMap Frame.monitor?)) ⟨.unwind text, st⟩ := fun h =>
        .cons (Thread.step_of_transparent h) trivial (hrest w)
      cases fr with
      | leave m => exact .cons (Thread.moves_iff.1 .expelled) trivial (hrest (w.leave m))
      | resume | observe | commit | register | swapIn => exact pass trivial
      | attempt | deliver => exact hfr.elim

/-- A panic of an observer ends the round, and the call that drains with it. -/
theorem Run.stumbles {text : String} {o : Observer V P σ ε} {upper : List (Frame V P σ ε)} {v : V}
    (h : AnyRun body w (.start (o.react v)) es w' ⟨.unwind text, []⟩)
    (hp : w'.publisher? p = some s) (hupper : ∀ fr ∈ upper, fr.Light) :
    AnyRun body w ⟨.run (o.react v), .observe o :: .deliver p calls :: (upper ++ st)⟩ es
      ((w'.setPublisher p s.abandon).leaveAll (upper.filterMap Frame.monitor?))
      ⟨.unwind text, st⟩ := by
  have hreact := h.through rfl .ret (.observe o :: .deliver p calls :: (upper ++ st))
  have hobserve : Thread.Moves body w'
      ⟨.unwind text, .observe o :: .deliver p calls :: (upper ++ st)⟩ [] w' _ := .passed trivial
  have habandon : Thread.Moves body w' ⟨.unwind text, .deliver p calls :: (upper ++ st)⟩ [] _ _ :=
    .abandoned hp
  have hexpel : AnyRun body _ _ _ _ _ := expel_run hupper (w'.setPublisher p s.abandon) text st
  have hall := hreact.trans (.cons hobserve.step trivial (.cons habandon.step trivial hexpel))
  rw [Prog.bind_ret] at hall
  simpa only [List.append_nil] using hall

/-! ## The next change -/

/-- Whether a thread makes calls for a publisher in order, up to the first observer that panics,
and nobody else calls one meanwhile. The frames `below` wait for the calls. A panic ends them: it
goes on to `st`, and the publisher is ready for the next change. -/
structure Thread.HandsOut (body : P → Prog V P σ ε) (p : PublisherRef) (w : World V P σ ε)
    (t : Thread V P σ ε) (calls : List (Call V (Observer V P σ ε)))
    (below st : List (Frame V P σ ε)) : Prop where
  reaches : ∀ done c rest es w', calls = done ++ c :: rest → World.Hands body p w done es w' →
    AnyRun body w t (es ++ [.called p c.id c.value]) w'
      ⟨.run (c.observer.react c.value), .observe c.observer :: .deliver p rest :: below⟩ ∧
    callsMade (signals p (es ++ [.called p c.id c.value])) =
      (done ++ [c]).map fun c => (c.id, c.value)
  stumbles : ∀ done c rest es w' es' w₁ text, calls = done ++ c :: rest →
    World.Hands body p w done es w' →
    AnyRun body w' (.start (c.observer.react c.value)) es' w₁ ⟨.unwind text, []⟩ →
    ∃ w₂ s, AnyRun body w t (es ++ .called p c.id c.value :: es') w₂ ⟨.unwind text, st⟩ ∧
      callsMade (signals p (es ++ .called p c.id c.value :: es')) =
        (done ++ [c]).map (fun c => (c.id, c.value)) ∧
      w₂.publisher? p = some s ∧ s.draining = false ∧ s.pending = []
  completes : ∀ es w', World.Hands body p w calls es w' →
    ∃ u, AnyRun body w t es w' ⟨.run (.ret u), .deliver p [] :: below⟩ ∧
      callsMade (signals p es) = calls.map fun c => (c.id, c.value)

/-- A drain hands out the calls of the delivery at hand. -/
theorem Thread.handsOut (hp : w.publisher? p = some s) (hd : s.draining = true) (v : V)
    (calls : List (Call V (Observer V P σ ε))) {upper : List (Frame V P σ ε)}
    (hupper : ∀ fr ∈ upper, fr.Light) (st : List (Frame V P σ ε)) :
    Thread.HandsOut body p w ⟨.run (.ret v), .deliver p calls :: (upper ++ st)⟩ calls (upper ++ st)
      st := by
  have reaches : ∀ done c rest es w', calls = done ++ c :: rest →
      World.Hands body p w done es w' →
      AnyRun body w ⟨.run (.ret v), .deliver p calls :: (upper ++ st)⟩
        (es ++ [.called p c.id c.value]) w' ⟨.run (c.observer.react c.value),
          .observe c.observer :: .deliver p rest :: (upper ++ st)⟩ ∧
      callsMade (signals p (es ++ [.called p c.id c.value])) =
        (done ++ [c]).map fun c => (c.id, c.value) := by
    rintro done c rest es w' rfl h
    obtain ⟨s', -, -, hmade⟩ := h.made hp hd
    obtain ⟨u, hrun⟩ := h.run (c :: rest) (upper ++ st) v
    refine ⟨hrun.trans (.single (Thread.moves_iff.1 .called) trivial), ?_⟩
    rw [signals_append, callsMade_append, hmade, callsMade_called, List.map_append]
    rfl
  refine ⟨reaches, ?_, ?_⟩
  · intro done c rest es w' es' w₁ text hcalls h hpanic
    obtain ⟨hrun, hmade⟩ := reaches done c rest es w' hcalls h
    obtain ⟨s', hp', hd', -⟩ := h.made hp hd
    -- what the observer did before it panicked called nobody
    obtain ⟨s₁, hp₁, -, -, hnone⟩ := hpanic.muted hp' hd' rfl
    have hfall := hrun.trans (hpanic.stumbles hp₁ hupper)
    have hcons : es ++ .called p c.id c.value :: es' = es ++ [.called p c.id c.value] ++ es' :=
      List.append_cons ..
    rw [hcons]
    refine ⟨_, s₁.abandon, hfall, ?_, ?_, rfl, rfl⟩
    · rw [signals_append, callsMade_append, hmade, hnone, List.append_nil]
    · rw [World.publisher?_leaveAll]
      exact World.publisher?_setPublisher_self hp₁
  · intro es w' h
    obtain ⟨s', -, -, hmade⟩ := h.made hp hd
    obtain ⟨u, hrun⟩ := h.run [] (upper ++ st) v
    rw [List.append_nil] at hrun
    exact ⟨u, hrun, hmade⟩

/-- However panics go and wherever they are caught, a publisher says that it is being drained while
one drain of it is in progress, and only then; and unless one is in progress or about to begin, its
queue is empty. So the next change is handed out in the call that makes it: to the observers then
registered, in order of registration, up to the first that panics. -/
theorem panic_never_wedges (h : Reachable body w t) (hp : w.publisher? p = some s) :
    (s.draining = true ↔ (t.due p).length = 1) ∧ (s.draining = false ↔ t.due p = []) ∧
    (t.Settled p → s.pending = []) ∧
    ∀ v k st, t = ⟨.run (.publish p v k), st⟩ → t.Settled p → (s.current == v) = false →
      (s.observers.map (·.id)).Pairwise (· < ·) ∧
      ∃ w₁ t₁, AnyRun body w t [.committed p v] w₁ t₁ ∧
        t₁.HandsOut body p w₁ (s.round v) (s.leaving ++ .resume (fun _ => k) :: st) st := by
  have hint := h.intact hp
  have hdrains : (t.due p).length = if s.draining then 1 else 0 := hint.orderly.drains
  refine ⟨?_, ?_, fun hset => (hint.idle hset).2, ?_⟩
  · rw [hdrains]
    cases s.draining <;> simp
  · rw [← List.length_eq_zero_iff, hdrains]
    cases s.draining <;> simp
  · rintro v k st rfl hset hne
    obtain ⟨w₁, s₁, hbegins, hp₁, hd₁⟩ := hint.begins hset hne
    have hcons : s.leaving ++ .resume (fun _ => k) :: st =
        s.leaving ++ [.resume fun _ => k] ++ st := List.append_cons ..
    rw [hcons] at hbegins ⊢
    refine ⟨?_, w₁, _, hbegins.any, Thread.handsOut hp₁ hd₁ v _ (s.forall_mem_leaving (fun _ => trivial) ?_) st⟩
    · exact (List.pairwise_append.1 (List.pairwise_append.1 hint.lined).1).1
    · exact List.forall_mem_singleton.2 trivial

/-- An observer that panics when it is handed 1. -/
def brittle (v : Nat) : Prog Nat Empty Unit Unit :=
  if v = 1 then .panic "boom" else .ret v

/-- A client that goes on after an observer has panicked, and then makes another change. -/
def shaken (p : PublisherRef) : Prog Nat Empty Unit Unit :=
  .attach p [] brittle fun _ => .attach p [] .ret fun _ =>
    .attempt (.publish p 1 (.ret 0)) fun _ => .publish p 2 (.ret 0)

/-- Both observers are handed the change after the one that the first of them fell over. -/
theorem panic_never_wedges_shaken :
    ∃ (w : World Nat Empty Unit Unit) (t : Thread Nat Empty Unit Unit)
      (s : Publisher Nat (Observer Nat Empty Unit Unit)), Reachable nofun w t ∧
      t = ⟨.run (.publish ⟨0⟩ 2 (.ret 0)), []⟩ ∧ w.publisher? ⟨0⟩ = some s ∧
      s.draining = false ∧ s.pending = [] ∧ ∃ w' t', AnyRun nofun w t
        [.committed ⟨0⟩ 2, .called ⟨0⟩ 0 2, .called ⟨0⟩ 1 2] w' t' := by
  let s : Publisher Nat (Observer Nat Empty Unit Unit) :=
    ⟨none, 1, 1, [⟨0, brittle, []⟩, ⟨1, .ret, []⟩], [], false, 2⟩
  obtain ⟨w, hmade, hs⟩ : ∃ w : World Nat Empty Unit Unit,
      Thread.run nofun (fun _ _ _ => (none : Option Unit)) 25 (World.new ())
          (.start (.atom (.newPublisher none 0) shaken)) [] =
        (w, ⟨.run (.publish ⟨0⟩ 2 (.ret 0)), []⟩, []) ∧ w.publisher? ⟨0⟩ = some s :=
    ⟨_, rfl, rfl⟩
  obtain ⟨es, hrun⟩ : ∃ es, AnyRun nofun (World.new ())
      (.start (.atom (.newPublisher none 0) shaken)) es w _ := Run.of_run hmade
  have hreach : Reachable nofun w ⟨.run (.publish ⟨0⟩ 2 (.ret 0)), []⟩ :=
    ⟨(), _, es, hrun.mono (fun _ => False.elim) fun _ _ => trivial⟩
  obtain ⟨-, hclear, hempty, hnext⟩ := panic_never_wedges hreach hs
  have hset : Thread.Settled ⟨0⟩ (⟨.run (.publish ⟨0⟩ 2 (.ret 0)), []⟩ :
      Thread Nat Empty Unit Unit) := ⟨nofun, rfl⟩
  obtain ⟨-, w₁, t₁, hbegins, hout⟩ := hnext 2 (.ret 0) [] rfl hset rfl
  have hback : AnyRun nofun w₁ (.start (brittle 2)) [] w₁ ⟨.run (.ret 2), []⟩ := .refl
  have hfirst := World.Hands.cons (p := ⟨0⟩) (c := ⟨0, 2, brittle, []⟩) hback (.nil w₁)
  obtain ⟨hrest, -⟩ := hout.reaches [⟨0, 2, brittle, []⟩] ⟨1, 2, .ret, []⟩ [] _ w₁ rfl hfirst
  exact ⟨w, _, s, hreach, rfl, hs, hclear.2 hset.due, hempty hset, w₁, _, hbegins.trans hrest⟩

end ReactiveCells
