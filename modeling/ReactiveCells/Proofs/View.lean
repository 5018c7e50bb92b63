import ReactiveCells.Proofs.Run

/-!
# Views — one publisher in the middle of everything

Whatever else goes on, the moves that matter to one publisher are few: its value changes, an
observer is queued, a drain begins, calls an observer, takes the next entry, ends or is given up,
and an observer is removed. A view is what a state says about the publisher: its own state, the
calls still due in its drains, and the focus. `View.Move` lists how a view can change, with the
signal that tells of it, and every move of the machine is one of these for every publisher.

Main statements: `Moves.view` (a move of the machine moves every view) and `Reachable.unknown`
(nothing is about a publisher before it is made).
-/

namespace ReactiveCells

variable {V P σ ε : Type}

/-- What happens to a publisher, as its events tell. -/
inductive Signal (V : Type) where
  | committed (v : V)
  | queued (id : Nat)
  | called (id : Nat) (v : V)
  | detached (id : Nat)
deriving DecidableEq

/-- What an event tells about a publisher. -/
def Event.signal? (p : PublisherRef) : Event V ε → Option (Signal V)
  | .committed q v => if q = p then some (.committed v) else none
  | .queued q id => if q = p then some (.queued id) else none
  | .called q id v => if q = p then some (.called id v) else none
  | .detached q id _ => if q = p then some (.detached id) else none
  | .note _ | .message _ | .disposed _ => none

attribute [simp] Event.signal?

/-- What events tell about a publisher. -/
def signals (p : PublisherRef) (es : List (Event V ε)) : List (Signal V) :=
  es.filterMap (Event.signal? p)

@[simp] theorem signals_nil (p : PublisherRef) : signals p ([] : List (Event V ε)) = [] := rfl

@[simp] theorem signals_cons (p : PublisherRef) (e : Event V ε) (es : List (Event V ε)) :
    signals p (e :: es) = (e.signal? p).toList ++ signals p es := by
  rw [signals, List.filterMap_cons]
  cases e.signal? p <;> rfl

@[simp] theorem signals_append (p : PublisherRef) (es es' : List (Event V ε)) :
    signals p (es ++ es') = signals p es ++ signals p es' :=
  List.filterMap_append

/-- The calls that a frame has yet to make for a publisher. -/
def Frame.calls? (p : PublisherRef) : Frame V P σ ε → Option (List (Call V (Observer V P σ ε)))
  | .deliver q calls => if q = p then some calls else none
  | _ => none

/-- Only deliveries of a publisher have calls to make for it. -/
theorem Frame.eq_deliver_of_calls? {p : PublisherRef} {fr : Frame V P σ ε}
    {calls : List (Call V (Observer V P σ ε))} (h : fr.calls? p = some calls) :
    fr = .deliver p calls := by
  cases fr with
  | deliver q calls' =>
      obtain ⟨rfl, hcalls⟩ := (Option.ite_none_right_eq_some).1 h
      exact congrArg _ (Option.some.inj hcalls)
  | _ => cases h

/-- Deliveries that have no calls to make are of another publisher. -/
theorem Frame.ne_of_calls? {p q : PublisherRef} {calls : List (Call V (Observer V P σ ε))}
    (h : (.deliver q calls : Frame V P σ ε).calls? p = none) : q ≠ p := by
  rintro rfl
  exact absurd ((if_pos rfl).symm.trans h) (Option.some_ne_none calls)

/-- The calls still due in the drains of a publisher, the latest drain first. -/
def Thread.due (p : PublisherRef) (t : Thread V P σ ε) : List (List (Call V (Observer V P σ ε))) :=
  t.stack.filterMap (Frame.calls? p)

/-- Whether no drain of a publisher is in progress or about to begin. -/
structure Thread.Settled (p : PublisherRef) (t : Thread V P σ ε) : Prop where
  focus : t.focus ≠ .drain p
  due : t.due p = []

/-- What a state says about one publisher. -/
structure View (V P σ ε : Type) where
  state : Publisher V (Observer V P σ ε)
  due : List (List (Call V (Observer V P σ ε)))
  focus : Focus V P σ ε

/-- What a thread says about a publisher. -/
def Thread.view (p : PublisherRef) (s : Publisher V (Observer V P σ ε)) (t : Thread V P σ ε) :
    View V P σ ε :=
  ⟨s, t.due p, t.focus⟩

/-- How the view of a publisher changes in one move, and the signals of that. -/
inductive View.Move [BEq V] (p : PublisherRef) :
    View V P σ ε → List (Signal V) → View V P σ ε → Prop where
  /-- Something else goes on. -/
  | other {s due f f'} : f ≠ .drain p → f' ≠ .drain p → Move p ⟨s, due, f⟩ [] ⟨s, due, f'⟩
  | commit {s s' due f v} : f ≠ .drain p → s.commit v = some s' →
      Move p ⟨s, due, f⟩ [.committed v] ⟨s', due, .drain p⟩
  | enqueue {s due f} (o : Observer V P σ ε) : f ≠ .drain p →
      Move p ⟨s, due, f⟩ [.queued s.nextId] ⟨s.enqueue o, due, .drain p⟩
  | start {s s' due} : s.beginDrain = some s' →
      Move p ⟨s, due, .drain p⟩ [] ⟨s', [] :: due, .run (.ret s.current)⟩
  | busy {s due} : s.beginDrain = none →
      Move p ⟨s, due, .drain p⟩ [] ⟨s, due, .run (.ret s.current)⟩
  | call {s c calls due v} :
      Move p ⟨s, (c :: calls) :: due, .run (.ret v)⟩ [.called c.id c.value]
        ⟨s, calls :: due, .run (c.observer.react c.value)⟩
  | pop {s d s' due v} : s.pop = some (d, s') →
      Move p ⟨s, [] :: due, .run (.ret v)⟩ [] ⟨s', d.calls :: due, .run (.ret v)⟩
  | finish {s due v} : s.pop = none →
      Move p ⟨s, [] :: due, .run (.ret v)⟩ [] ⟨s.endDrain, due, .run (.ret s.current)⟩
  | detach {s due f f'} (id : Nat) : f ≠ .drain p → f' ≠ .drain p →
      Move p ⟨s, due, f⟩ [.detached id] ⟨s.detach id, due, f'⟩
  | abandon {s calls due text} :
      Move p ⟨s, calls :: due, .unwind text⟩ [] ⟨s.abandon, due, .unwind text⟩

namespace Thread

variable {p q : PublisherRef}

@[simp] theorem due_cons_deliver_self (f : Focus V P σ ε)
    (calls : List (Call V (Observer V P σ ε))) (st : List (Frame V P σ ε)) :
    due p ⟨f, .deliver p calls :: st⟩ = calls :: due p ⟨f, st⟩ := by
  simp [due, Frame.calls?]

theorem due_cons_deliver_ne (h : q ≠ p) (f : Focus V P σ ε)
    (calls : List (Call V (Observer V P σ ε))) (st : List (Frame V P σ ε)) :
    due p ⟨f, .deliver q calls :: st⟩ = due p ⟨f, st⟩ := by
  simp [due, Frame.calls?, h]

/-- Only deliveries have calls due. -/
theorem due_cons_of_calls? {fr : Frame V P σ ε} (h : fr.calls? p = none) (f : Focus V P σ ε)
    (st : List (Frame V P σ ε)) : due p ⟨f, fr :: st⟩ = due p ⟨f, st⟩ := by
  simp [due, h]

@[simp] theorem due_leaving {O : Type} (s : Publisher V O) (f : Focus V P σ ε)
    (st : List (Frame V P σ ε)) : due p ⟨f, s.leaving ++ st⟩ = due p ⟨f, st⟩ :=
  s.filterMap_leaving st fun _ => rfl

/-- The calls due to the upper part of a stack come before those due to the rest. -/
theorem due_append (f : Focus V P σ ε) (st rest : List (Frame V P σ ε)) :
    due p ⟨f, st ++ rest⟩ = due p ⟨f, st⟩ ++ due p ⟨f, rest⟩ :=
  List.filterMap_append

/-- Frames that deliver nothing have no calls due. -/
theorem due_eq_nil {st : List (Frame V P σ ε)} (h : ∀ fr ∈ st, fr.calls? p = none)
    (f : Focus V P σ ε) : due p ⟨f, st⟩ = [] :=
  List.filterMap_eq_nil_iff.2 h

theorem drain_ne (h : q ≠ p) : (.drain q : Focus V P σ ε) ≠ .drain p := by
  intro e
  cases e
  exact h rfl

end Thread

/-! ## What a move does to a view -/

theorem signals_report {O : Type} (p : PublisherRef) (d : Delivery V O) :
    signals p (d.report : List (Event V ε)) = [] := by
  cases d <;> rfl

variable [BEq V]

theorem signals_perform {w w' : World V P σ ε} {a : Atom V σ ε} {x : a.Answer}
    {es : List (Event V ε)} (p : PublisherRef) (h : w.perform a = some (x, w', es)) :
    signals p es = [] := by
  rcases (World.performed h).events with rfl | ⟨e, rfl⟩ | ⟨m, rfl⟩ <;> rfl

namespace Thread

variable {body : P → Prog V P σ ε} {w w' : World V P σ ε} {t t' : Thread V P σ ε}
  {es : List (Event V ε)} {p q : PublisherRef} {s s' : Publisher V (Observer V P σ ε)}

/-- A move that leaves a publisher and its drains alone. -/
theorem view_other (hp : w.publisher? p = some s) (hs : signals p es = []) (hd : t'.due p = t.due p)
    (hf : t.focus ≠ .drain p) (hf' : t'.focus ≠ .drain p) :
    ∃ s', w.publisher? p = some s' ∧ View.Move p (t.view p s) (signals p es) (t'.view p s') := by
  refine ⟨s, hp, ?_⟩
  rw [hs, view, view, hd]
  exact .other hf hf'

/-- A move of the machine moves the view of every publisher there is. -/
theorem Moves.view (h : Moves body w t es w' t') (hp : w.publisher? p = some s) :
    ∃ s', w'.publisher? p = some s' ∧
      View.Move p (t.view p s) (signals p es) (t'.view p s') := by
  -- a move that changes one publisher changes the view of that one only
  have elsewhere : ∀ {q : PublisherRef} {r : Publisher V (Observer V P σ ε)}, q ≠ p →
      (w.setPublisher q r).publisher? p = some s := fun hq =>
    (World.publisher?_setPublisher_ne hq).trans hp
  cases h with
  | resumed | unharmed | left | observed | registered | swapped | caught | expelled | panicked
  | entered | attempted | held | retried | prepared | disposedAgain | tornDown | contended =>
      exact view_other hp rfl rfl nofun nofun
  | @passed _ fr _ hfr =>
      have hd : fr.calls? p = none := by
        cases fr <;> first | rfl | exact hfr.elim
      exact view_other hp rfl (due_cons_of_calls? hd _ _).symm nofun nofun
  | performed ha =>
      exact view_other (World.perform_publisher? ha hp) (signals_perform p ha) rfl nofun nofun
  | @called v q c calls st =>
      by_cases hq : q = p
      · subst hq
        have hs : signals q [(.called q c.id c.value : Event V ε)] = [.called c.id c.value] := by
          simp
        refine ⟨s, hp, ?_⟩
        rw [hs, Thread.view, Thread.view, due_cons_deliver_self, due_cons_of_calls? rfl,
          due_cons_deliver_self]
        exact .call
      · refine view_other hp ?_ ?_ nofun nofun
        · simp [hq]
        · rw [due_cons_of_calls? rfl, due_cons_deliver_ne hq, due_cons_deliver_ne hq]
          rfl
  | @drained v q r st hr hpop =>
      by_cases hq : q = p
      · subst hq
        obtain rfl := Option.some.inj (hp.symm.trans hr)
        refine ⟨_, World.publisher?_setPublisher_self hp, ?_⟩
        rw [Thread.view, due_cons_deliver_self]
        exact .finish hpop
      · refine view_other (elsewhere hq) rfl ?_ nofun nofun
        exact (due_cons_deliver_ne hq _ _ _).symm
  | @popped v q r d r' st hr hpop =>
      by_cases hq : q = p
      · subst hq
        obtain rfl := Option.some.inj (hp.symm.trans hr)
        refine ⟨_, World.publisher?_setPublisher_self hp, ?_⟩
        rw [signals_report, Thread.view, Thread.view, due_cons_deliver_self, due_cons_deliver_self]
        exact .pop hpop
      · refine view_other (elsewhere hq) (signals_report p d) ?_ nofun nofun
        rw [due_cons_deliver_ne hq, due_cons_deliver_ne hq]
  | amendedSame => exact view_other hp rfl rfl nofun nofun
  | @amended v q r r' st hr hc =>
      by_cases hq : q = p
      · subst hq
        obtain rfl := Option.some.inj (hp.symm.trans hr)
        have hs : signals q [(.committed q v : Event V ε)] = [.committed v] := by
          simp
        refine ⟨_, World.publisher?_setPublisher_self hp, ?_⟩
        rw [hs, Thread.view, due_cons_of_calls? rfl]
        exact .commit nofun hc
      · refine view_other (elsewhere hq) ?_ rfl nofun (drain_ne hq)
        simp [hq]
  | @abandoned text q calls r st hr =>
      by_cases hq : q = p
      · subst hq
        obtain rfl := Option.some.inj (hp.symm.trans hr)
        refine ⟨_, World.publisher?_setPublisher_self hp, ?_⟩
        rw [Thread.view, due_cons_deliver_self]
        exact .abandon
      · refine view_other (elsewhere hq) rfl ?_ nofun nofun
        exact (due_cons_deliver_ne hq _ _ _).symm
  | @busy q r st hr hb =>
      by_cases hq : q = p
      · subst hq
        obtain rfl := Option.some.inj (hp.symm.trans hr)
        exact ⟨s, hp, .busy hb⟩
      · exact view_other hp rfl rfl (drain_ne hq) nofun
  | @draining q r r' st hr hb =>
      by_cases hq : q = p
      · subst hq
        obtain rfl := Option.some.inj (hp.symm.trans hr)
        refine ⟨_, World.publisher?_setPublisher_self hp, ?_⟩
        rw [Thread.view, Thread.view, due_cons_deliver_self]
        exact .start hb
      · refine view_other (elsewhere hq) rfl ?_ (drain_ne hq) nofun
        exact due_cons_deliver_ne hq _ _ _
  | @publishedSame q v k r st hr hc =>
      refine view_other ((World.publisher?_enterAll _).trans hp) rfl ?_ nofun nofun
      exact due_leaving r _ _
  | @published q v k r r' st hr hc =>
      by_cases hq : q = p
      · subst hq
        obtain rfl := Option.some.inj (hp.symm.trans hr)
        have hs : signals q [(.committed q v : Event V ε)] = [.committed v] := by
          simp
        refine ⟨_, World.publisher?_enterAll_setPublisher hp, ?_⟩
        rw [hs, Thread.view, Thread.view, due_leaving, due_cons_of_calls? rfl]
        exact .commit nofun hc
      · refine view_other ?_ ?_ (due_leaving r _ _) nofun (drain_ne hq)
        · exact (World.publisher?_setPublisher_ne hq).trans ((World.publisher?_enterAll _).trans hp)
        · simp [hq]
  | @amending q f k r st hr =>
      refine view_other ((World.publisher?_enterAll _).trans hp) rfl ?_ nofun nofun
      rw [List.cons_append, due_cons_of_calls? rfl, due_leaving]
      rfl
  | @attached q keeps o k r st hr =>
      by_cases hq : q = p
      · subst hq
        obtain rfl := Option.some.inj (hp.symm.trans hr)
        have hs : signals q [(.queued q s.nextId : Event V ε)] = [.queued s.nextId] := by
          simp
        refine ⟨_, World.publisher?_enterAll_setPublisher hp, ?_⟩
        rw [hs, Thread.view, Thread.view, due_leaving, due_cons_of_calls? rfl]
        exact .enqueue _ nofun
      · refine view_other ?_ ?_ (due_leaving r _ _) nofun (drain_ne hq)
        · exact (World.publisher?_setPublisher_ne hq).trans ((World.publisher?_enterAll _).trans hp)
        · simp [hq]
  | @detached c q id r k st hsub hr =>
      by_cases hq : q = p
      · subst hq
        obtain rfl := Option.some.inj (hp.symm.trans hr)
        have hs : signals q [(.disposed c : Event V ε),
            .detached q id (s.detach id).observers.length] = [.detached id] := by
          simp
        refine ⟨_, World.publisher?_setPublisher_self hp, ?_⟩
        rw [hs]
        exact .detach id nofun nofun
      · refine view_other (elsewhere hq) ?_ rfl nofun nofun
        simp [hq]

/-! ## Publishers that are not made yet -/

omit [BEq V] in
/-- A publisher that has calls due is not settled. -/
theorem Settled.ne_deliver {f : Focus V P σ ε} {calls : List (Call V (Observer V P σ ε))}
    {st : List (Frame V P σ ε)} (h : Settled p ⟨f, .deliver q calls :: st⟩) : q ≠ p := by
  intro hq
  subst hq
  have hd := h.due
  rw [due_cons_deliver_self] at hd
  exact nomatch hd

/-- A move of the machine leaves an unknown publisher unknown or makes it. -/
theorem Moves.unknown (h : Moves body w t es w' t') (hp : w.publisher? p = none)
    (ht : t.Settled p) :
    signals p es = [] ∧ t'.Settled p ∧
      (w'.publisher? p = none ∨ ∃ guard v, w'.publisher? p = some (.new guard v)) := by
  -- what a move looks up is there, so it is not the unknown one
  have named : ∀ {q : PublisherRef} {r : Publisher V (Observer V P σ ε)},
      w.publisher? q = some r → q ≠ p := by
    intro q r hr hq
    rw [hq, hp] at hr
    exact nomatch hr
  have elsewhere : ∀ {q : PublisherRef} {r r' : Publisher V (Observer V P σ ε)},
      w.publisher? q = some r → (w.setPublisher q r').publisher? p = none := fun hr =>
    (World.publisher?_setPublisher_ne (named hr)).trans hp
  cases h with
  | resumed | unharmed | left | observed | registered | swapped | caught | expelled | panicked
  | entered | attempted | held | retried | prepared | disposedAgain | tornDown | contended
  | amendedSame | busy =>
      exact ⟨rfl, ⟨nofun, ht.due⟩, Or.inl hp⟩
  | @passed _ fr _ hfr =>
      have hd : fr.calls? p = none := by
        cases fr <;> first | rfl | exact hfr.elim
      exact ⟨rfl, ⟨nofun, (due_cons_of_calls? hd _ _).symm.trans ht.due⟩, Or.inl hp⟩
  | performed ha =>
      refine ⟨signals_perform p ha, ⟨nofun, ht.due⟩, ?_⟩
      rcases (World.performed ha).publishers with he | ⟨guard, v, -, he⟩
      · exact Or.inl ((congrArg (Heap.get? · p.index) he).trans hp)
      · have hget : w'.publisher? p = (w.publishers.alloc (.new guard v)).get? p.index :=
          congrArg (Heap.get? · p.index) he
        rw [hget]
        rcases Heap.get?_alloc_of_none _ _ (.new guard v) hp with hn | hs
        · exact Or.inl hn
        · exact Or.inr ⟨guard, v, hs⟩
  | @called v q c calls st =>
      have hq := ht.ne_deliver
      refine ⟨?_, ⟨nofun, ?_⟩, Or.inl hp⟩
      · simp [hq]
      · rw [due_cons_of_calls? rfl, due_cons_deliver_ne hq]
        exact (due_cons_deliver_ne hq _ _ _).symm.trans ht.due
  | drained hr | abandoned hr =>
      have hd := ht.due
      rw [due_cons_deliver_ne (named hr)] at hd
      exact ⟨rfl, ⟨nofun, hd⟩, Or.inl (elsewhere hr)⟩
  | popped hr =>
      have hd := ht.due
      rw [due_cons_deliver_ne (named hr)] at hd
      refine ⟨signals_report p _, ⟨nofun, ?_⟩, Or.inl (elsewhere hr)⟩
      rw [due_cons_deliver_ne (named hr)]
      exact hd
  | amended hr =>
      refine ⟨?_, ⟨drain_ne (named hr), ht.due⟩, Or.inl (elsewhere hr)⟩
      simp [named hr]
  | draining hr =>
      refine ⟨rfl, ⟨nofun, ?_⟩, Or.inl (elsewhere hr)⟩
      rw [due_cons_deliver_ne (named hr)]
      exact ht.due
  | publishedSame hr =>
      refine ⟨rfl, ⟨nofun, ?_⟩, Or.inl ((World.publisher?_enterAll _).trans hp)⟩
      rw [due_leaving]
      exact ht.due
  | published hr =>
      refine ⟨?_, ⟨drain_ne (named hr), ?_⟩, Or.inl ?_⟩
      · simp [named hr]
      · rw [due_leaving]
        exact ht.due
      · exact (World.publisher?_setPublisher_ne (named hr)).trans
          ((World.publisher?_enterAll _).trans hp)
  | amending hr =>
      refine ⟨rfl, ⟨nofun, ?_⟩, Or.inl ((World.publisher?_enterAll _).trans hp)⟩
      rw [List.cons_append, due_cons_of_calls? rfl, due_leaving]
      exact ht.due
  | attached hr =>
      refine ⟨?_, ⟨drain_ne (named hr), ?_⟩, Or.inl ?_⟩
      · simp [named hr]
      · rw [due_leaving]
        exact ht.due
      · exact (World.publisher?_setPublisher_ne (named hr)).trans
          ((World.publisher?_enterAll _).trans hp)
  | detached hs hr =>
      refine ⟨?_, ⟨nofun, ht.due⟩, Or.inl (elsewhere hr)⟩
      simp [named hr]

end Thread

omit [BEq V] in
/-- A thread that a client just started has no drain in progress. -/
theorem Thread.settled_start (p : PublisherRef) (c : Prog V P σ ε) : (Thread.start c).Settled p :=
  ⟨nofun, rfl⟩

omit [BEq V] in
/-- A thread that has ended has a value or a panic, and nothing waits for it. -/
theorem Thread.outcome_cases {t : Thread V P σ ε} {o : Outcome V} (h : t.outcome? = some o) :
    (∃ v, t = ⟨.run (.ret v), []⟩) ∨ ∃ text, t = ⟨.unwind text, []⟩ := by
  unfold Thread.outcome? at h
  split at h
  · exact Or.inl ⟨_, rfl⟩
  · exact Or.inr ⟨_, rfl⟩
  · exact nomatch h

omit [BEq V] in
/-- Nothing waits in a thread that has ended. -/
theorem Thread.stack_of_outcome {t : Thread V P σ ε} {o : Outcome V}
    (h : t.outcome? = some o) : t.stack = [] := by
  rcases Thread.outcome_cases h with ⟨v, rfl⟩ | ⟨text, rfl⟩ <;> rfl

omit [BEq V] in
/-- A thread that has ended has no drain in progress. -/
theorem Thread.settled_of_outcome {p : PublisherRef} {t : Thread V P σ ε} {o : Outcome V}
    (h : t.outcome? = some o) : t.Settled p := by
  rcases Thread.outcome_cases h with ⟨v, rfl⟩ | ⟨text, rfl⟩ <;> exact ⟨nofun, rfl⟩

/-- Nothing is about a publisher before it is made. -/
theorem Reachable.unknown {body : P → Prog V P σ ε} {w : World V P σ ε} {t : Thread V P σ ε}
    {p : PublisherRef} (h : Reachable body w t) (hp : w.publisher? p = none) : t.Settled p := by
  obtain ⟨store, c, es, hr⟩ := h
  induction hr with
  | refl => exact Thread.settled_start p c
  | next => exact Thread.settled_start p _
  | @step es es' w w' t t' _ hstep _ ih =>
      have hm := Thread.moves_iff.2 hstep
      cases hw : w.publisher? p with
      | none => exact (hm.unknown hw (ih hw)).2.1
      | some s =>
          obtain ⟨s', hs', -⟩ := hm.view hw
          rw [hp] at hs'
          exact nomatch hs'

end ReactiveCells
