import ReactiveCells.Proofs.Deadlock
import ReactiveCells.Proofs.Sequencing

/-!
# Holding — what runs inside an ordered lock

A thread is inside the monitors whose frames wait on its stack, and what a world says is held are
these and what was held before. This is so whatever the thread does and however it ends, since a
value and a panic both leave a monitor where they pass its frame. So every program gives back what
it enters, and a program that is run inside an ordered lock runs inside all its monitors until it
ends: once, since the locks are entered before it and left after it, and neither runs anything else.

Main statements: `Moves.holds` (what a move does to the monitors held), `Run.balanced` (a program
gives back what it enters) and `take_balanced`.
-/

namespace ReactiveCells

variable {V P σ ε : Type}

/-! ## What is held -/

section Held

variable {w w' : World V P σ ε} {t t' : Thread V P σ ε} {es : List (Event V ε)} {base : Held}
  {body : P → Prog V P σ ε}

@[simp] theorem World.held_enterAll (w : World V P σ ε) (ms : List Monitor) :
    (w.enterAll ms).held = ms ++ w.held := by
  induction ms with
  | nil => rfl
  | cons m ms ih => exact congrArg (m :: ·) ih

theorem Held.depth_append (h h' : Held) (m : Monitor) :
    Held.depth (h ++ h') m = h.depth m + h'.depth m :=
  List.count_append

variable [BEq V]

/-- What is held is what the thread is inside, and what was held before. -/
theorem Thread.Moves.holds (h : Moves body w t es w' t') (hw : w.held = t.monitors ++ base) :
    w'.held = t'.monitors ++ base := by
  cases h with
  | left | expelled =>
      -- a value and a panic leave the monitor alike: it is the first one held
      rw [monitors_cons_leave, List.cons_append] at hw
      rw [World.leave, hw]
      exact Held.leave_enter _ _
  | @passed _ fr _ hfr =>
      have hnone : fr.monitor? = none := by
        cases fr <;> first | rfl | exact hfr.elim
      rwa [monitors_cons_of_monitor? hnone] at hw
  | held => exact congrArg (List.cons _) hw
  | performed ha => exact (World.performed ha).held.trans hw
  | publishedSame | published | attached =>
      rw [monitors_leaving, List.append_assoc]
      exact (World.held_enterAll w _).trans (congrArg _ hw)
  | amending =>
      rw [List.cons_append, monitors_cons_of_monitor? rfl, monitors_leaving, List.append_assoc]
      exact (World.held_enterAll w _).trans (congrArg _ hw)
  | resumed | unharmed | called | drained | popped | observed | amendedSame | amended | registered
  | swapped | contended | caught | abandoned | busy | draining | panicked | entered | attempted
  | retried | prepared | disposedAgain | tornDown | detached => exact hw

theorem Run.held (h : AnyRun body w t es w' t') (hw : w.held = t.monitors ++ base) :
    w'.held = t'.monitors ++ base := by
  induction h with
  | refl => exact hw
  | step _ hstep _ ih => exact (Thread.moves_iff.2 hstep).holds ih
  | next _ _ hc _ _ => exact hc.elim

/-- A program gives back the monitors it has entered, also where it ends with a panic. -/
theorem Run.balanced {c : Prog V P σ ε} {o : Outcome V} (h : AnyRun body w (.start c) es w' t)
    (ho : t.outcome? = some o) : w'.held = w.held := by
  have hheld : w'.held = t.monitors ++ w.held := h.held rfl
  rwa [Thread.monitors_of_outcome ho] at hheld

end Held

/-! ## Inside several monitors -/

namespace Act

variable [BEq V] (body : P → Prog V P σ ε)

/-- How it goes on after a program that is run inside monitors, and what waits for that. -/
def afterAll : List Monitor → Routine V P σ ε → List (Frame V P σ ε) →
    Routine V P σ ε × List (Frame V P σ ε)
  | [], k, st => (k, st)
  | m :: ms, k, st => afterAll ms .ret (.leave m :: .resume k :: st)

/-- The monitors are entered one after the other. -/
theorem enter_run (w : World V P σ ε) (ms : List Monitor) (b : Act V P σ ε V)
    (k : Routine V P σ ε) (st : List (Frame V P σ ε)) :
    CalmRun body w ⟨.run (holdAll ms b k), st⟩ [] { w with held := ms.reverse ++ w.held }
      ⟨.run (b (afterAll ms k st).1), (afterAll ms k st).2⟩ := by
  induction ms generalizing w k st with
  | nil => exact .refl
  | cons m ms ih =>
      have hrest := ih (w.enter m) .ret (.leave m :: .resume k :: st)
      rw [List.reverse_cons, List.append_assoc]
      exact .cons Thread.Moves.held.step trivial hrest

/-- The monitors are left in the reverse order, whether a value or a panic comes back. -/
theorem exit_run (w : World V P σ ε) (ms : List Monitor) (h : Held) (o : Outcome V)
    (k : Routine V P σ ε) (st : List (Frame V P σ ε)) (hw : w.held = ms.reverse ++ h) :
    AnyRun body w (o.into (afterAll ms k st).1 (afterAll ms k st).2) [] { w with held := h }
      (o.into k st) := by
  -- the monitor entered first is left last, after all those that the induction is about
  induction ms generalizing h k st with
  | nil =>
      obtain rfl : w.held = h := hw
      exact .refl
  | cons m ms ih =>
      rw [List.reverse_cons, List.append_assoc] at hw
      refine (ih (m :: h) .ret (.leave m :: .resume k :: st) hw).trans ?_
      have hleave : ({ w with held := m :: h } : World V P σ ε).leave m = { w with held := h } :=
        World.leave_enter { w with held := h } m
      cases o with
      | returned v =>
          have hm : Thread.Moves body { w with held := m :: h }
              ⟨.run (.ret v), .leave m :: .resume k :: st⟩ [] _ _ := .left
          rw [hleave] at hm
          exact .cons hm.step trivial (.single Thread.Moves.resumed.step trivial)
      | panicked text =>
          have hm : Thread.Moves body { w with held := m :: h }
              ⟨.unwind text, .leave m :: .resume k :: st⟩ [] _ _ := .expelled
          rw [hleave] at hm
          exact .cons hm.step trivial (.single rfl trivial)

end Act

/-! ## Taking an ordered lock -/

namespace OrderedLock

variable {ls : List LockId} {l l' : LockId}

theorem lock_mem_acquisitions (h : l ∈ ls) : Monitor.lock l ∈ (on ls).acquisitions :=
  List.mem_append_right _ (List.mem_map_of_mem ((mem_on ls l).2 h))

theorem tieBreaker_mem_acquisitions (h : l ∈ ls) (h' : l' ∈ ls) (hne : l ≠ l')
    (hkey : l.key = l'.key) : Monitor.tieBreaker ∈ (on ls).acquisitions := by
  simp [acquisitions, needsTieBreaker_of_key h h' hne hkey]

/-- The world in which a program runs that is run inside an ordered lock. -/
def entered (o : OrderedLock) (w : World V P σ ε) : World V P σ ε :=
  { w with held := o.acquisitions.reverse ++ w.held }

variable [BEq V] {body : P → Prog V P σ ε} {w w' : World V P σ ε} {c : Prog V P σ ε}
  {t u : Thread V P σ ε} {es : List (Event V ε)} {m : Monitor} (o : OrderedLock)

/-- The first thing that comes of taking an ordered lock is that all monitors are entered. -/
theorem take_run (k : Routine V P σ ε) (st : List (Frame V P σ ε)) :
    AnyRun body w ⟨.run (o.take c.act k), st⟩ [.message (.lockTaken o.locks)] (o.entered w)
      ⟨.run (c.bind (Act.afterAll o.acquisitions k st).1),
        (Act.afterAll o.acquisitions k st).2⟩ := by
  have hm : Thread.Moves body w ⟨.run (o.take c.act k), st⟩ [.message (.lockTaken o.locks)] w
      ⟨.run (Act.holdAll o.acquisitions c.act k), st⟩ := .performed rfl
  exact .cons hm.step trivial (Act.enter_run body w o.acquisitions c.act k st).any

/-- What runs inside an ordered lock has it in addition to what was held. -/
theorem depth_lt (h : AnyRun body (o.entered w) (.start c) es w' t) (hm : m ∈ o.acquisitions) :
    w.held.depth m < w'.held.depth m := by
  have hheld : w'.held = t.monitors ++ (o.acquisitions.reverse ++ w.held) := h.held rfl
  have hpos : 0 < Held.depth o.acquisitions.reverse m :=
    List.count_pos_iff.2 (List.mem_reverse.2 hm)
  rw [hheld, Held.depth_append, Held.depth_append]
  omega

end OrderedLock

open OrderedLock in
/-- Taking an ordered lock on any list of locks, around any program, in a world in which anything
may be held. All that the program does there, the call does; meanwhile every lock of the list is held
once more at least than before, and so is the tie-breaker if two different locks of the list have
one key. When the program ends, with a value or a panic, so does the call, and what is held is what
was held before. And the call ends in no other way: it has run the program once, from its beginning
to its end. -/
theorem take_balanced [BEq V] (body : P → Prog V P σ ε) (ls : List LockId) (c : Prog V P σ ε)
    (w : World V P σ ε) :
    (∀ es w' t, AnyRun body ((on ls).entered w) (.start c) es w' t →
      (∀ l ∈ ls, w.held.depth (.lock l) < w'.held.depth (.lock l)) ∧
      (∀ l ∈ ls, ∀ l' ∈ ls, l ≠ l' → l.key = l'.key →
        w.held.depth .tieBreaker < w'.held.depth .tieBreaker) ∧
      ∀ k st,
        (∃ g st' u, Hosts g st' t u ∧ AnyRun body w ⟨.run ((on ls).take c.act k), st⟩
          (.message (.lockTaken (on ls).locks) :: es) w' u) ∧
        ∀ o, t.outcome? = some o → AnyRun body w ⟨.run ((on ls).take c.act k), st⟩
          (.message (.lockTaken (on ls).locks) :: es) { w' with held := w.held } (o.into k st)) ∧
    (∀ es w' t o, AnyRun body w (.start ((on ls).take c.act).prog) es w' t → t.outcome? = some o →
      ∃ es' w₁ t', AnyRun body ((on ls).entered w) (.start c) es' w₁ t' ∧ t'.outcome? = some o ∧
        es = .message (.lockTaken (on ls).locks) :: es' ∧ w' = { w₁ with held := w.held }) := by
  refine ⟨fun es w' t hrun => ⟨fun l hl => ?_, fun l hl l' hl' hne hkey => ?_,
    fun k st => ⟨?_, ?_⟩⟩, fun es w' t o hrun ho => ?_⟩
  · exact depth_lt _ hrun (lock_mem_acquisitions hl)
  · exact depth_lt _ hrun (tieBreaker_mem_acquisitions hl hl' hne hkey)
  · obtain ⟨u, hu, hhosts⟩ := hrun.hosts (Act.afterAll (on ls).acquisitions k st).1
      (Act.afterAll (on ls).acquisitions k st).2
    exact ⟨_, _, u, hhosts, (take_run _ k st).trans hu⟩
  · intro o ho
    have hthrough := (take_run (w := w) (on ls) k st).trans (hrun.through ho _ _)
    have hexit := Act.exit_run body w' (on ls).acquisitions w.held o k st (hrun.balanced ho)
    have hall := hthrough.trans hexit
    rwa [List.append_nil] at hall
  · -- the call has entered the monitors, come through the program, and left the monitors
    obtain ⟨es₁, rfl, hinside⟩ :=
      (take_run (on ls) .ret []).rest hrun (Thread.step_of_outcome ho)
    obtain ⟨es', es₂, w₁, t', o', rfl, hc, ho', hafter⟩ := hinside.passed ho
    have hexit := Act.exit_run body w₁ (on ls).acquisitions w.held o' .ret [] (hc.balanced ho')
    have hend : (o'.into .ret [] : Thread V P σ ε).outcome? = some o' := by cases o' <;> rfl
    obtain ⟨rfl, rfl, rfl⟩ := hexit.unique (Thread.step_of_outcome hend) hafter
      (Thread.step_of_outcome ho)
    obtain rfl := Option.some.inj (hend.symm.trans ho)
    exact ⟨es', w₁, t', hc, ho', by simp, rfl⟩

/-- Takes two locks of one key, enters the first of them once more, takes the other one on top, and
panics. -/
def stumblingInside : Prog Nat Empty Unit Unit :=
  (OrderedLock.take ⟨[⟨0, 7⟩, ⟨1, 7⟩], true⟩
    (LockId.run ⟨0, 7⟩ (OrderedLock.take ⟨[⟨1, 7⟩], false⟩ (Act.panic "late")))).prog

/-- What is held when the second take begins, and in the end. -/
example :
    let (w, t, seen) := Thread.run Empty.elim (fun w _ _ => some w.held) 20 (World.new ())
      (.start stumblingInside) []
    seen.head? = some [.lock ⟨0, 7⟩, .lock ⟨1, 7⟩, .lock ⟨0, 7⟩, .tieBreaker] ∧
      t.outcome? = some (.panicked "late") ∧ w.held = [] := by
  decide +kernel

end ReactiveCells
