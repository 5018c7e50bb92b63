import ReactiveCells.Proofs.Soon

/-!
# Sequencing — a program and what comes after it

Where one program is bound to another, or waits on top of a stack, the machine does not mark the
place at which the first one ends. `Hosts` says where it is: a thread hosts another one if it does
what that one does, with more to follow. While the guest has not ended, both make the same moves, so
a run of a program tells how each computation goes that begins with it, and the other way round.

Main statements: `Hosts.step` (guest and host move alike), `Run.hosts` (a run of a program,
anywhere), `Run.hosted` (a computation that begins with a program has not come to its end yet, or
has gone through it) and `Passes.bind` (the same of things done on the way).
-/

namespace ReactiveCells

variable {V P σ ε : Type}

/-- Whether a waiting call goes on with what is left of the program that made it. -/
def Frame.GoesOn : Frame V P σ ε → Prop
  | .resume _ | .attempt _ | .register .. => True
  | .leave _ | .deliver .. | .observe _ | .commit _ | .swapIn .. => False

/-- The same call in a program that goes on with `g` when it would end. -/
def Frame.andThen (g : Routine V P σ ε) : Frame V P σ ε → Frame V P σ ε
  | .resume k => .resume fun v => (k v).bind g
  | .attempt k => .attempt fun r => (k r).bind g
  | .register p id k => .register p id fun s => (k s).bind g
  | fr => fr

/-- How it goes on where a program has ended that is followed by `g` and waits on a stack. -/
def Outcome.into (g : Routine V P σ ε) (st : List (Frame V P σ ε)) : Outcome V → Thread V P σ ε
  | .returned v => ⟨.run (g v), st⟩
  | .panicked text => ⟨.unwind text, st⟩

/-- Whether the second thread does what the first one does, then `g`, and then what waits on a
stack. -/
inductive Hosts (g : Routine V P σ ε) (st : List (Frame V P σ ε)) :
    Thread V P σ ε → Thread V P σ ε → Prop where
  /-- Nothing waits for the program itself. -/
  | inside (c : Prog V P σ ε) : Hosts g st ⟨.run c, []⟩ ⟨.run (c.bind g), st⟩
  /-- The program waits for a call of its own. -/
  | above (t : Thread V P σ ε) {fr : Frame V P σ ε} : fr.GoesOn →
      Hosts g st (t.over [fr]) (t.over (fr.andThen g :: st))
  | unwound (text : String) : Hosts g st ⟨.unwind text, []⟩ ⟨.unwind text, st⟩

section Hosts

variable {g : Routine V P σ ε} {st rest : List (Frame V P σ ε)} {t u : Thread V P σ ε}
  {o : Outcome V}

theorem Hosts.outcome (h : Hosts g st t u) (ho : t.outcome? = some o) : u = o.into g st := by
  have hnil := Thread.stack_of_outcome ho
  cases h with
  | inside c =>
      rcases Thread.outcome_cases ho with ⟨v, hv⟩ | ⟨text, ht⟩
      · cases hv
        cases ho
        rfl
      · exact nomatch ht
  | above t => exact absurd hnil (by simp [Thread.over])
  | unwound text =>
      cases ho
      rfl

/-- A host has ended only if its guest has. -/
theorem Hosts.guest (h : Hosts g st t u) (hu : u.outcome? = some o) : t.outcome? ≠ none := by
  have hnil := Thread.stack_of_outcome hu
  cases h with
  | inside c =>
      rcases Thread.outcome_cases hu with ⟨v, hv⟩ | ⟨text, ht⟩
      · -- only a program that is over has a value at once
        cases c with
        | ret => exact Option.some_ne_none _
        | _ => cases hv
      · cases ht
  | above => exact absurd hnil (by simp [Thread.over])
  | unwound => exact Option.some_ne_none _

variable [BEq V] {body : P → Prog V P σ ε} {w w' : World V P σ ε}

/-- What has not ended moves on top of a longer stack as it does alone. -/
theorem Thread.step_over (h : t.outcome? = none) (rest : List (Frame V P σ ε)) :
    Thread.step body w (t.over rest) =
      (Thread.step body w t).map fun (w', t', es) => (w', t'.over rest, es) := by
  cases hstep : Thread.step body w t with
  | some r =>
      obtain ⟨w', t', es⟩ := r
      exact ((Thread.moves_iff.2 hstep).over rest).step
  | none =>
      cases hover : Thread.step body w (t.over rest) with
      | none => rfl
      | some r =>
          obtain ⟨w', t', es⟩ := r
          rcases (Thread.moves_iff.2 hover).under with ⟨t₁, -, hm⟩ | ⟨o, ho⟩
          · exact nomatch hstep.symm.trans hm.step
          · exact nomatch h.symm.trans ho

/-- Moves of a guest and of its host. -/
def Moved.Hosts (g : Routine V P σ ε) (st : List (Frame V P σ ε)) (r r' : Moved V P σ ε) : Prop :=
  r.1 = r'.1 ∧ ReactiveCells.Hosts g st r.2.1 r'.2.1 ∧ r.2.2 = r'.2.2

/-- The first operation of a program is the first one of what begins with it. -/
theorem stepRun_bind {c : Prog V P σ ε} (h : ∀ v, c ≠ .ret v) :
    Option.Rel (Moved.Hosts g st) (Thread.stepRun body w [] c)
      (Thread.stepRun body w st (c.bind g)) := by
  have waiting : ∀ (fr : Frame V P σ ε) (upper : List (Frame V P σ ε)) {f : Focus V P σ ε}
      {w' : World V P σ ε} {es : List (Event V ε)}, fr.GoesOn →
      Option.Rel (Moved.Hosts g st) (some (w', ⟨f, upper ++ [fr]⟩, es))
        (some (w', ⟨f, upper ++ fr.andThen g :: st⟩, es)) :=
    fun _ upper {f _ _} hfr => .some ⟨rfl, .above ⟨f, upper⟩ hfr, rfl⟩
  cases c with
  | ret v => exact absurd rfl (h v)
  | panic text => exact .some ⟨rfl, .unwound text, rfl⟩
  | atom a k =>
      simp only [Prog.bind, Thread.stepRun]
      cases w.perform a with
      | none => exact .none
      | some r => exact .some ⟨rfl, .inside _, rfl⟩
  | call c k => exact waiting (.resume k) [] trivial
  | attempt b k => exact waiting (.attempt k) [] trivial
  | hold m b k => exact waiting (.resume k) [.leave m] trivial
  | retry c f k =>
      simp only [Prog.bind, Thread.stepRun]
      cases w.cell? c with
      | none => exact .none
      | some d => exact waiting (.resume k) [_] trivial
  | publish p v k =>
      simp only [Prog.bind, Thread.stepRun]
      cases w.publisher? p with
      | none => exact .none
      | some s =>
          simp only [Option.bind_eq_bind, Option.bind_some]
          cases s.commit v with
          | none => exact waiting (.resume fun _ => k) _ trivial
          | some s' => exact waiting (.resume fun _ => k) _ trivial
  | amend p f k =>
      simp only [Prog.bind, Thread.stepRun]
      cases w.publisher? p with
      | none => exact .none
      | some s => exact waiting (.resume k) (.commit p :: s.monitors.map .leave) trivial
  | attach p keeps o k =>
      simp only [Prog.bind, Thread.stepRun]
      cases w.publisher? p with
      | none => exact .none
      | some s => exact waiting (.register p s.nextId k) _ trivial
  | onDispose c k => exact .some ⟨rfl, .inside _, rfl⟩
  | dispose s k =>
      simp only [Prog.bind, Thread.stepRun]
      cases w.subscriptions.get? s.index with
      | none => exact .none
      | some d =>
          simp only [Option.bind_eq_bind, Option.bind_some]
          cases d with
          | none => exact .some ⟨rfl, .inside k, rfl⟩
          | some d =>
              cases d with
              | run c => exact waiting (.resume fun _ => k) [] trivial
              | detach p id =>
                  simp only
                  cases w.publisher? p with
                  | none => exact .none
                  | some q => exact .some ⟨rfl, .inside k, rfl⟩

/-- A guest that has not ended moves as its host does. -/
theorem Hosts.step (h : Hosts g st t u) (ht : t.outcome? = none) :
    Option.Rel (Moved.Hosts g st) (Thread.step body w t) (Thread.step body w u) := by
  cases h with
  | inside c =>
      refine stepRun_bind fun v => ?_
      rintro rfl
      exact nomatch ht
  | unwound text => exact nomatch ht
  | @above t fr hfr =>
      cases hout : t.outcome? with
      | none =>
          -- what is on top of the program does not see what is below it
          rw [Thread.step_over hout, Thread.step_over hout]
          cases Thread.step body w t with
          | none => exact .none
          | some r => exact .some ⟨rfl, .above r.2.1 hfr, rfl⟩
      | some o =>
          rcases Thread.outcome_cases hout with ⟨v, rfl⟩ | ⟨text, rfl⟩
          · cases fr with
            | resume k => exact .some ⟨rfl, .inside (k v), rfl⟩
            | attempt k => exact .some ⟨rfl, .inside (k none), rfl⟩
            | register p id k => exact .some ⟨rfl, .inside (k _), rfl⟩
            | leave | deliver | observe | commit | swapIn => exact hfr.elim
          · cases fr with
            | resume k => exact .some ⟨rfl, .unwound text, rfl⟩
            | attempt k => exact .some ⟨rfl, .inside (k (some text)), rfl⟩
            | register p id k => exact .some ⟨rfl, .unwound text, rfl⟩
            | leave | deliver | observe | commit | swapIn => exact hfr.elim

end Hosts

/-! ## Runs -/

section Runs

variable [BEq V] {body : P → Prog V P σ ε} {w w' : World V P σ ε} {c : Prog V P σ ε}
  {t u : Thread V P σ ε} {es : List (Event V ε)} {o : Outcome V}

/-- A computation that begins with a program comes through all that the program comes through. -/
theorem Run.hosts (h : AnyRun body w (.start c) es w' t) (g : Routine V P σ ε)
    (st : List (Frame V P σ ε)) :
    ∃ u, AnyRun body w ⟨.run (c.bind g), st⟩ es w' u ∧ Hosts g st t u := by
  induction h with
  | refl => exact ⟨_, .refl, .inside c⟩
  | @step es es' w' w'' t t' _ hstep _ ih =>
      obtain ⟨u, hrun, hhosts⟩ := ih
      have hnone : t.outcome? = none := by
        cases hout : t.outcome? with
        | none => rfl
        | some o => exact nomatch (Thread.step_of_outcome hout).symm.trans hstep
      have hrel : Option.Rel (Moved.Hosts g st) (Thread.step body w' t)
          (Thread.step body w' u) := hhosts.step hnone
      rw [hstep] at hrel
      generalize hu : Thread.step body w' u = r at hrel
      cases hrel with
      | @some _ r hr =>
          obtain ⟨w₁, u', es₁⟩ := r
          obtain ⟨rfl, hu', rfl⟩ := hr
          exact ⟨u', .step hrun hu trivial, hu'⟩
  | next _ _ hc _ _ => exact hc.elim

/-- A computation that begins with a program goes on when the program has ended. -/
theorem Run.through (h : AnyRun body w (.start c) es w' t) (ho : t.outcome? = some o)
    (g : Routine V P σ ε) (st : List (Frame V P σ ε)) :
    AnyRun body w ⟨.run (c.bind g), st⟩ es w' (o.into g st) := by
  obtain ⟨u, hrun, hhosts⟩ := h.hosts g st
  exact hhosts.outcome ho ▸ hrun

/-- A computation that begins with a program is still in the middle of it, or has gone through its
end. -/
theorem Run.hosted {g : Routine V P σ ε} {st : List (Frame V P σ ε)}
    (h : AnyRun body w ⟨.run (c.bind g), st⟩ es w' u) :
    (∃ t, AnyRun body w (.start c) es w' t ∧ t.outcome? = none ∧ Hosts g st t u) ∨
    ∃ es₁ es₂ w₁ t o, es = es₁ ++ es₂ ∧ AnyRun body w (.start c) es₁ w₁ t ∧
      t.outcome? = some o ∧ AnyRun body w₁ (o.into g st) es₂ w' u := by
  -- a guest that has just ended is left at this very moment
  have arrived : ∀ {es w' t u}, AnyRun body w (.start c) es w' t → Hosts g st t u →
      (∃ t, AnyRun body w (.start c) es w' t ∧ t.outcome? = none ∧ Hosts g st t u) ∨
      ∃ es₁ es₂ w₁ t o, es = es₁ ++ es₂ ∧ AnyRun body w (.start c) es₁ w₁ t ∧
        t.outcome? = some o ∧ AnyRun body w₁ (o.into g st) es₂ w' u := by
    intro es w' t u hrun hhosts
    cases ho : t.outcome? with
    | none => exact Or.inl ⟨t, hrun, ho, hhosts⟩
    | some o =>
        rw [hhosts.outcome ho]
        exact Or.inr ⟨es, [], w', t, o, (List.append_nil es).symm, hrun, ho, .refl⟩
  induction h with
  | refl => exact arrived .refl (.inside c)
  | @step es es' w' w'' u u' _ hstep _ ih =>
      rcases ih with ⟨t, hrun, hnone, hhosts⟩ | ⟨es₁, es₂, w₁, t, o, rfl, hrun, ho, hafter⟩
      · have hrel : Option.Rel (Moved.Hosts g st) (Thread.step body w' t)
            (Thread.step body w' u) := hhosts.step hnone
        rw [hstep] at hrel
        generalize ht : Thread.step body w' t = r at hrel
        cases hrel with
        | @some r _ hr =>
            obtain ⟨w₁, t', es₁⟩ := r
            obtain ⟨rfl, ht', rfl⟩ := hr
            exact arrived (.step hrun ht trivial) ht'
      · exact Or.inr ⟨es₁, es₂ ++ es', w₁, t, o, List.append_assoc .., hrun, ho,
          .step hafter hstep trivial⟩
  | next _ _ hc _ _ => exact hc.elim

/-- A computation that begins with a program has ended only after that program. -/
theorem Run.passed {g : Routine V P σ ε} {st : List (Frame V P σ ε)}
    (h : AnyRun body w ⟨.run (c.bind g), st⟩ es w' u) (hu : u.outcome? = some o) :
    ∃ es₁ es₂ w₁ t o₁, es = es₁ ++ es₂ ∧ AnyRun body w (.start c) es₁ w₁ t ∧
      t.outcome? = some o₁ ∧ AnyRun body w₁ (o₁.into g st) es₂ w' u := by
  rcases h.hosted with ⟨t, -, hnone, hhosts⟩ | hthrough
  · exact absurd hnone (hhosts.guest hu)
  · exact hthrough

end Runs

/-! ## What comes back -/

section Coming

variable [BEq V] {body : P → Prog V P σ ε} {w w' : World V P σ ε} {t : Thread V P σ ε}
  {es : List (Event V ε)} {text : String}

/-- Whether something that a program does on its way comes back, with what it yields, the events
meanwhile and the world that it leaves. -/
def Act.Comes {α : Type} (body : P → Prog V P σ ε) (w : World V P σ ε) (m : Act V P σ ε α) (a : α)
    (es : List (Event V ε)) (w' : World V P σ ε) : Prop :=
  ∀ k st, AnyRun body w ⟨.run (m k), st⟩ es w' ⟨.run (k a), st⟩

/-- A panic ends as a panic where nothing stops it. -/
theorem Run.unwinds {st : List (Frame V P σ ε)} (h : AnyRun body w ⟨.unwind text, st⟩ es w' t)
    (hst : ∀ fr ∈ st, ∀ k, fr ≠ .attempt k) :
    ∃ st', t = ⟨.unwind text, st'⟩ ∧ ∀ fr ∈ st', ∀ k, fr ≠ .attempt k := by
  induction h with
  | refl => exact ⟨st, rfl, hst⟩
  | step _ hstep _ ih =>
      obtain ⟨st', rfl, hst'⟩ := ih
      cases Thread.moves_iff.2 hstep with
      | caught => exact absurd rfl (hst' _ List.mem_cons_self _)
      | expelled | abandoned | passed =>
          exact ⟨_, rfl, fun fr hfr => hst' fr (List.mem_cons_of_mem _ hfr)⟩
  | next _ _ hc _ _ => exact hc.elim

/-- Whether something that is done on the way either comes back or panics, as it would anywhere
else, in every thread that does it and ends. -/
def Act.Passes {α : Type} (body : P → Prog V P σ ε) (w : World V P σ ε) (m : Act V P σ ε α) :
    Prop :=
  ∀ k st es w' u o, AnyRun body w ⟨.run (m k), st⟩ es w' u → u.outcome? = some o →
    ∃ es₁ es₂ w₁, es = es₁ ++ es₂ ∧
      ((∃ a, m.Comes body w a es₁ w₁ ∧ AnyRun body w₁ ⟨.run (k a), st⟩ es₂ w' u) ∨
        ∃ text, (∀ k st, AnyRun body w ⟨.run (m k), st⟩ es₁ w₁ ⟨.unwind text, st⟩) ∧
          AnyRun body w₁ ⟨.unwind text, st⟩ es₂ w' u)

namespace Act.Passes

variable {α β : Type}

theorem pure (a : α) : (Pure.pure a : Act V P σ ε α).Passes body w :=
  fun _ _ es _ _ _ h _ => ⟨[], es, w, rfl, Or.inl ⟨a, fun _ _ => .refl, h⟩⟩

theorem bind {m : Act V P σ ε α} {f : α → Act V P σ ε β} (h : m.Passes body w)
    (hf : ∀ a w, (f a).Passes body w) : (m >>= f).Passes body w := by
  intro k st es w' u o hrun ho
  obtain ⟨es₁, es₂, w₁, rfl, ⟨a, hm, hrest⟩ | ⟨text, hm, hrest⟩⟩ := h (f · k) st es w' u o hrun ho
  · obtain ⟨es₃, es₄, w₂, rfl, hsecond⟩ := hf a w₁ k st es₂ w' u o hrest ho
    refine ⟨es₁ ++ es₃, es₄, w₂, (List.append_assoc ..).symm, ?_⟩
    refine hsecond.imp ?_ ?_
    · rintro ⟨b, hb, hlast⟩
      exact ⟨b, fun k st => (hm (f · k) st).trans (hb k st), hlast⟩
    · rintro ⟨text, hb, hlast⟩
      exact ⟨text, fun k st => (hm (f · k) st).trans (hb k st), hlast⟩
  · exact ⟨es₁, es₂, w₁, rfl, Or.inr ⟨text, fun k st => hm (f · k) st, hrest⟩⟩

theorem atom (a : Atom V σ ε) : (Act.atom a : Act V P σ ε _).Passes body w := by
  intro k st es w' u o hrun ho
  rcases hrun.first with ⟨-, -, rfl⟩ | ⟨w₁, t₁, es₁, es₂, hstep, -, rfl, hrest⟩
  · exact nomatch ho
  · have hm : Thread.Moves body w ⟨.run (.atom a k), st⟩ es₁ w₁ t₁ := Thread.moves_iff.2 hstep
    cases hm with
    | performed ha =>
        refine ⟨es₁, es₂, w₁, rfl, Or.inl ⟨_, fun k st => ?_, hrest⟩⟩
        exact .single (Thread.Moves.performed ha).step trivial

/-- A program that is run on the way. -/
theorem act (c : Prog V P σ ε) : c.act.Passes body w := by
  intro k st es w' u o hrun ho
  obtain ⟨es₁, es₂, w₁, t, o₁, rfl, hc, ho₁, hrest⟩ := Run.passed (g := k) hrun ho
  refine ⟨es₁, es₂, w₁, rfl, ?_⟩
  cases o₁ with
  | returned v => exact Or.inl ⟨v, fun k st => hc.through ho₁ k st, hrest⟩
  | panicked text => exact Or.inr ⟨text, fun k st => hc.through ho₁ k st, hrest⟩

theorem publish (p : PublisherRef) (v : V) : (Act.publish p v).Passes body w :=
  .bind (.act (.publish p v (.ret v))) fun _ _ => .pure ()

theorem amend (p : PublisherRef) (f : Routine V P σ ε) : (Act.amend p f).Passes body w :=
  .act (.amend p f .ret)

end Act.Passes

end Coming

end ReactiveCells
