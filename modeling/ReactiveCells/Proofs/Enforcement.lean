import ReactiveCells.Enforcer
import ReactiveCells.Proofs.Attention
import ReactiveCells.Proofs.Reading

/-!
# Enforcement — what enforcers leave behind

An enforcer corrects a value only when the value is delivered to it, and by then others may have
written values of their own. Yet whenever the queue runs empty every enforcer accepts the value
held: as long as it does not, a change is queued, or the enforcer is to be called with the value
held, or it is just about to write its correction (`View.Enforced`).

The facade in front of the node applies the invariant to whatever it shows, so with an idempotent
invariant it never shows anything but fixed points, at any time.

Main statement: `enforcers_settle`.
-/

namespace ReactiveCells

variable {V P σ ε : Type} [BEq V]

/-- The reaction of an enforcer whose invariant only computes. -/
def corrector (p : PublisherRef) (f : V → V) : Routine V P σ ε := fun v =>
  if f v != v then .atom (.report .correcting) fun _ => .publish p (f v) (.ret v) else .ret v

/-- An enforcer of a box reacts as a corrector. -/
theorem correct_eq {p : PublisherRef} {b : Node (Routine V P σ ε) .reactive} (hb : b.IsBox p)
    (f : V → V) :
    (fun v => (Enforcer.correct b (Node.pureRoutine f) v).thenRet v) =
      (corrector p f : Routine V P σ ε) := by
  ext v
  show (if f v != v then Act.report .correcting >>= fun _ => b.set (f v) else pure ()).thenRet v =
    corrector p f v
  unfold corrector
  by_cases hv : (f v != v) = true
  · rw [if_pos hv, if_pos hv, hb.set_eq]
    rfl
  · rw [if_neg hv, if_neg hv]
    rfl

/-- Attaching an enforcer to a box registers a corrector. -/
theorem enforce_eq {p : PublisherRef} {b : Node (Routine V P σ ε) .reactive} (hb : b.IsBox p)
    (f : V → V) (k : SubscriptionRef → Prog V P σ ε) :
    Enforcer.enforce b (Node.pureRoutine f) k =
      .attach p b.publishers (corrector p f) fun s => .atom (.report .enforcerAttached) fun _ =>
        k s := by
  show b.subscribe b.publishers _ _ = _
  rw [hb.subscribe_eq, ← correct_eq hb]
  rfl

/-! ## Corrections under way -/

namespace View

variable {p : PublisherRef} {f : V → V} {x : View V P σ ε}

/-- Whether an enforcer, called with the value held, is about to write its correction. -/
inductive Correcting (p : PublisherRef) (f : V → V) (x : View V P σ ε) : Prop where
  | noticed : x.due ≠ [] → x.focus = .run (.atom (.report .correcting) fun _ =>
      .publish p (f x.state.current) (.ret x.state.current)) → Correcting p f x
  | writing : x.due ≠ [] →
      x.focus = .run (.publish p (f x.state.current) (.ret x.state.current)) → Correcting p f x

/-- The enforcer that is called with the value held accepts it or goes on to correct it. -/
theorem correcting_of_called [LawfulBEq V] (hd : x.due ≠ [])
    (hf : x.focus = .run (corrector p f x.state.current)) :
    f x.state.current = x.state.current ∨ Correcting p f x := by
  by_cases hacc : f x.state.current = x.state.current
  · exact Or.inl hacc
  · refine Or.inr (.noticed hd ?_)
    rw [hf, corrector, if_pos (bne_iff_ne.2 hacc)]

omit [BEq V] in
theorem Correcting.due_ne_nil (h : Correcting p f x) : x.due ≠ [] := by
  cases h with
  | noticed hd => exact hd
  | writing hd => exact hd

end View

section Runs

variable {body : P → Prog V P σ ε} {starts : Prog V P σ ε → Prop} {w₀ w w' : World V P σ ε}
  {t₀ t t' : Thread V P σ ε} {es : List (Event V ε)} {p : PublisherRef} {guard : Option LockId}
  {c₀ : V} {f : V → V} {s s' : Publisher V (Observer V P σ ε)}

/-- Whether the value held suits an enforcer or is seen to. -/
def View.Enforced (p : PublisherRef) (f : V → V) (x : View V P σ ε) : Prop :=
  x.Attended (fun v => f v = v) (corrector p f) ∨ x.Correcting p f

/-- Nothing comes between an enforcer and its correction. -/
theorem View.Correcting.move [LawfulBEq V] (h : Correcting p f (t.view p s))
    (hm : Thread.Moves body w t es w' t') (hp : w.publisher? p = some s)
    (hp' : w'.publisher? p = some s') : Enforced p f (t'.view p s') := by
  obtain ⟨focus, st⟩ := t
  cases h with
  | noticed hd hf =>
      obtain rfl : focus = .run (.atom (.report .correcting) fun _ =>
        .publish p (f s.current) (.ret s.current)) := hf
      cases hm with
      | performed ha =>
          cases ha
          obtain rfl := Option.some.inj (hp.symm.trans hp')
          exact Or.inr (.writing hd rfl)
  | writing hd hf =>
      obtain rfl : focus = .run (.publish p (f s.current) (.ret s.current)) := hf
      obtain ⟨s'', hs'', hcur, hwritten, -, -⟩ := hm.publish hp
      obtain rfl := Option.some.inj (hs''.symm.trans hp')
      rcases hwritten with rfl | hqueued
      · -- the correction is the value held
        exact Or.inl (.accepted hcur.symm)
      · exact Or.inl (.queued hqueued)

/-- As long as nothing panics, a value held that an enforcer rejects is seen to. -/
theorem Born.enforced [LawfulBEq V] (h₀ : Born body p guard c₀ w₀ t₀)
    (h : Run body starts Thread.Calm w₀ t₀ es w t) (f : V → V) :
    ∃ s, Regular p s w t ∧
      (View.Watched (corrector p f) (t.view p s) → View.Enforced p f (t.view p s)) := by
  refine h₀.life (fun _ s _ t => View.Watched (corrector p f) (t.view p s) →
      View.Enforced p f (t.view p s)) h ?_ ?_ ?_
  · rintro - ⟨r, hr, -⟩
    exact nomatch hr
  · intro es s w t es' s' w' t' hinv hreg hm hv hreg' hcalm hw
    by_cases hcorr : View.Correcting p f (t.view p s)
    · exact hcorr.move hm hreg.found hreg'.found
    · have hatt := fun hw => (hinv hw).resolve_right hcorr
      rcases View.Attended.move hatt hv hreg.orderly hreg.sound.fresh hcalm hw with
        hatt' | ⟨hd, hf⟩
      · exact Or.inl hatt'
      · rcases View.correcting_of_called hd hf with hacc | hcorr'
        · exact Or.inl (.accepted hacc)
        · exact Or.inr hcorr'
  · intro es s w t c hinv hset hw
    rcases hinv hw with hatt | hcorr
    · refine Or.inl (hatt.same rfl rfl ?_)
      intro c hc
      rw [View.calls_of_settled hset] at hc
      exact nomatch hc
    · exact absurd hset.due hcorr.due_ne_nil

/-- An enforcer that is called accepts the value held whenever no drain is in progress. -/
theorem Born.accepted [LawfulBEq V] (h₀ : Born body p guard c₀ w₀ t₀)
    (h : Run body starts Thread.Calm w₀ t₀ es w t) (hset : t.Settled p)
    (hs : w.publisher? p = some s) (hw : View.Watched (corrector p f) (t.view p s)) :
    f s.current = s.current := by
  obtain ⟨s', hreg, hinv⟩ := h₀.enforced h f
  obtain rfl := Option.some.inj (hs.symm.trans hreg.found)
  rcases hinv hw with hatt | hcorr
  · exact hatt.settled hreg.orderly hset
  · exact absurd hset.due hcorr.due_ne_nil

/-- What happened in a run in which somebody attached an enforcer to a box and nobody has detached
it since. -/
inductive Enforcing (body : P → Prog V P σ ε) (starts : Prog V P σ ε → Prop) (p : PublisherRef)
    (f : V → V) (w₀ : World V P σ ε) (t₀ : Thread V P σ ε) :
    List (Event V ε) → World V P σ ε → Thread V P σ ε → Prop where
  | since {es es' : List (Event V ε)} {w w' : World V P σ ε} {t' : Thread V P σ ε}
      {b : Node (Routine V P σ ε) .reactive} {k : SubscriptionRef → Prog V P σ ε}
      {st : List (Frame V P σ ε)} {s : Publisher V (Observer V P σ ε)} :
      b.IsBox p →
      Run body starts Thread.Calm w₀ t₀ es w
        ⟨.run (Enforcer.enforce b (Node.pureRoutine f) k), st⟩ →
      w.publisher? p = some s →
      Run body starts Thread.Calm w ⟨.run (Enforcer.enforce b (Node.pureRoutine f) k), st⟩ es' w'
        t' →
      .queued s.nextId ∈ signals p es' → .detached s.nextId ∉ signals p es' →
      Enforcing body starts p f w₀ t₀ (es ++ es') w' t'

/-- An enforcer that was attached and not detached is registered or queued. -/
theorem Enforcing.registered (h₀ : Born body p guard c₀ w₀ t₀)
    (h : Enforcing body starts p f w₀ t₀ es w t) :
    Run body starts Thread.Calm w₀ t₀ es w t ∧
      ∃ s, Regular p s w t ∧ ∃ r ∈ s.registrations, r.observer.react = corrector p f := by
  obtain @⟨es, es', w₁, w, t, b, k, st, s₁, hb, hbefore, hs₁, hafter, hqueued, hdet⟩ := h
  refine ⟨hbefore.trans hafter, ?_⟩
  obtain ⟨s₁', hreg₁⟩ := h₀.found hbefore
  obtain rfl := Option.some.inj (hs₁.symm.trans hreg₁.found)
  rw [enforce_eq hb] at hafter hreg₁
  -- from the first move on the registration is there
  have main : (es' = [] ∧ w = w₁ ∧ t = ⟨.run (.attach p b.publishers (corrector p f) fun s =>
      .atom (.report .enforcerAttached) fun _ => k s), st⟩) ∨ ∃ s, Regular p s w t ∧
        ∃ r ∈ s.registrations, r.id = s₁.nextId ∧ r.observer.react = corrector p f := by
    clear hqueued
    induction hafter with
    | refl => exact Or.inl ⟨rfl, rfl, rfl⟩
    | @step es₁ es₂ w w' t t' hrun hstep hcalm ih =>
        right
        have hm := Thread.moves_iff.2 hstep
        rw [signals_append] at hdet
        have hdet₁ := fun hmem => hdet (List.mem_append_left _ hmem)
        rcases ih hdet₁ with ⟨rfl, rfl, rfl⟩ | ⟨s, hreg, r, hr, hid, hreact⟩
        · obtain ⟨s', hreg', -⟩ := hreg₁.move hm hcalm
          refine ⟨s', hreg', ⟨s₁.nextId, ⟨corrector p f, b.publishers⟩⟩, ?_, rfl, rfl⟩
          cases hm with
          | attached hr =>
              obtain rfl := Option.some.inj (hs₁.symm.trans hr)
              have hthere := (World.publisher?_enterAll s₁.monitors).trans hs₁
              obtain rfl := Option.some.inj
                ((World.publisher?_setPublisher_self hthere).symm.trans hreg'.found)
              rw [Publisher.registrations_enqueue]
              exact List.mem_append_right _ (List.mem_singleton_self _)
        · obtain ⟨s', hreg', hv⟩ := hreg.move hm hcalm
          refine ⟨s', hreg', r, hv.registered hcalm hr ?_, hid, hreact⟩
          rw [hid]
          exact fun hmem => hdet (List.mem_append_right _ hmem)
    | @next es w t o c hrun hend _ _ ih =>
        rcases ih hdet with ⟨-, -, rfl⟩ | ⟨s, hreg, hr⟩
        · cases st <;> exact nomatch hend
        · exact Or.inr ⟨s, (hreg.next hend c).2, hr⟩
  rcases main with ⟨rfl, -⟩ | ⟨s, hreg, r, hr, -, hreact⟩
  · exact nomatch hqueued
  · exact ⟨s, hreg, r, hr, hreact⟩

end Runs

/-! ## Facades -/

/-- Whether an operation hands on nothing but good values, whatever it is done for. -/
def Act.Yields (m : Act V P σ ε V) (good : V → Prop) : Prop :=
  ∀ k k' : V → Prog V P σ ε, (∀ v, good v → k v = k' v) → m k = m k'

section Facade

variable {n : Node (Routine V P σ ε) .reactive} {f : V → V} {sub : SubscriptionRef}

omit [BEq V] in
/-- A facade reads as the invariant makes the value look. -/
theorem Node.enforced_get_yields (hf : ∀ v, f (f v) = f v) :
    ((n.enforced (pureRoutine f) sub).get : Act V P σ ε V).Yields fun v => f v = v := by
  intro k k' hk
  have hshown : (fun v => k (f v)) = fun v => k' (f v) := funext fun v => hk (f v) (hf v)
  exact congrArg n.get hshown

omit [BEq V] in
theorem Node.enforced_modify_yields (hf : ∀ v, f (f v) = f v) (g : Routine V P σ ε) :
    ((n.enforced (pureRoutine f) sub).modify g).Yields fun v => f v = v := by
  intro k k' hk
  have hshown : (fun v => k (f v)) = fun v => k' (f v) := funext fun v => hk (f v) (hf v)
  exact congrArg (n.modify _) hshown

/-- Observers of a facade that agree on the fixed points of the invariant are not told apart. -/
theorem Node.enforced_subscribe_congr (hf : ∀ v, f (f v) = f v) (keeps : List PublisherRef)
    {o o' : V → Act V P σ ε Unit} (ho : ∀ v, f v = v → o v = o' v) :
    (n.enforced (pureRoutine f) sub).subscribe keeps o =
      (n.enforced (pureRoutine f) sub).subscribe keeps o' := by
  have hconv : ∀ last, converting last (pureRoutine f) o = converting last (pureRoutine f) o' := by
    intro last
    ext v
    have hshown : ∀ o : V → Act V P σ ε Unit, converting last (pureRoutine f) o v = (do
        let seen ← Act.memo last fun seen => if seen.any (· == f v) then seen else [f v]
        if seen.any (· == f v) then return
        o (f v)) := fun _ => rfl
    rw [hshown, hshown, ho (f v) (hf v)]
  show (Act.newMemo [] >>= fun last => n.subscribing rfl keeps (converting last _ o)) =
    (Act.newMemo [] >>= fun last => n.subscribing rfl keeps (converting last _ o'))
  have hsub : (fun last => n.subscribing rfl keeps (converting last (pureRoutine f) o)) =
      fun last => n.subscribing rfl keeps (converting last (pureRoutine f) o') :=
    funext fun last => congrArg _ (hconv last)
  rw [hsub]

end Facade

section Settling

variable {body : P → Prog V P σ ε} {starts : Prog V P σ ε → Prop} {w₀ w : World V P σ ε}
  {t₀ t : Thread V P σ ε} {es : List (Event V ε)} {p : PublisherRef} {guard : Option LockId}
  {c₀ : V} {f : V → V}

/-- An enforcer that nobody has detached accepts the value held whenever no drain is in
progress. -/
theorem Enforcing.accepts [LawfulBEq V] (h₀ : Born body p guard c₀ w₀ t₀)
    (h : Enforcing body starts p f w₀ t₀ es w t) (hset : t.Settled p) :
    ∃ s, w.publisher? p = some s ∧ f s.current = s.current := by
  obtain ⟨hrun, s, hreg, r, hr, hreact⟩ := h.registered h₀
  refine ⟨s, hreg.found, h₀.accepted hrun hset hreg.found ⟨r, ?_, hreact⟩⟩
  exact Publisher.registrations_of_empty (hreg.intact.idle hset).2 ▸ hr

/-- Whenever no drain is in progress, every enforcer that nobody has detached accepts the value
held, and its facade reads like the box. So the queue cannot run empty while two enforcers have no
fixed point in common. And a facade with an idempotent invariant shows its readers, its writers and
its observers fixed points only, whatever goes on. -/
theorem enforcers_settle [LawfulBEq V] (h₀ : Born body p guard c₀ w₀ t₀) :
    (∀ f es w t, Enforcing body starts p f w₀ t₀ es w t → t.Settled p →
      ∃ s, w.publisher? p = some s ∧ f s.current = s.current ∧
        ∀ (b : Node (Routine V P σ ε) .reactive) sub, b.IsBox p →
          b.get.Reads body w s.current ∧
          (b.enforced (Node.pureRoutine f) sub).get.Reads body w s.current) ∧
    (∀ f g es w t, Enforcing body starts p f w₀ t₀ es w t →
      Enforcing body starts p g w₀ t₀ es w t → (∀ v, f v = v → g v ≠ v) → ¬ t.Settled p) ∧
    (∀ (b : Node (Routine V P σ ε) .reactive) f sub, b.IsBox p → (∀ v, f (f v) = f v) →
      (b.enforced (Node.pureRoutine f) sub).get.Yields (fun v => f v = v) ∧
      (∀ g, ((b.enforced (Node.pureRoutine f) sub).modify g).Yields fun v => f v = v) ∧
      ∀ keeps (o o' : V → Act V P σ ε Unit), (∀ v, f v = v → o v = o' v) →
        (b.enforced (Node.pureRoutine f) sub).subscribe keeps o =
          (b.enforced (Node.pureRoutine f) sub).subscribe keeps o') := by
  refine ⟨?_, ?_, ?_⟩
  · intro f es w t henf hset
    obtain ⟨s, hs, hacc⟩ := henf.accepts h₀ hset
    refine ⟨s, hs, hacc, ?_⟩
    intro b sub hb
    have hread : b.get.Reads body w s.current := hb.reads hs
    have hshown : (b.enforced (Node.pureRoutine f) sub).get.Reads body w (f s.current) :=
      hread.map f
    exact ⟨hread, hacc ▸ hshown⟩
  · intro f g es w t hf hg hdisjoint hset
    obtain ⟨s, hs, hfs⟩ := hf.accepts h₀ hset
    obtain ⟨s', hs', hgs⟩ := hg.accepts h₀ hset
    obtain rfl := Option.some.inj (hs.symm.trans hs')
    exact hdisjoint s.current hfs hgs
  · intro b f sub _ hf
    exact ⟨Node.enforced_get_yields hf, Node.enforced_modify_yields hf,
      fun keeps _ _ ho => Node.enforced_subscribe_congr hf keeps ho⟩

/-- A client that caps its value at 10, has an observer that writes 12 over 10, and writes 15. -/
def enforcing (p : PublisherRef) : Prog Nat Empty Unit Unit :=
  Enforcer.enforce (.rx p) (Node.pureRoutine (min 10)) fun _ =>
    .attach p [] (fun v => if v = 15 then .publish p 12 (.ret v) else .ret v) fun _ =>
      .publish p 15 (.ret 0)

/-- The observer's value overtakes the correction of 15, and is corrected in its turn. -/
theorem enforcers_settle_min :
    ∃ es w t s,
      CalmRun nofun (World.new ()) (.start (.atom (.newPublisher none 0) enforcing)) es w t ∧
      t.Settled ⟨0⟩ ∧ w.publisher? ⟨0⟩ = some s ∧ min 10 s.current = s.current ∧
      s.current = 10 := by
  let w₀ : World Nat Empty Unit Unit := World.new ()
  let w₁ : World Nat Empty Unit Unit := { w₀ with publishers := .alloc .empty (.new none 0) }
  have h₀ : Born nofun ⟨0⟩ none 0 w₁ ⟨.run (enforcing ⟨0⟩), []⟩ :=
    .made ⟨(), .atom (.newPublisher none 0) enforcing, [], .refl⟩ rfl
  have hrun : (Thread.advance nofun 50 w₁ ⟨.run (enforcing ⟨0⟩), []⟩).map (fun (w, t, es) =>
      (t.outcome?, (w.publisher? ⟨0⟩).map (·.current),
        decide (.queued 0 ∈ signals ⟨0⟩ es ∧ .detached 0 ∉ signals ⟨0⟩ es))) =
      some (some (.returned 0), some 10, true) := by
    decide +kernel
  obtain ⟨⟨w, t, es⟩, hadvance, hend⟩ := Option.map_eq_some_iff.1 hrun
  simp only [Prod.mk.injEq, decide_eq_true_eq] at hend
  obtain ⟨hout, hcur, hqueued, hdet⟩ := hend
  have hmake : CalmRun nofun w₀ (.start (.atom (.newPublisher none 0) enforcing)) [] w₁
      ⟨.run (enforcing ⟨0⟩), []⟩ := .single rfl trivial
  have hcalm : CalmRun nofun w₁ ⟨.run (enforcing ⟨0⟩), []⟩ es w t := .of_advance hadvance
  have hattached := Enforcing.since .rx .refl rfl hcalm hqueued hdet
  have hset : t.Settled ⟨0⟩ := Thread.settled_of_outcome hout
  obtain ⟨s, hs, hacc, -⟩ := (enforcers_settle h₀).1 _ _ _ _ hattached hset
  rw [hs] at hcur
  exact ⟨es, w, t, s, hmake.trans hcalm, hset, hs, hacc, Option.some.inj hcur⟩

end Settling

end ReactiveCells
