import ReactiveCells.Proofs.Isolation

/-!
# Closing — from an open breaker to one that mirrors its delegate

Closing a breaker writes its copy to the delegate, registers the forwarding subscription and puts
that subscription into the bag. The write and the registration both run foreign observers, and the
bag is empty until the end: a write to the breaker that is made meanwhile does not reach the
delegate, and another closing goes through all steps once more.

If no other closing begins meanwhile and nobody writes the breaker while its subscription is being
registered, then closing is atomic. While the copy is pushed the breaker is still apart. While the
subscription is being registered it is the only forwarding subscription, nobody can take it away,
and the copy has yet to hear of the value of the delegate or holds it (`Replaying`). When the
registration comes back, the two are equal.

Main statement: `closing_couples`.
-/

namespace ReactiveCells

variable {V P σ ε : Type} [BEq V]

/-- The frames of a closing that is under way. -/
inductive Breaker.Closes (b : Breaker) (d : PublisherRef) : Frame V P σ ε → Prop where
  | pushing (k : Prog V P σ ε) : Closes b d (.resume fun _ => b.attaching d k)
  | registering (id : Nat) (k : Prog V P σ ε) : Closes b d (.register d id (b.filling k))

/-- Whether a thread goes on without a panic, without beginning to close a breaker inside another
closing, and without writing to the breaker while its subscription is being registered. -/
structure Breaker.Uninterrupted (b : Breaker) (d : PublisherRef)
    (n : Node (Routine V P σ ε) .reactive) (t : Thread V P σ ε) : Prop where
  calm : t.Calm
  alone : ∀ fr ∈ t.stack, b.Closes d fr → ∀ k, t.focus ≠ .run (b.setClosed n true fun _ => k)
  unwritten : ∀ id k, .register d id (b.filling k) ∈ t.stack → ∀ v, ¬ b.Writing n v t

/-- A state in which the forwarding subscription is being registered; the frame that waits for it is
left out of the thread. -/
structure Replaying (body : P → Prog V P σ ε) (b : Breaker) (d : PublisherRef)
    (n : Node (Routine V P σ ε) .reactive) (T : Terms V P σ ε) (id : Nat)
    (s q : Publisher V (Observer V P σ ε)) (w : World V P σ ε) (t : Thread V P σ ε) : Prop where
  loose : Loose body b d n T [] w t
  copy : w.publisher? b.copy = some s
  delegate : w.publisher? d = some q
  sole : Sole d id none w t
  registered : ∃ r ∈ q.registrations, r.id = id ∧ r.observer.react = b.forward
  only : ∀ r ∈ q.registrations, r.observer.react = b.forward → r.id = id
  called : ∀ v, t.focus = .run (b.forward v) → q.changes = [] → v = q.current
  mirrored : View.Watched b.forward (t.view d q) →
    (t.view d q).Attended (s.current = ·) b.forward ∨ ∃ v, t.focus = .run (b.forward v)

/-- A closed breaker: its bag holds the subscription of the only forwarding observer of the
delegate, and it mirrors the delegate. -/
structure Shut (body : P → Prog V P σ ε) (b : Breaker) (d : PublisherRef)
    (n : Node (Routine V P σ ε) .reactive) (T : Terms V P σ ε) (s : SubscriptionRef)
    (q : Publisher V (Observer V P σ ε)) (r : Registration (Observer V P σ ε))
    (w : World V P σ ε) (t : Thread V P σ ε) : Prop where
  loose : Loose body b d n T [s] w t
  detaches : w.Detaches d r.id s.index
  delegate : w.publisher? d = some q
  registered : r ∈ q.observers
  forwards : r.observer.react = b.forward
  only : ∀ r' ∈ q.registrations, r'.observer.react = b.forward → r' = r
  mirrors : b.Mirrors d w

section Closing

variable {body : P → Prog V P σ ε} {b : Breaker} {d : PublisherRef}
  {n : Node (Routine V P σ ε) .reactive} {T : Terms V P σ ε} {w w' : World V P σ ε}
  {t t' : Thread V P σ ε} {es : List (Event V ε)} {id : Nat}
  {s q : Publisher V (Observer V P σ ε)} {rest : List (Frame V P σ ε)}

/-! ## The frame that waits -/

omit [BEq V] in
/-- What waits for a closing has no calls due. -/
theorem Breaker.Closes.calls? {fr : Frame V P σ ε} (h : b.Closes d fr) (p : PublisherRef) :
    fr.calls? p = none := by
  cases h <;> rfl

omit [BEq V] in
theorem Breaker.Closes.mem_over {fr : Frame V P σ ε} (t : Thread V P σ ε) :
    fr ∈ (t.over [fr]).stack :=
  List.mem_append_right _ (List.mem_singleton_self fr)

omit [BEq V] in
theorem Breaker.Closes.regular {fr : Frame V P σ ε} (h : b.Closes d fr)
    (hreg : Regular d q w (t.over [fr])) : Regular d q w t :=
  t.over_nil ▸ hreg.without (h.calls? d)

/-- A breaker that is apart is so with fewer frames. -/
theorem Apart.under (h : Apart body b d n T w (t.over rest)) : Apart body b d n T w t := by
  refine ⟨⟨h.loose.world, h.loose.bodies, h.loose.slot, h.loose.copy, h.loose.delegate,
    h.loose.focus, fun fr hfr => h.loose.stack fr (List.mem_append_left _ hfr)⟩,
    h.unregistered, ?_, h.silent⟩
  intro c hc
  refine h.undue c ?_
  rw [Thread.over, Thread.due_append, List.flatten_append]
  exact List.mem_append_left _ hc

/-- A breaker that is apart is so whatever client goes on. -/
theorem Apart.refocus {f : Focus V P σ ε} {st : List (Frame V P σ ε)} {c : Prog V P σ ε}
    (h : Apart body b d n T w ⟨f, st⟩) (hn : n.IsBox d)
    (hc : c.Within (b.terms n T) (w.scope b.hidden)) : Apart body b d n T w ⟨.run c, st⟩ := by
  refine ⟨⟨h.loose.world, h.loose.bodies, h.loose.slot, h.loose.copy, h.loose.delegate,
    Or.inl hc, h.loose.stack⟩, h.unregistered, h.undue, ?_⟩
  intro v hv
  rw [Focus.run.inj hv] at hc
  exact not_within_forward hn v hc

/-! ## While the subscription is being registered -/

/-- The subscription stays registered, and no other one comes. -/
theorem Replaying.registered_move (h : Replaying body b d n T id s q w t) (hn : n.IsBox d)
    (hm : Thread.Moves body w t es w' t') (hcalm : t'.Calm) {q' : Publisher V (Observer V P σ ε)}
    (hq' : w'.publisher? d = some q') :
    (∃ r ∈ q'.registrations, r.id = id ∧ r.observer.react = b.forward) ∧
      ∀ r ∈ q'.registrations, r.observer.react = b.forward → r.id = id := by
  obtain ⟨q'', hq'', hv⟩ := hm.view h.delegate
  obtain rfl := Option.some.inj (hq''.symm.trans hq')
  constructor
  · obtain ⟨r, hr, rfl, hreact⟩ := h.registered
    refine ⟨r, hv.registered hcalm hr ?_, rfl, hreact⟩
    intro hdetached
    obtain ⟨i, hi, -⟩ := hm.detaches hdetached
    exact nomatch h.sole.subscriptions i hi
  · intro r hr hreact
    rcases hm.arrives h.delegate hq' r hr with hold | ⟨-, k, hf⟩
    · exact h.only r hold hreact
    · rw [hreact] at hf
      exact absurd hf (h.loose.not_attach_forward hn q.current)

/-- The forwarding subscription is called with the value held, unless a newer one is queued. -/
theorem Replaying.called_move (h : Replaying body b d n T id s q w t) (hreg : Regular d q w t)
    (hcalls : ∀ v, t'.focus = .run (b.forward v) → Thread.Calls (b.Forwards d) t t')
    (hm : Thread.Moves body w t es w' t') {q' : Publisher V (Observer V P σ ε)}
    (hq' : w'.publisher? d = some q') {v : V} (hf : t'.focus = .run (b.forward v))
    (hnone : q'.changes = []) : v = q'.current := by
  obtain ⟨u, p, c, calls, st, rfl, ⟨rfl, hreact⟩, hf'⟩ := hcalls v hf
  cases hm with
  | called =>
      obtain rfl := Option.some.inj (h.delegate.symm.trans hq')
      have hval : v = c.value := by
        have heq : (b.forward v : Prog V P σ ε) = b.forward c.value := by
          rw [hf, hreact] at hf'
          exact Focus.run.inj hf'
        exact (Prog.publish.inj heq).2.1
      refine hval.trans (hreg.sound.fresh hnone c ?_ hreact)
      rw [View.calls, Thread.view, Thread.due_cons_deliver_self]
      exact List.mem_cons_self

/-- The copy hears of the value of the delegate. -/
theorem Replaying.mirrored_move [LawfulBEq V] (h : Replaying body b d n T id s q w t)
    (hn : n.IsBox d) (hne : d ≠ b.copy) (hreg : Regular d q w t)
    (hm : Thread.Moves body w t es w' t') (hcalm : t'.Calm) (hwrite : ∀ v, ¬ b.Writing n v t)
    {s' q' : Publisher V (Observer V P σ ε)} (hs' : w'.publisher? b.copy = some s')
    (hq' : w'.publisher? d = some q') (hw : View.Watched b.forward (t'.view d q')) :
    (t'.view d q').Attended (s'.current = ·) b.forward ∨
      ∃ v, t'.focus = .run (b.forward v) := by
  obtain ⟨q'', hq'', hv⟩ := hm.view h.delegate
  obtain rfl := Option.some.inj (hq''.symm.trans hq')
  by_cases hforward : ∃ v, t.focus = .run (b.forward v)
  · -- the copy is written with what the delegate holds, unless a newer value is queued
    obtain ⟨v, hf⟩ := hforward
    obtain ⟨f, st⟩ := t
    obtain rfl : f = .run (b.forward v) := hf
    obtain ⟨s'', hs'', hcur, -, -, helse⟩ := hm.publish h.copy
    obtain rfl := Option.some.inj (hs''.symm.trans hs')
    obtain rfl := Option.some.inj (hq'.symm.trans ((helse d hne.symm).trans h.delegate))
    by_cases hch : q''.changes = []
    · exact Or.inl (.accepted (hcur.trans (h.called v rfl hch)))
    · exact Or.inl (.queued hch)
  · -- nobody else writes the copy
    have hsame : s'.current = s.current := by
      obtain ⟨s'', hs'', hvs⟩ := hm.view h.copy
      obtain rfl := Option.some.inj (hs''.symm.trans hs')
      refine hvs.current_eq fun v hv => ?_
      cases hm.writes hv with
      | commit st => exact hwrite v (.modify st)
      | publish k st =>
          rcases h.loose.focus with hin | hamends | hforward'
          · obtain ⟨k', hk'⟩ := Prog.Within.set_of_publish hn hin
            rw [hk'] at hwrite
            exact hwrite v (.set k' st)
          · exact nomatch hamends
          · exact hforward hforward'
    rw [hsame]
    have hatt := fun hwatched => (h.mirrored hwatched).resolve_right hforward
    rcases View.Attended.move hatt hv hreg.orderly hreg.sound.fresh hcalm hw with hatt' | ⟨-, hf⟩
    · exact Or.inl hatt'
    · exact Or.inr ⟨_, hf⟩

theorem Replaying.move [LawfulBEq V] (h : Replaying body b d n T id s q w t) (hn : n.IsBox d)
    (hne : d ≠ b.copy) (hreg : Regular d q w t) (hm : Thread.Moves body w t es w' t')
    (hcalm : t'.Calm) (hopen : ∀ k, t.focus ≠ .run (b.setClosed n true fun _ => k))
    (hwrite : ∀ v, ¬ b.Writing n v t) : ∃ s' q', Replaying body b d n T id s' q' w' t' := by
  obtain ⟨hloose, hcalls⟩ := h.loose.move hn hne hm hopen
  obtain ⟨s', hs', -⟩ := hm.view h.copy
  obtain ⟨q', hq', -⟩ := hm.view h.delegate
  obtain ⟨hregistered, honly⟩ := h.registered_move hn hm hcalm hq'
  exact ⟨s', q', hloose, hs', hq', h.sole.move hm, hregistered, honly,
    fun v hf hnone => h.called_move hreg hcalls hm hq' hf hnone,
    h.mirrored_move hn hne hreg hm hcalm hwrite hs' hq'⟩

/-! ## From step to step -/

/-- Once the delegate has been written the forwarding subscription is queued. -/
theorem Apart.attach {u : V} (h : Apart body b d n T w ⟨.run (.ret u), []⟩) (hne : d ≠ b.copy)
    (hnum : Numbered w t) (hq : w.publisher? d = some q) (k : Prog V P σ ε) :
    ∃ w₂ s q₂, Thread.Moves body w ⟨.run (b.attaching d k), []⟩ [.queued d q.nextId] w₂
        (Thread.over ⟨.drain d, q.leaving⟩ [.register d q.nextId (b.filling k)]) ∧
      Replaying body b d n T q.nextId s q₂ w₂ ⟨.drain d, q.leaving⟩ := by
  let q₂ := q.enqueue ⟨b.forward, [b.copy]⟩
  let w₂ := (w.enterAll q.monitors).setPublisher d q₂
  have hm : Thread.Moves body w ⟨.run (b.attaching d k), []⟩ [.queued d q.nextId] w₂
      (Thread.over ⟨.drain d, q.leaving⟩ [.register d q.nextId (b.filling k)]) := .attached hq
  have hthere := (World.publisher?_enterAll (w := w) q.monitors).trans hq
  have hq₂ : w₂.publisher? d = some q₂ := World.publisher?_setPublisher_self hthere
  obtain ⟨s, hs⟩ := h.loose.copy
  have hs₂ : w₂.publisher? b.copy = some s :=
    (World.publisher?_setPublisher_ne hne).trans ((World.publisher?_enterAll _).trans hs)
  have hregs : q₂.registrations = q.registrations ++ [⟨q.nextId, ⟨b.forward, [b.copy]⟩⟩] :=
    Publisher.registrations_enqueue q _
  have hworld : w₂.Within (b.terms n T) (b.Forwards d) b.hidden :=
    h.loose.world.enqueue hq (Or.inr ⟨rfl, rfl⟩)
  have hloose : Loose body b d n T [] w₂ ⟨.drain d, q.leaving⟩ := by
    refine ⟨hworld, fun c => (h.loose.bodies c).mono hm.grows.scope, ?_, ⟨s, hs₂⟩, ⟨q₂, hq₂⟩,
      Or.inl trivial, ?_⟩
    · show (w.enterAll q.monitors).bags.get? _ = _
      rw [World.enterAll_eq]
      exact h.loose.slot
    · intro fr hfr
      obtain ⟨m, -, rfl⟩ := List.mem_map.1 hfr
      exact Or.inl trivial
  have hsole : Sole d q.nextId none w₂ (⟨.drain d, q.leaving⟩ : Thread V P σ ε) :=
    .enqueue hnum hq ⟨b.forward, [b.copy]⟩ fun _ => Or.inl
  have hreplaying : Replaying body b d n T q.nextId s q₂ w₂ ⟨.drain d, q.leaving⟩ := by
    refine ⟨hloose, hs₂, hq₂, hsole, ⟨_, hregs ▸ List.mem_append_right _ List.mem_cons_self, rfl,
      rfl⟩, ?_, nofun, ?_⟩
    · intro r hr hreact
      rw [hregs] at hr
      rcases List.mem_append.1 hr with hold | hnew
      · exact absurd hreact (h.unregistered q hq r hold)
      · rw [List.mem_singleton.1 hnew]
    · rintro ⟨r, hr, hreact⟩
      exact absurd hreact (h.unregistered q hq r (List.mem_append_left _ hr))
  exact ⟨w₂, s, q₂, hm, hreplaying⟩

/-- Once the registration has come back the copy and the delegate are equal. -/
theorem Replaying.mirrors {u : V} (h : Replaying body b d n T id s q w ⟨.run (.ret u), []⟩)
    (hreg : Regular d q w ⟨.run (.ret u), []⟩) :
    s.current = q.current ∧ ∃ r ∈ q.observers, r.id = id ∧ r.observer.react = b.forward ∧
      ∀ r' ∈ q.registrations, r'.observer.react = b.forward → r' = r := by
  have hset : Thread.Settled d (⟨.run (.ret u), []⟩ : Thread V P σ ε) := ⟨nofun, rfl⟩
  have hregs : q.registrations = q.observers :=
    Publisher.registrations_of_empty (hreg.intact.idle hset).2
  obtain ⟨r, hr, hid, hreact⟩ := h.registered
  rw [hregs] at hr
  refine ⟨?_, r, hr, hid, hreact, ?_⟩
  · rcases h.mirrored ⟨r, hr, hreact⟩ with hatt | ⟨v, hf⟩
    · exact hatt.settled hreg.orderly hset
    · exact nomatch hf
  · intro r' hr' hreact'
    have hsame : r'.id = r.id := (h.only r' hr' hreact').trans hid.symm
    rw [hregs] at hr'
    -- numbers are given out once
    have hnodup : (q.observers.map (·.id)).Nodup :=
      (List.nodup_append.1 (hreg.sound.lined.nodup)).1
    exact List.inj_on_of_nodup_map hnodup hr' hr hsame

/-- Then the subscription is put into the bag. -/
theorem Replaying.fill {u v : V} {w₁ : World V P σ ε}
    (h : Replaying body b d n T id s q w ⟨.run (.ret u), []⟩)
    (hreg : Regular d q w ⟨.run (.ret u), []⟩)
    (hm : Thread.Moves body w ⟨.run (.ret u), [.register d id (b.filling (.ret v))]⟩ es w₁ t) :
    ∃ es' w' s' r, CalmRun body w₁ t es' w' ⟨.run (.ret v), []⟩ ∧
      Shut body b d n T s' q r w' ⟨.run (.ret v), []⟩ := by
  obtain ⟨heq, r, hr, rfl, hreact, honly⟩ := h.mirrors hreg
  cases hm
  let s' : SubscriptionRef := ⟨w.subscriptions.size⟩
  let w₁ : World V P σ ε := (w.newSubscription (some (.detach d r.id))).2
  let w' : World V P σ ε := { w₁ with bags := w.bags.set b.coupling.index [s'] }
  have hslot₁ : w₁.bags.get? b.coupling.index = some [] := h.loose.slot
  have hfill : w₁.perform (.bag b.coupling fun _ => [s']) = some ([], w', []) :=
    World.perform_bag hslot₁ _
  have hworld₁ : w₁.Within (b.terms n T) (b.Forwards d) b.hidden :=
    h.loose.world.newSubscription nofun
  have hworld : w'.Within (b.terms n T) (b.Forwards d) b.hidden :=
    hworld₁.performBag hfill
  have hgrow : w.Grows w' := ⟨le_rfl, le_rfl, (Heap.size_set _ _ _).ge⟩
  have hfilled : CalmRun body w₁ ⟨.run (b.filling (.ret v) s'), []⟩ [] w'
      ⟨.run (.atom (.report .breakerClosed) fun _ => .ret v), []⟩ :=
    .single (Thread.Moves.performed hfill).step trivial
  have hreported : CalmRun body w' ⟨.run (.atom (.report .breakerClosed) fun _ => .ret v), []⟩
      [.message .breakerClosed] w' ⟨.run (.ret v), []⟩ :=
    .single (Thread.Moves.performed rfl).step trivial
  have hloose : Loose body b d n T [s'] w' ⟨.run (.ret v), []⟩ :=
    ⟨hworld, fun c => (h.loose.bodies c).mono hgrow.scope, Heap.get?_set_self _ _ _ _ hslot₁,
      h.loose.copy, h.loose.delegate, Or.inl (.ret v), List.forall_mem_nil _⟩
  exact ⟨_, w', s', r, hfilled.trans hreported, hloose,
    Heap.get?_alloc_self _ _, h.delegate, hr, hreact, honly, s, q, h.copy, h.delegate, heq⟩

/-- First the copy is pushed into the delegate. -/
theorem Apart.push {f : Focus V P σ ε} (h : Apart body b d n T w ⟨f, []⟩) (hn : n.IsBox d)
    (hne : d ≠ b.copy) (v : V) (k : Prog V P σ ε) :
    ∃ es w' t₁, Thread.Moves body w ⟨.run (.publish d v (b.attaching d k)), []⟩ es w'
        (t₁.over [.resume fun _ => b.attaching d k]) ∧ Apart body b d n T w' t₁ ∧ t₁.Calm := by
  -- what comes after the write does not matter to the write
  have hwrite : Apart body b d n T w ⟨.run (.publish d v (.ret v)), []⟩ :=
    h.refocus hn (.publish (h.loose.delegate_mem hne).2.1 (.ret v))
  obtain ⟨q, hq⟩ := h.loose.delegate
  cases hc : q.commit v with
  | none =>
      have hafter := hwrite.move hn hne (.publishedSame hq hc) nofun
      exact ⟨_, _, ⟨.run (.ret q.current), q.leaving⟩, .publishedSame hq hc, hafter.under, trivial⟩
  | some q' =>
      have hafter := hwrite.move hn hne (.published hq hc) nofun
      exact ⟨_, _, ⟨.drain d, q.leaving⟩, .published hq hc, hafter.under, trivial⟩

/-- How far a closing has come. -/
inductive Stage (body : P → Prog V P σ ε) (b : Breaker) (d : PublisherRef)
    (n : Node (Routine V P σ ε) .reactive) (T : Terms V P σ ε) (v : V) (w : World V P σ ε) :
    Thread V P σ ε → Prop where
  | pushing {t : Thread V P σ ε} : Apart body b d n T w t →
      Stage body b d n T v w (t.over [.resume fun _ => b.attaching d (.ret v)])
  | replaying {id : Nat} {s q : Publisher V (Observer V P σ ε)} {t : Thread V P σ ε} :
      Replaying body b d n T id s q w t →
      Stage body b d n T v w (t.over [.register d id (b.filling (.ret v))])
  | shut {s : SubscriptionRef} {q : Publisher V (Observer V P σ ε)}
      {r : Registration (Observer V P σ ε)} : Shut body b d n T s q r w ⟨.run (.ret v), []⟩ →
      Stage body b d n T v w ⟨.run (.ret v), []⟩

variable {v : V}

/-- A closing begins by pushing the copy. -/
theorem Apart.closes (h : Apart body b d n T w (.start (b.setClosed n true fun _ => .ret v)))
    (hn : n.IsBox d) (hne : d ≠ b.copy)
    (hcalm : Calmly body w (.start (b.setClosed n true fun _ => .ret v))) :
    Soon body (fun _ w t => Stage body b d n T v w t ∧ Calmly body w t) [] w
      (.start (b.setClosed n true fun _ => .ret v)) := by
  obtain ⟨s, hs⟩ := h.loose.copy
  obtain ⟨es, w', t₁, hpush, hapart, hcalm₁⟩ := h.push hn hne s.current (.ret v)
  rw [Breaker.setClosed_eq (.ret v) hn] at hcalm ⊢
  have hask := Breaker.asks body h.loose.slot (fun (ss : List SubscriptionRef) =>
    if (!ss.isEmpty) = true then .ret v else if true then b.pushing d (.ret v) else
      b.opening (.ret v)) []
  have hread : Thread.Moves body w ⟨.run (b.pushing d (.ret v)), []⟩ [] w
      ⟨.run (.publish d s.current (b.attaching d (.ret v))), []⟩ :=
    .performed (World.perform_current hs)
  have hcalm' := ((hcalm.step hask trivial).step hread trivial).step hpush hcalm₁
  exact .after hask (.after hread (.after hpush (.now ⟨.pushing hapart, hcalm'⟩)))

/-- What an uninterrupted move makes of a closing. -/
theorem Stage.move [LawfulBEq V] (h : Stage body b d n T v w t) (hn : n.IsBox d)
    (hne : d ≠ b.copy) (hcalm : Calmly body w t) (hok : b.Uninterrupted d n t)
    {es' : List (Event V ε)} (hm : Thread.Moves body w t es' w' t')
    (hok' : b.Uninterrupted d n t') :
    Soon body (fun _ w t => Stage body b d n T v w t ∧ Calmly body w t) (es ++ es') w' t' := by
  have hcalm' : Calmly body w' t' := hcalm.step hm hok'.calm
  cases h with
  | @pushing t₁ hapart =>
      have hopen := hok.alone _ (Breaker.Closes.mem_over t₁) (.pushing _)
      rcases hm.above hok.calm with ⟨t₂, rfl, hm₁⟩ | ⟨u, rfl, hm₁⟩
      · exact .now ⟨.pushing (hapart.move hn hne hm₁ hopen), hcalm'⟩
      · -- the delegate has been written
        cases hm₁
        obtain ⟨q, hq⟩ := hapart.loose.delegate
        obtain ⟨w₂, s, q₂, hattach, hreplaying⟩ :=
          hapart.attach hne hcalm.reachable.numbered hq (.ret v)
        exact .after hattach (.now ⟨.replaying hreplaying, hcalm'.step hattach trivial⟩)
  | @replaying id s q t₁ hreplaying =>
      have hregistering : b.Closes d (.register d id (b.filling (.ret v) : _ → Prog V P σ ε)) :=
        .registering id _
      have hopen := hok.alone _ (Breaker.Closes.mem_over t₁) hregistering
      have hreg := hregistering.regular (hcalm.regular hreplaying.delegate)
      rcases hm.above hok.calm with ⟨t₂, rfl, hm₁⟩ | ⟨u, rfl, hm₁⟩
      · have hwrite : ∀ u, ¬ b.Writing n u t₁ := by
          intro u hu
          refine hok.unwritten id _ (Breaker.Closes.mem_over t₁) u ?_
          cases hu with
          | set k st => exact .set k _
          | modify st => exact .modify _
        obtain ⟨s', q', hreplaying'⟩ :=
          hreplaying.move hn hne hreg hm₁ hok'.calm hopen hwrite
        exact .now ⟨.replaying hreplaying', hcalm'⟩
      · -- the subscription has been registered
        obtain ⟨es₁, w₂, s', r, hrun, hshut⟩ := hreplaying.fill hreg hm₁
        exact .of_run hrun (.now ⟨.shut hshut, hcalm'.run hrun⟩)
  | shut => exact nomatch hm.step

/-- Closing couples: an outermost closing that is not interrupted leaves the breaker closed and
equal to its delegate, with one forwarding subscription, and opening the breaker after it leaves
none. It is interrupted by another closing that begins meanwhile and by a write to the breaker while
the subscription is being registered. -/
theorem closing_couples [LawfulBEq V] (hn : n.IsBox d) (hne : d ≠ b.copy) :
    ∀ w es w' v, Calmly body w (.start (b.setClosed n true fun _ => .ret v)) →
      Apart body b d n T w (.start (b.setClosed n true fun _ => .ret v)) →
      Run body (fun _ => False) (b.Uninterrupted d n) w
        (.start (b.setClosed n true fun _ => .ret v)) es w' ⟨.run (.ret v), []⟩ →
      (∃ s q r, Shut body b d n T s q r w' ⟨.run (.ret v), []⟩) ∧
      ∀ u, ∃ es' w'', CalmRun body w' (.start (b.setClosed n false fun _ => .ret u)) es' w''
          ⟨.run (.ret u), []⟩ ∧ Apart body b d n T w'' ⟨.run (.ret u), []⟩ := by
  intro w es w' v hcalm hapart hrun
  have hok₀ : b.Uninterrupted d n (.start (b.setClosed n true fun _ => .ret v)) :=
    ⟨trivial, nofun, nofun⟩
  obtain ⟨hsoon, -⟩ := Soon.run (hapart.closes hn hne hcalm) hok₀ hrun
    fun es w t es' w' t' h hok hm hok' => h.1.move hn hne h.2 hok hm hok'
  have hend := (hsoon.ended rfl).1
  obtain ⟨s, q, r, hshut⟩ : ∃ s q r, Shut body b d n T s q r w' ⟨.run (.ret v), []⟩ := by
    generalize ht : (⟨.run (.ret v), []⟩ : Thread V P σ ε) = t at hend
    cases hend with
    | pushing | replaying =>
        exact absurd (congrArg Thread.stack ht).symm (List.append_ne_nil_of_right_ne_nil _ nofun)
    | shut h => exact ⟨_, _, _, h⟩
  refine ⟨⟨s, q, r, hshut⟩, fun u => ?_⟩
  have hloose : Loose body b d n T [s] w' ⟨.run (b.setClosed n false fun _ => .ret u), []⟩ := by
    obtain ⟨hworld, hbodies, hslot, hcopy, hdelegate, -, -⟩ := hshut.loose
    refine ⟨hworld, hbodies, hslot, hcopy, hdelegate, Or.inl ?_, nofun⟩
    refine .special (.setClosed false (.ret u)) ?_
    rintro k rfl
    exact .ret u
  refine hloose.opens hn (.ret u) hshut.detaches ?_ nofun
  intro q' hq' r' hr' hreact
  obtain rfl := Option.some.inj (hshut.delegate.symm.trans hq')
  rw [hshut.only r' hr' hreact]

/-! ## Checks -/

omit [BEq V] in
/-- Whether a thread evidently does not write to a breaker: whoever sets one goes on by asking. -/
def Thread.evidentlyUnwritten (b : Breaker) : Thread V P σ ε → Bool
  | ⟨.run (.publish p _ (.atom _ _)), _⟩ => p != b.copy
  | ⟨.run (.ret _), .commit p :: _⟩ => p != b.copy
  | _ => true

theorem Thread.uninterrupted_of_evidently (hn : n.IsBox d)
    (h : (t.evidentlyOpen && t.evidentlyUnwritten b) = true) : b.Uninterrupted d n t := by
  obtain ⟨hopen, hunwritten⟩ := Bool.and_eq_true_iff.1 h
  obtain ⟨hcalm, hleft⟩ := Thread.leftOpen_of_evidentlyOpen (b := b) hn hopen
  refine ⟨hcalm, fun _ _ _ k => hleft k, fun _ _ _ v hv => ?_⟩
  cases hv with
  | set k st =>
      rw [Breaker.set_eq hn] at hunwritten
      exact absurd hunwritten (by simp [Thread.evidentlyUnwritten, Breaker.pass])
  | modify st => exact absurd hunwritten (by simp [Thread.evidentlyUnwritten])

end Closing

/-! ## A box and a breaker -/

/-- An observer that writes 2 to the box when it holds 1. -/
def lifting : Routine Nat Empty Unit Unit := fun v =>
  if v = 1 then (Node.rx ⟨0⟩).set 2 fun _ => .ret v else .ret v

/-- A client that puts an open breaker in front of a box, subscribes to the box and closes the
breaker. -/
def fastening : Prog Nat Empty Unit Unit :=
  .atom (.newPublisher none 0) fun d => Breaker.createOpen 1 fun b =>
    .attach d [] lifting fun _ => b.setClosed (.rx d) true fun _ => .ret 0

/-- The breaker of `fastening` holds 1 and the box 0. The observer makes 2 of the 1 that is pushed,
and 2 is what both hold in the end. -/
theorem closing_couples_fuse :
    ∃ w es w' s q r es' w'',
      Calmly nofun w (.start (fuse.setClosed (.rx ⟨0⟩) true fun _ => .ret 0)) ∧
      Apart nofun fuse ⟨0⟩ (.rx ⟨0⟩) .storeless w
        (.start (fuse.setClosed (.rx ⟨0⟩) true fun _ => .ret 0)) ∧
      Run nofun (fun _ => False) (fuse.Uninterrupted ⟨0⟩ (.rx ⟨0⟩)) w
        (.start (fuse.setClosed (.rx ⟨0⟩) true fun _ => .ret 0)) es w' ⟨.run (.ret 0), []⟩ ∧
      Shut nofun fuse ⟨0⟩ (.rx ⟨0⟩) .storeless s q r w' ⟨.run (.ret 0), []⟩ ∧ q.current = 2 ∧
      CalmRun nofun w' (.start (fuse.setClosed (.rx ⟨0⟩) false fun _ => .ret 5)) es' w''
        ⟨.run (.ret 5), []⟩ ∧
      Apart (σ := Unit) (ε := Unit) (nofun : Empty → _) fuse ⟨0⟩ (.rx ⟨0⟩) .storeless w''
        ⟨.run (.ret 5), []⟩ := by
  let box : Publisher Nat (Observer Nat Empty Unit Unit) :=
    ⟨none, 0, 0, [⟨0, lifting, []⟩], [], false, 1⟩
  obtain ⟨w, es₀, es, w', hmade, hpubs, hslot, hsubs, hclosed, hbox⟩ :
      ∃ (w : World Nat Empty Unit Unit) (es₀ es : List (Event Nat Unit))
        (w' : World Nat Empty Unit Unit),
      Thread.advance nofun 10 (World.new ()) (.start fastening) =
        some (w, .start (fuse.setClosed (.rx ⟨0⟩) true fun _ => .ret 0), es₀) ∧
      w.publishers = ⟨[box, .new none 1]⟩ ∧ w.bags.get? 0 = some [] ∧
      w.subscriptions = ⟨[some (.detach ⟨0⟩ 0)]⟩ ∧
      Thread.proceed nofun (fun t => t.evidentlyOpen && t.evidentlyUnwritten fuse) 29 w
          (.start (fuse.setClosed (.rx ⟨0⟩) true fun _ => .ret 0)) =
        some (w', ⟨.run (.ret 0), []⟩, es) ∧
      (w'.publisher? ⟨0⟩).map (·.current) = some 2 :=
    ⟨_, _, _, _, rfl, rfl, rfl, rfl, rfl, rfl⟩
  have hcalm : Calmly nofun w (.start (fuse.setClosed (.rx ⟨0⟩) true fun _ => .ret 0)) :=
    ⟨(), fastening, es₀, .of_advance hmade⟩
  have hlifting : ∀ v, (lifting v).Within (fuse.terms (.rx ⟨0⟩) .storeless)
      (w.scope fuse.hidden) := by
    intro v
    unfold lifting
    by_cases hv : v = 1
    · rw [if_pos hv]
      refine .publish ⟨?_, ?_⟩ (.ret v)
      · show 0 < w.publishers.size
        rw [hpubs]
        exact Nat.two_pos
      · rintro (h | h | h) <;> exact nomatch h
    · rw [if_neg hv]
      exact .ret v
  have hapart : Apart nofun fuse ⟨0⟩ (.rx ⟨0⟩) .storeless w
      (.start (fuse.setClosed (.rx ⟨0⟩) true fun _ => .ret 0)) := by
    refine ⟨fuse_loose hpubs hslot ?_ rfl ?_ (.special (.setClosed true (.ret 0)) ?_), ?_, nofun,
      ?_⟩
    · intro r hr
      obtain rfl := List.mem_singleton.1 hr
      exact Or.inl hlifting
    · intro i c hc
      rw [hsubs] at hc
      match i with
      | 0 | i + 1 => exact nomatch hc
    · rintro k rfl
      exact .ret 0
    · intro q hq r hr hreact
      obtain rfl := Option.some.inj ((congrArg (Heap.get? · 0) hpubs).symm.trans hq)
      obtain rfl := List.mem_singleton.1 hr
      have h2 : (lifting 2 : Prog Nat Empty Unit Unit) = fuse.forward 2 :=
        congrArg (fun g => g 2) hreact
      exact nomatch h2
    · intro v hv
      exact nomatch hv
  have hrun : Run nofun (fun _ => False) (fuse.Uninterrupted ⟨0⟩ (.rx ⟨0⟩)) w
      (.start (fuse.setClosed (.rx ⟨0⟩) true fun _ => .ret 0)) es w' ⟨.run (.ret 0), []⟩ :=
    .of_proceed (fun t ht => Thread.uninterrupted_of_evidently .rx ht) hclosed
  obtain ⟨⟨s, q, r, hshut⟩, hopens⟩ :=
    closing_couples (b := fuse) (n := Node.rx ⟨0⟩) (d := ⟨0⟩) .rx (show ⟨0⟩ ≠ fuse.copy from nofun)
      w es w' 0 hcalm hapart hrun
  obtain ⟨es', w'', hopen, hapart'⟩ := hopens 5
  have hcur : q.current = 2 := by
    rw [hshut.delegate] at hbox
    exact Option.some.inj hbox
  exact ⟨w, es, w', s, q, r, es', w'', hcalm, hapart, hrun, hshut, hcur, hopen, hapart'⟩

end ReactiveCells
