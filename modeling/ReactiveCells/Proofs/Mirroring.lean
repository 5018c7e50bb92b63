import ReactiveCells.Proofs.Client
import ReactiveCells.Proofs.Confluence

/-!
# Mirroring — a closed breaker and its delegate

The copy of a closed breaker and its delegate feed each other: a write to the breaker reaches the
copy first and the delegate later, and every change of the delegate is forwarded into the copy when
the queue of the delegate comes to it. In the middle of all that the two differ, but never without
a reason (`View.Attended`, `Thread.Copying`): a change of the delegate is queued, or the forwarding
subscription is to be called, or is about to write the copy, or what was written to the copy has yet
to be written to the delegate. At the end no reason is left.

The reasons hold because the forwarding subscription is registered. A breaker that calls itself
closed while it is not, because a panic gave up the queue in which the subscription waited, follows
its delegate no more.

Main statement: `closed_breaker_mirrors`.
-/

namespace ReactiveCells

variable {V P σ ε : Type}

/-- Whether a breaker shows what its delegate shows. -/
def Breaker.Mirrors (b : Breaker) (d : PublisherRef) (w : World V P σ ε) : Prop :=
  ∃ s q, w.publisher? b.copy = some s ∧ w.publisher? d = some q ∧ s.current = q.current

section Forwarding

variable {b : Breaker} {d : PublisherRef}

/-- A client writes to the copy only through the breaker. -/
theorem Client.of_publish_copy {v : V} {c : Prog V P σ ε}
    (h : Client b d (.publish b.copy v c)) : ∃ k, c = b.pass d v k := by
  generalize hc : (.publish b.copy v c : Prog V P σ ε) = c' at h
  cases h with
  | publish hne => cases hc; exact absurd rfl hne
  | @set u k => cases hc; exact ⟨k, rfl⟩
  | ret | panic | atom | ask | call | attempt | hold | retry | amend | attach | onDispose
  | dispose => exact nomatch hc

/-- The forwarding subscription is no client. -/
theorem not_client_forward (v : V) : ¬ Client b d (b.forward v : Prog V P σ ε) := by
  intro h
  obtain ⟨k, hk⟩ := h.of_publish_copy
  exact nomatch hk

/-- What arrives is no forwarding subscription. -/
theorem World.Tame.mem_observers {w : World V P σ ε} (h : w.Tame b d)
    {s : Publisher V (Observer V P σ ε)}
    (hd : w.publisher? d = some s) {r : Registration (Observer V P σ ε)}
    (hr : r ∈ s.registrations) (hreact : r.observer.react = b.forward) : r ∈ s.observers := by
  rcases List.mem_append.1 hr with hobs | harr
  · exact hobs
  · have hclient := h.arrivals d s hd r harr s.current
    rw [hreact] at hclient
    exact absurd hclient (not_client_forward s.current)

end Forwarding

/-! ## What the delegate has in store for the copy -/

namespace View

variable [BEq V] {b : Breaker} {p : PublisherRef} {x x' : View V P σ ε}
  {l : List (Signal V)}

/-- The forwarding subscription is to be called with the value held, unless a newer one is
queued. -/
structure UpToDate (b : Breaker) (x : View V P σ ε) : Prop where
  latest : ∀ v, x.state.changes.getLast? = some v → v = x.state.current
  fresh : Fresh b.forward x

omit [BEq V] in
theorem UpToDate.same (h : UpToDate b x) (hcur : x'.state.current = x.state.current)
    (hch : x'.state.changes = x.state.changes) (hcalls : ∀ c ∈ x'.calls, c ∈ x.calls) :
    UpToDate b x' := by
  constructor
  · intro v hv
    rw [hch] at hv
    exact (h.latest v hv).trans hcur.symm
  · intro hnone c hc hreact
    rw [hch] at hnone
    exact (h.fresh hnone c (hcalls c hc) hreact).trans hcur.symm

omit [BEq V] in
/-- Taking an entry hands out the value held, unless a newer one is queued behind it. -/
theorem UpToDate.pop {s s' : Publisher V (Observer V P σ ε)} {d : Delivery V (Observer V P σ ε)}
    {due : List (List (Call V (Observer V P σ ε)))} {f : Focus V P σ ε}
    (h : UpToDate b ⟨s, [] :: due, f⟩) (ho : Orderly p ⟨s, [] :: due, f⟩)
    (hp : s.pop = some (d, s')) (harr : ∀ r ∈ s.arrivals, r.observer.react ≠ b.forward) :
    UpToDate b ⟨s', d.calls :: due, f⟩ := by
  obtain ⟨-, rfl⟩ := ho.only rfl
  rcases Publisher.pop_cases hp with ⟨v, rest, hq, rfl, rfl⟩ | ⟨r, rest, hq, rfl, rfl⟩
  · -- a change that nothing is queued behind is the latest one, so it is the value held
    have hch := Publisher.changes_of_emit hq
    have hlatest : ∀ u, (v :: Pending.values rest).getLast? = some u → u = s.current :=
      hch ▸ h.latest
    constructor
    · intro u hu
      apply hlatest u
      rw [List.getLast?_cons, show (Pending.values rest).getLast? = some u from hu]
      rfl
    · intro hnone c hcall hreact
      have hlast : v = s.current := by
        apply hlatest v
        rw [show Pending.values rest = [] from hnone]
        rfl
      rcases List.mem_append.1 hcall with hround | hnil
      · exact (Publisher.value_of_mem_round hround).trans hlast
      · exact nomatch hnil
  · -- the only call due is for somebody who arrived, and the forwarding subscription did not
    have hch := Publisher.changes_of_attach hq
    have hmem : r ∈ s.arrivals := by
      rw [Publisher.arrivals_of_attach hq]
      exact List.mem_cons_self
    refine ⟨fun u hu => h.latest u (hch ▸ hu), ?_⟩
    intro hnone c hcall hreact
    rcases List.mem_cons.1 hcall with rfl | hnil
    · exact absurd hreact (harr r hmem)
    · exact nomatch hnil

theorem UpToDate.move (h : UpToDate b x) (ho : Orderly p x) (hm : Move p x l x')
    (hcalm : x'.focus.Calm) (harr : ∀ r ∈ x.state.arrivals, r.observer.react ≠ b.forward) :
    UpToDate b x' := by
  cases hm with
  | other | busy | finish => exact h.same rfl rfl fun _ hc => hc
  | start hb =>
      obtain ⟨-, rfl⟩ := Publisher.beginDrain_eq_some hb
      exact h.same rfl rfl fun _ hc => hc
  | @commit s s' due f v hf hc =>
      have hch := Publisher.changes_commit hc
      have hcur := (Publisher.timeline_commit hc).2
      constructor
      · intro u hu
        rw [show s'.changes = _ from hch, List.getLast?_concat] at hu
        exact (Option.some.inj hu).symm.trans hcur.symm
      · intro hnone
        exact absurd hnone (Publisher.changes_commit_ne_nil hc)
  | @enqueue s due f o hf =>
      exact h.same rfl (Publisher.changes_enqueue s o) fun _ hc => hc
  | call => exact h.same rfl rfl fun _ hc => List.mem_cons_of_mem _ hc
  | pop hp => exact h.pop ho hp harr
  | @detach s due f f' id hf hf' =>
      exact h.same rfl (Publisher.changes_detach s id) fun _ hc => hc
  | abandon => exact hcalm.elim

end View

/-! ## What has yet to be copied -/

namespace Thread

variable [BEq V] {body : P → Prog V P σ ε} {b : Breaker} {d p : PublisherRef}
  {w w' : World V P σ ε} {t t' : Thread V P σ ε} {es : List (Event V ε)} {v : V}
  {s s' q q' : Publisher V (Observer V P σ ε)}

/-- Whether a value is on its way from the copy to the delegate or from there to the copy. -/
inductive Copying (b : Breaker) (d : PublisherRef) (v u : V) (t : Thread V P σ ε) : Prop where
  /-- The forwarding subscription is about to write what the delegate holds. -/
  | forwarding : t.focus = .run (b.forward u) → Copying b d v u t
  /-- A write to the breaker has yet to come back from the copy. -/
  | waiting (k : Prog V P σ ε) : .resume (fun _ => b.pass d v k) ∈ t.stack → Copying b d v u t
  | passing (k : Prog V P σ ε) : t.focus = .run (b.pass d v k) → Copying b d v u t
  | writing (k : Prog V P σ ε) : t.focus = .run (.publish d v k) → Copying b d v u t

/-- As long as nothing panics, a frame that waits for a value gets one in the end. -/
theorem Moves.resume_mem (hm : Moves body w t es w' t') (hcalm : t'.Calm)
    {k : V → Prog V P σ ε} (hk : .resume k ∈ t.stack) :
    .resume k ∈ t'.stack ∨ ∃ v, t'.focus = .run (k v) := by
  cases hm with
  | resumed =>
      rcases List.mem_cons.1 hk with heq | htail
      · cases heq
        exact Or.inr ⟨_, rfl⟩
      · exact Or.inl htail
  | unharmed | caught | left | drained | observed | amendedSame | amended | registered | swapped =>
      exact Or.inl ((List.mem_cons.1 hk).resolve_left nofun)
  | popped | contended =>
      exact Or.inl (List.mem_cons_of_mem _ ((List.mem_cons.1 hk).resolve_left nofun))
  | called =>
      have htail := (List.mem_cons.1 hk).resolve_left nofun
      exact Or.inl (List.mem_cons_of_mem _ (List.mem_cons_of_mem _ htail))
  | busy | performed | prepared | disposedAgain | detached => exact Or.inl hk
  | draining | entered | attempted | tornDown => exact Or.inl (List.mem_cons_of_mem _ hk)
  | held | retried => exact Or.inl (List.mem_cons_of_mem _ (List.mem_cons_of_mem _ hk))
  | publishedSame | published | attached =>
      exact Or.inl (List.mem_append_right _ (List.mem_cons_of_mem _ hk))
  | amending =>
      exact Or.inl (List.mem_cons_of_mem _ (List.mem_append_right _ (List.mem_cons_of_mem _ hk)))
  | expelled | abandoned | passed | panicked => exact hcalm.elim

/-- Only clients and the forwarding subscription write to the copy. -/
theorem Moves.copy_eq (hm : Moves body w t es w' t') (ht : t.Tame b d)
    (hs : w.publisher? b.copy = some s) (hs' : w'.publisher? b.copy = some s') :
    s'.current = s.current ∨ ∃ v k, t.focus = .run (.publish b.copy v k) := by
  obtain ⟨s'', hs'', hv⟩ := hm.view hs
  obtain rfl := Option.some.inj (hs''.symm.trans hs')
  have quiet : (∀ v, .committed v ∉ signals b.copy es) → s''.current = s.current := hv.current_eq
  cases hm with
  | @published q v k r r' st hr hc =>
      by_cases hq : q = b.copy
      · subst hq
        exact Or.inr ⟨v, k, rfl⟩
      · exact Or.inl (quiet (by simp [hq]))
  | @amended v q r r' st hr hc =>
      have hq : q ≠ b.copy := ht.stack _ List.mem_cons_self
      exact Or.inl (quiet (by simp [hq]))
  | performed ha =>
      exact Or.inl (quiet (by rw [signals_perform b.copy ha]; exact fun _ => List.not_mem_nil))
  | popped =>
      exact Or.inl (quiet (by rw [signals_report]; exact fun _ => List.not_mem_nil))
  | called | attached | detached =>
      refine Or.inl (quiet fun v hv => ?_)
      grind [signals, Event.signal?]
  | resumed | unharmed | left | drained | observed | amendedSame | registered | swapped
  | contended | caught | expelled | abandoned | passed | busy | draining | panicked | entered
  | attempted | held | retried | publishedSame | amending | prepared | disposedAgain | tornDown =>
      exact Or.inl (quiet fun v => List.not_mem_nil)

/-- What is on its way arrives, as long as the copy is not written. -/
theorem Copying.move [LawfulBEq V] (h : Copying b d v q.current t) (hm : Moves body w t es w' t')
    (hcalm : t'.Calm) (hw : w.Tame b d) (hne : d ≠ b.copy) (hs : w.publisher? b.copy = some s)
    (hs' : w'.publisher? b.copy = some s') (hsame : s'.current = v)
    (hq : w.publisher? d = some q) (hq' : w'.publisher? d = some q') :
    v = q'.current ∨ Copying b d v q'.current t' := by
  obtain ⟨f, st⟩ := t
  cases h with
  | forwarding hf =>
      obtain rfl : f = .run (b.forward q.current) := hf
      obtain ⟨s'', hs'', hcur, -, -, helse⟩ := hm.publish hs
      obtain rfl := Option.some.inj (hs''.symm.trans hs')
      obtain rfl := Option.some.inj (hq'.symm.trans ((helse d hne.symm).trans hq))
      exact Or.inl (hsame.symm.trans hcur)
  | waiting k hk =>
      rcases hm.resume_mem hcalm hk with hstill | ⟨u, hf⟩
      · exact Or.inr (.waiting k hstill)
      · exact Or.inr (.passing k hf)
  | passing k hf =>
      obtain rfl : f = .run (b.pass d v k) := hf
      -- the breaker is closed, so the write goes on to the delegate
      cases hm with
      | performed ha =>
          obtain ⟨ss, hss, hask⟩ := Option.map_eq_some_iff.1 ha
          obtain ⟨ss', hss', hnonempty⟩ := hw.closed
          obtain rfl := Option.some.inj (hss.symm.trans hss')
          cases hask
          refine Or.inr (.writing k ?_)
          exact congrArg Focus.run (if_pos (Breaker.coupled_of_ne_nil hnonempty))
  | writing k hf =>
      obtain rfl : f = .run (.publish d v k) := hf
      obtain ⟨q'', hq'', hcur, -, -, -⟩ := hm.publish hq
      obtain rfl := Option.some.inj (hq''.symm.trans hq')
      exact Or.inl hcur.symm

end Thread

/-! ## Runs of clients -/

section Coupling

variable [BEq V] {body : P → Prog V P σ ε} {b : Breaker} {d : PublisherRef}
  {w w' : World V P σ ε} {t t' : Thread V P σ ε} {es : List (Event V ε)}
  {r : Registration (Observer V P σ ε)} {s s' q q' : Publisher V (Observer V P σ ε)}

/-- A closed breaker in the middle of a run of clients, with its forwarding subscription, the copy
and the delegate. -/
structure Coupled (b : Breaker) (d : PublisherRef) (r : Registration (Observer V P σ ε))
    (s q : Publisher V (Observer V P σ ε)) (w : World V P σ ε) (t : Thread V P σ ε) : Prop where
  copy : w.publisher? b.copy = some s
  delegate : Intact d q w t
  world : w.Tame b d
  thread : t.Tame b d
  registered : r ∈ q.observers
  upToDate : View.UpToDate b (t.view d q)
  called : ∀ v, t.focus = .run (b.forward v) → q.changes = [] → v = q.current
  mirrored : (t.view d q).Attended (s.current = ·) b.forward ∨ t.Copying b d s.current q.current

omit [BEq V] in
/-- A breaker whose copy and delegate are equal when a client starts. -/
theorem coupled_start {c : Prog V P σ ε} (hs : w.publisher? b.copy = some s)
    (hq : Intact d q w (.start c)) (hw : w.Tame b d) (hc : Client b d c) (hr : r ∈ q.observers)
    (heq : s.current = q.current) : Coupled b d r s q w (.start c) := by
  have hset := Thread.settled_start d c
  have hnone := Publisher.changes_of_empty (hq.idle hset).2
  refine ⟨hs, hq, hw, ⟨Or.inl hc, nofun⟩, hr, ⟨?_, ?_⟩, ?_, Or.inl (.accepted heq)⟩
  · intro v hv
    rw [show (Thread.view d q (.start c)).state.changes = [] from hnone] at hv
    exact nomatch hv
  · exact fun _ => nofun
  · intro v hv
    rw [Focus.run.inj hv] at hc
    exact absurd hc (not_client_forward v)

/-- The forwarding subscription is called with the value held, unless a newer one is queued. -/
theorem Coupled.called_move (h : Coupled b d r s q w t) (hm : Thread.Moves body w t es w' t')
    (hbody : ∀ c, Client b d (body c)) (hne : d ≠ b.copy) (hq' : w'.publisher? d = some q')
    {v : V} (hf : t'.focus = .run (b.forward v)) (hnone : q'.changes = []) : v = q'.current := by
  -- the forwarding subscription is in focus only if it was called just now
  obtain ⟨-, -, htame | ⟨u, c, calls, st, rfl, hforward, hf'⟩⟩ :=
    hm.tame hbody hne h.world h.thread
  · rw [hf] at htame
    exact absurd htame (not_client_forward v)
  · cases hm with
    | called =>
        obtain rfl := Option.some.inj (hq'.symm.trans h.delegate.found)
        have hval : v = c.value := by
          have heq : (b.forward v : Prog V P σ ε) = b.forward c.value :=
            Focus.run.inj (hf.symm.trans hf')
          exact (Prog.publish.inj heq).2.1
        have hdue :
            c ∈ (Thread.view d q' ⟨.run (.ret u), .deliver d (c :: calls) :: st⟩).calls := by
          rw [View.calls, Thread.view, Thread.due_cons_deliver_self]
          exact List.mem_cons_self
        exact hval.trans (h.upToDate.fresh hnone c hdue hforward)

/-- A move leaves the copy equal to the delegate or a reason why it is not. -/
theorem Coupled.mirrored_move [LawfulBEq V] (h : Coupled b d r s q w t)
    (hm : Thread.Moves body w t es w' t') (hcalm : t'.Calm) (hne : d ≠ b.copy)
    (hs' : w'.publisher? b.copy = some s') (hq' : w'.publisher? d = some q')
    (hv : View.Move d (t.view d q) (signals d es) (t'.view d q'))
    (hw : View.Watched b.forward (t'.view d q')) :
    (t'.view d q').Attended (s'.current = ·) b.forward ∨
      t'.Copying b d s'.current q'.current := by
  rcases hm.copy_eq h.thread h.copy hs' with hsame | ⟨v, k, hf⟩
  · -- the copy is left alone, so what was on its way still is or arrives
    rw [hsame]
    rcases h.mirrored with hatt | hcopying
    · rcases View.Attended.move (fun _ => hatt) hv h.delegate.orderly h.upToDate.fresh hcalm hw with
        hatt' | ⟨-, hf'⟩
      · exact Or.inl hatt'
      · exact Or.inr (.forwarding hf')
    · rcases hcopying.move hm hcalm h.world hne h.copy hs' hsame h.delegate.found hq' with
        heq | hcopying'
      · exact Or.inl (.accepted heq)
      · exact Or.inr hcopying'
  · -- the copy is written by a client, who goes on to the delegate, or with what the delegate holds
    obtain ⟨f, st⟩ := t
    obtain rfl : f = .run (.publish b.copy v k) := hf
    obtain ⟨s'', hs'', hcur, -, hwait, helse⟩ := hm.publish h.copy
    obtain rfl := Option.some.inj (hs''.symm.trans hs')
    obtain rfl := Option.some.inj (hq'.symm.trans ((helse d hne.symm).trans h.delegate.found))
    rcases h.thread.focus with hclient | ⟨u, hforward⟩
    · obtain ⟨k', rfl⟩ := Client.of_publish_copy hclient
      exact Or.inr (.waiting k' (hcur ▸ hwait))
    · cases hforward
      by_cases hch : q'.changes = []
      · exact Or.inl (.accepted (hcur.trans (h.called v rfl hch)))
      · exact Or.inl (.queued hch)

theorem Coupled.move [LawfulBEq V] (h : Coupled b d r s q w t)
    (hm : Thread.Moves body w t es w' t') (hcalm : t'.Calm) (hbody : ∀ c, Client b d (body c))
    (hne : d ≠ b.copy) (hreact : r.observer.react = b.forward)
    (hstay : .detached r.id ∉ signals d es) : ∃ s' q', Coupled b d r s' q' w' t' := by
  obtain ⟨s', hs', -⟩ := hm.view h.copy
  obtain ⟨q', hq', hv⟩ := h.delegate.move hm
  obtain ⟨hw', hst', hfocus⟩ := hm.tame hbody hne h.world h.thread
  have htame : t'.Tame b d := by
    refine ⟨?_, hst'⟩
    rcases hfocus with htame | ⟨u, c, calls, st, -, -, hf⟩
    · exact Or.inl htame
    · exact Or.inr ⟨c.value, hf⟩
  have hup : View.UpToDate b (t'.view d q') := by
    refine h.upToDate.move h.delegate.orderly hv hcalm ?_
    intro r' hr' hforward
    have hclient := h.world.arrivals d q h.delegate.found r' hr' q.current
    rw [hforward] at hclient
    exact not_client_forward q.current hclient
  -- what is registered and does not arrive is an observer
  have hreg : r ∈ q'.registrations :=
    hv.registered hcalm (List.mem_append_left _ h.registered) hstay
  have hobs : r ∈ q'.observers := hw'.mem_observers hq'.found hreg hreact
  exact ⟨s', q', hs', hq', hw', htame, hobs, hup,
    fun _ hf hnone => h.called_move hm hbody hne hq'.found hf hnone,
    h.mirrored_move hm hcalm hne hs' hq'.found hv ⟨r, hobs, hreact⟩⟩

/-- A run of clients that does not take the forwarding subscription away keeps the coupling. -/
theorem Coupled.run [LawfulBEq V] {w₀ : World V P σ ε} {t₀ : Thread V P σ ε}
    (h : Coupled b d r s q w₀ t₀) (hrun : CalmRun body w₀ t₀ es w t)
    (hbody : ∀ c, Client b d (body c)) (hne : d ≠ b.copy) (hreact : r.observer.react = b.forward)
    (hstay : .detached r.id ∉ signals d es) : ∃ s' q', Coupled b d r s' q' w t := by
  induction hrun with
  | refl => exact ⟨s, q, h⟩
  | step _ hstep hcalm ih =>
      rw [signals_append, List.mem_append, not_or] at hstay
      obtain ⟨s₁, q₁, h₁⟩ := ih hstay.1
      exact h₁.move (Thread.moves_iff.2 hstep) hcalm hbody hne hreact hstay.2
  | next _ _ hc => exact hc.elim

omit [BEq V] in
/-- When a client has come to its end nothing is on its way any more. -/
theorem Coupled.mirrors {v : V} (h : Coupled b d r s q w ⟨.run (.ret v), []⟩) :
    b.Mirrors d w := by
  refine ⟨s, q, h.copy, h.delegate.found, ?_⟩
  rcases h.mirrored with hatt | hcopying
  · exact hatt.settled h.delegate.orderly ⟨nofun, rfl⟩
  · cases hcopying with
    | forwarding hf => exact nomatch hf
    | waiting k hk => exact nomatch hk
    | passing k hf => exact nomatch hf
    | writing k hf => exact nomatch hf

/-- A write to a delegate that does not forward leaves the copy behind. -/
theorem Lineup.overlooked [LawfulBEq V] {passive : Observer V P σ ε → Prop}
    {worlds : Nat → World V P σ ε → Prop} {m : Nat} {x y v : V}
    (hl : Lineup d [] [] passive q) (hby : Bystanders body d [] passive worlds)
    (hq : Intact d q w (.start (.publish d y (.ret v)))) (hw : worlds m (w.enterAll q.monitors))
    (hcopy : ∀ m w, worlds m w → ∃ s, w.publisher? b.copy = some s ∧ s.current = x)
    (hne : q.current ≠ y) (hx : x ≠ y) :
    ∃ es w', CalmRun body w (.start (.publish d y (.ret v))) es w' ⟨.run (.ret v), []⟩ ∧
      ¬ b.Mirrors d w' := by
  obtain ⟨q', hc⟩ : ∃ q', q.commit y = some q' :=
    ⟨_, if_neg (by simpa using hne)⟩
  obtain ⟨es, w₁, q₁, m₁, hrun, hq₁, h₁⟩ :=
    hl.publish hby ⟨nofun, nofun⟩ hq (Thread.settled_start d _) hw hc
  refine ⟨es, _, hrun, ?_⟩
  rintro ⟨s₂, q₂, hs₂, hq₂, heq⟩
  obtain ⟨s₁, hs₁, hcur⟩ := hcopy m₁ w₁ h₁.world
  obtain rfl := Option.some.inj (((World.publisher?_leaveAll _).trans hs₁).symm.trans hs₂)
  obtain rfl := Option.some.inj (((World.publisher?_leaveAll _).trans hq₁).symm.trans hq₂)
  exact hx (hcur.symm.trans (heq.trans h₁.current))

/-- As long as the forwarding subscription of a closed breaker is registered, the breaker mirrors
its delegate whenever a client comes back: the operations of both make clients, and a client that
starts with the two being equal leaves them equal. Where it is not registered and the delegate has
bystanders only, every write of a new value to the delegate leaves the two different. -/
theorem closed_breaker_mirrors [LawfulBEq V] {n : Node (Routine V P σ ε) .reactive}
    (hn : n.IsBox d) (hne : d ≠ b.copy) (hbody : ∀ c, Client b d (body c)) :
    (∀ (k : Prog V P σ ε) v, Client b d k → Client b d ((b.node n).set v fun _ => k) ∧
      Client b d (n.set v fun _ => k)) ∧
    (∀ f k : V → Prog V P σ ε, (∀ v, Client b d (f v)) → (∀ v, Client b d (k v)) →
      Client b d ((b.node n).modify f k) ∧ Client b d (n.modify f k)) ∧
    (∀ w c es w' v q r, Client b d c → Intact d q w (.start c) → w.Tame b d → b.Mirrors d w →
      r ∈ q.observers → r.observer.react = b.forward →
      CalmRun body w (.start c) es w' ⟨.run (.ret v), []⟩ → .detached r.id ∉ signals d es →
      b.Mirrors d w') ∧
    (∀ w v q y m passive worlds, Intact d q w (.start (n.set y fun _ => .ret v)) →
      b.Mirrors d w → y ≠ q.current → (∀ r ∈ q.observers, passive r.observer) →
      Bystanders body d [] passive worlds → worlds m (w.enterAll q.monitors) →
      (∀ m w', worlds m w' → (w'.publisher? b.copy).map (·.current) =
        (w.publisher? b.copy).map (·.current)) →
      ∃ es w', CalmRun body w (.start (n.set y fun _ => .ret v)) es w' ⟨.run (.ret v), []⟩ ∧
        ¬ b.Mirrors d w') := by
  refine ⟨?_, ?_, ?_, ?_⟩
  · intro k v hk
    exact ⟨hk.breaker_set hn v, hk.box_set hn hne v⟩
  · intro f k hf hk
    exact ⟨Client.breaker_modify hn hne hf hk, Client.box_modify hn hne hf hk⟩
  · rintro w c es w' v q r hc hq hw ⟨s, q', hs, hq', heq⟩ hr hreact hrun hstay
    obtain rfl := Option.some.inj (hq'.symm.trans hq.found)
    obtain ⟨s', q', h'⟩ :=
      (coupled_start hs hq hw hc hr heq).run hrun hbody hne hreact hstay
    exact h'.mirrors
  · rintro w v q y m passive worlds hq ⟨s, q', hs, hq', heq⟩ hy hpass hby hw hcopy
    obtain rfl := Option.some.inj (hq'.symm.trans hq.found)
    rw [hn.set_eq] at hq ⊢
    have hset := Thread.settled_start d (.publish d y (.ret v) : Prog V P σ ε)
    have harr : ∀ r ∈ q'.arrivals, passive r.observer := by
      rw [Publisher.arrivals_of_empty (hq.idle hset).2]
      exact nofun
    have hl : Lineup d [] [] passive q' := ⟨nofun, nofun, fun r hr _ => hpass r hr, harr⟩
    refine hl.overlooked hby hq hw ?_ hy.symm (heq.trans_ne hy.symm)
    intro m w' hw'
    have hkept := hcopy m w' hw'
    rw [hs] at hkept
    exact Option.map_eq_some_iff.1 hkept

end Coupling

/-- The breaker that the clients below put in front of their box. -/
def fuse : Breaker := ⟨⟨1⟩, ⟨0⟩⟩

/-- An observer that writes 4 to the breaker when the box holds 3. -/
def raising : Routine Nat Empty Unit Unit := fun v =>
  if v = 3 then (fuse.node (.rx ⟨0⟩)).set 4 fun _ => .ret v else .ret v

/-- A client that puts a closed breaker in front of a box, subscribes to the box and writes 3 to the
breaker. -/
def coupling : Prog Nat Empty Unit Unit :=
  .atom (.newPublisher none 0) fun d => Breaker.createClosed (.rx d) fun b =>
    .attach d [] raising fun _ => (b.node (.rx d)).set 3 fun _ => .ret 0

/-- A client whose breaker is closed by an observer that panics. When the panic has been stopped
the client takes the observer away and writes 7 to the box. -/
def uncoupling : Prog Nat Empty Unit Unit :=
  .atom (.newPublisher none 0) fun d => Breaker.createOpen 1 fun b =>
    .attach d [] (fun v => if v = 5 then b.setClosed (.rx d) true fun _ => .panic "" else .ret v)
      fun s => .attempt ((Node.rx d).set 5 fun _ => .ret 0) fun _ =>
        .dispose s ((Node.rx d).set 7 fun _ => .ret 0)

theorem raising_client (v : Nat) : Client fuse ⟨0⟩ (raising v) := by
  unfold raising
  by_cases hv : v = 3
  · rw [if_pos hv]
    exact Client.breaker_set .rx (.ret v) 4
  · rw [if_neg hv]
    exact .ret v

/-- The box of `coupling` before the write: the breaker forwards, and the observer is registered. -/
def coupledBox : Publisher Nat (Observer Nat Empty Unit Unit) :=
  ⟨none, 0, 0, [⟨0, fuse.forward, [⟨1⟩]⟩, ⟨1, raising, []⟩], [], false, 2⟩

theorem coupledBox_tame {w : World Nat Empty Unit Unit}
    (hpubs : w.publishers = ⟨[coupledBox, .new none 0]⟩) (hbag : w.bags.get? 0 = some [⟨0⟩])
    (hsubs : w.subscriptions = ⟨[some (.detach ⟨0⟩ 0), some (.detach ⟨0⟩ 1)]⟩) :
    w.Tame fuse ⟨0⟩ := by
  have hknown : ∀ p s, w.publisher? p = some s → (p = ⟨0⟩ ∧ s = coupledBox) ∨ s = .new none 0 := by
    rintro ⟨i⟩ s hs
    replace hs := (congrArg (Heap.get? · i) hpubs).symm.trans hs
    match i with
    | 0 => exact Or.inl ⟨rfl, (Option.some.inj hs).symm⟩
    | 1 => exact Or.inr (Option.some.inj hs).symm
    | i + 2 => exact nomatch hs
  refine ⟨⟨_, hbag, nofun⟩, ?_, ?_, ?_⟩
  · intro p s hs r hr
    rcases hknown p s hs with ⟨rfl, rfl⟩ | rfl
    · rcases List.mem_pair.1 hr with rfl | rfl
      · exact Or.inr ⟨rfl, rfl⟩
      · exact Or.inl raising_client
    · exact nomatch hr
  · intro p s hs r hr
    rcases hknown p s hs with ⟨rfl, rfl⟩ | rfl <;> exact nomatch hr
  · intro i c hc
    rw [hsubs] at hc
    match i with
    | 0 | 1 | i + 2 => exact nomatch hc

/-- A write of 3 to the coupled breaker leaves 4 on both sides. A write of 7 to the box behind the
breaker that lost its subscription leaves 7 there and 1 in the breaker. -/
theorem closed_breaker_mirrors_fuse :
    (∃ w es w', Reachable nofun w (.start ((fuse.node (.rx ⟨0⟩)).set 3 fun _ => .ret 0)) ∧
      CalmRun nofun w (.start ((fuse.node (.rx ⟨0⟩)).set 3 fun _ => .ret 0)) es w'
        ⟨.run (.ret 0), []⟩ ∧
      fuse.Mirrors ⟨0⟩ (w' : World Nat Empty Unit Unit)) ∧
    ∃ w es w', Reachable nofun w (.start ((Node.rx ⟨0⟩).set 7 fun _ => .ret 0)) ∧
      w.bags.get? 0 = some [⟨1⟩] ∧ fuse.Mirrors ⟨0⟩ w ∧
      CalmRun nofun w (.start ((Node.rx ⟨0⟩).set 7 fun _ => .ret 0)) es w' ⟨.run (.ret 0), []⟩ ∧
      ¬ fuse.Mirrors ⟨0⟩ (w' : World Nat Empty Unit Unit) := by
  have hnone : ∀ c, Client fuse ⟨0⟩ ((nofun : Empty → Prog Nat Empty Unit Unit) c) := nofun
  obtain ⟨hset, -, hmirrors, hapart⟩ :=
    closed_breaker_mirrors (n := Node.rx ⟨0⟩) .rx (show ⟨0⟩ ≠ fuse.copy from nofun) hnone
  constructor
  · obtain ⟨w, es, w', hmade, hpubs, hbag, hsubs, hadvance, hstay⟩ :
        ∃ (w : World Nat Empty Unit Unit) (es : List (Event Nat Unit))
          (w' : World Nat Empty Unit Unit),
        Thread.run nofun (fun _ _ _ => (none : Option Unit)) 26 (World.new ())
          (.start coupling) [] = (w, .start ((fuse.node (.rx ⟨0⟩)).set 3 fun _ => .ret 0), []) ∧
        w.publishers = ⟨[coupledBox, .new none 0]⟩ ∧ w.bags.get? 0 = some [⟨0⟩] ∧
        w.subscriptions = ⟨[some (.detach ⟨0⟩ 0), some (.detach ⟨0⟩ 1)]⟩ ∧
        Thread.advance nofun 33 w (.start ((fuse.node (.rx ⟨0⟩)).set 3 fun _ => .ret 0)) =
          some (w', ⟨.run (.ret 0), []⟩, es) ∧ .detached 0 ∉ signals ⟨0⟩ es :=
      ⟨_, _, _, rfl, rfl, rfl, rfl, rfl, by decide +kernel⟩
    obtain ⟨es₀, hrun₀⟩ := Run.of_run hmade
    have hreach : Reachable nofun w (.start ((fuse.node (.rx ⟨0⟩)).set 3 fun _ => .ret 0)) :=
      ⟨(), coupling, es₀, hrun₀⟩
    have hq : w.publisher? ⟨0⟩ = some coupledBox := congrArg (Heap.get? · 0) hpubs
    have hs : w.publisher? ⟨1⟩ = some (.new none 0) := congrArg (Heap.get? · 1) hpubs
    have htame : w.Tame fuse ⟨0⟩ := coupledBox_tame hpubs hbag hsubs
    have hrun : CalmRun nofun w _ es w' ⟨.run (.ret 0), []⟩ := .of_advance hadvance
    exact ⟨w, es, w', hreach, hrun, hmirrors w _ es w' 0 coupledBox _
      ((hset (.ret 0) 3 (.ret 0)).1) (hreach.intact hq) htame ⟨_, _, hs, hq, rfl⟩
      List.mem_cons_self rfl hrun hstay⟩
  · let q : Publisher Nat (Observer Nat Empty Unit Unit) := ⟨none, 1, 5, [], [], false, 2⟩
    let s : Publisher Nat (Observer Nat Empty Unit Unit) := .new none 1
    obtain ⟨w, hmade, hq, hs, hbag⟩ : ∃ w : World Nat Empty Unit Unit,
        Thread.run nofun (fun _ _ _ => (none : Option Unit)) 31 (World.new ())
          (.start uncoupling) [] = (w, .start ((Node.rx ⟨0⟩).set 7 fun _ => .ret 0), []) ∧
        w.publisher? ⟨0⟩ = some q ∧ w.publisher? ⟨1⟩ = some s ∧ w.bags.get? 0 = some [⟨1⟩] :=
      ⟨_, rfl, rfl, rfl, rfl⟩
    obtain ⟨es₀, hrun₀⟩ := Run.of_run hmade
    have hreach : Reachable nofun w (.start ((Node.rx ⟨0⟩).set 7 fun _ => .ret 0)) :=
      ⟨(), uncoupling, es₀, hrun₀⟩
    have hmirrored : fuse.Mirrors ⟨0⟩ w := ⟨s, q, hs, hq, rfl⟩
    have hby : Bystanders nofun ⟨0⟩ [] (fun _ : Observer Nat Empty Unit Unit => False)
        fun _ w' => w'.publisher? ⟨1⟩ = some s := by
      refine ⟨?_, fun _ _ _ _ _ _ _ _ h => h.elim⟩
      intro n w₁ x x' hw₁ _
      exact (World.publisher?_setPublisher_ne (by decide)).trans hw₁
    obtain ⟨es, w', hrun, hdiffer⟩ := hapart w 0 q 7 0 _ _ (hreach.intact hq) hmirrored
      (by decide) nofun hby ((World.publisher?_enterAll _).trans hs) (by
        intro m w₁ hw₁
        show (w₁.publisher? ⟨1⟩).map _ = (w.publisher? ⟨1⟩).map _
        rw [hw₁, hs])
    exact ⟨w, es, w', hreach, hbag, hmirrored, hrun, hdiffer⟩

end ReactiveCells
