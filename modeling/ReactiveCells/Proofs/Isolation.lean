import ReactiveCells.Proofs.Mirroring
import ReactiveCells.Proofs.Toggling

/-!
# Isolation — an open breaker goes its own way

Opening a breaker takes its forwarding subscription out of the delegate. A delivery of the delegate
that is in progress goes on with the calls that are due, though, and if the forwarding subscription
is among them it writes the copy after the breaker was opened. So does a forwarding subscription
that is left over from a closing inside another one.

A breaker is `Apart` if it is open, no forwarding subscription is registered, queued or due, and no
closing is under way. Until somebody begins to close it, it stays apart: the copy is written by the
operations of the breaker only, and they leave the delegate alone.

Main statement: `open_breaker_isolated`.
-/

namespace ReactiveCells

variable {V P σ ε : Type} [BEq V]

/-- Whether a thread goes on without a panic and without beginning to close a breaker. -/
structure Breaker.LeftOpen (b : Breaker) (n : Node (Routine V P σ ε) .reactive)
    (t : Thread V P σ ε) : Prop where
  calm : t.Calm
  open' : ∀ k, t.focus ≠ .run (b.setClosed n true fun _ => k)

/-- Whether the next move makes `v` the value of a breaker: it is the write of `set`, or the end of
`modify`. -/
inductive Breaker.Writing (b : Breaker) (n : Node (Routine V P σ ε) .reactive) (v : V) :
    Thread V P σ ε → Prop where
  | set (k : Prog V P σ ε) (st : List (Frame V P σ ε)) :
      Writing b n v ⟨.run ((b.node n).set v fun _ => k), st⟩
  | modify (st : List (Frame V P σ ε)) : Writing b n v ⟨.run (.ret v), .commit b.copy :: st⟩

/-- A breaker that is open, with nothing on its way to the copy. -/
structure Apart (body : P → Prog V P σ ε) (b : Breaker) (d : PublisherRef)
    (n : Node (Routine V P σ ε) .reactive) (T : Terms V P σ ε) (w : World V P σ ε)
    (t : Thread V P σ ε) : Prop where
  loose : Loose body b d n T [] w t
  unregistered : ∀ q, w.publisher? d = some q →
    ∀ r ∈ q.registrations, r.observer.react ≠ b.forward
  undue : ∀ c ∈ (t.due d).flatten, c.observer.react ≠ b.forward
  silent : ∀ v, t.focus ≠ .run (b.forward v)

section Apart

variable {body : P → Prog V P σ ε} {b : Breaker} {d : PublisherRef}
  {n : Node (Routine V P σ ε) .reactive} {T : Terms V P σ ε} {w w' : World V P σ ε}
  {t t' : Thread V P σ ε} {es : List (Event V ε)}

/-- Clients write the copy through the breaker. -/
theorem Prog.Within.set_of_publish (hn : n.IsBox d) {v : V} {k : Prog V P σ ε}
    (h : (Prog.publish b.copy v k).Within (b.terms n T) (w.scope b.hidden)) :
    ∃ k', .publish b.copy v k = (b.node n).set v fun _ => k' := by
  generalize hc : Prog.publish b.copy v k = c at h
  cases h with
  | publish hp _ =>
      cases hc
      exact absurd hp (Breaker.notMem_scope (Or.inl rfl))
  | special hop _ =>
      cases hop with
      | set u k' =>
          rw [Breaker.set_eq hn] at hc
          cases hc
          exact ⟨k', rfl⟩
      | modify f k' => rw [Breaker.modify_eq hn] at hc; exact nomatch hc
      | isClosed k' => exact nomatch hc
      | setClosed closed k' => rw [Breaker.setClosed_eq k' hn] at hc; exact nomatch hc
  | _ => exact nomatch hc

/-- Clients subscribe clients. -/
theorem Loose.not_attach_forward {ss : List SubscriptionRef} (h : Loose body b d n T ss w t)
    (hn : n.IsBox d) (v : V) {p : PublisherRef} {keeps : List PublisherRef}
    {k : SubscriptionRef → Prog V P σ ε} : t.focus ≠ .run (.attach p keeps b.forward k) := by
  intro hf
  rcases h.focus with hin | hamends | ⟨u, hu⟩
  · rw [hf] at hin
    cases hin with
    | attach _ ho _ => exact not_within_forward hn v (ho v)
    | special hop _ =>
        generalize hc : Prog.attach p keeps b.forward k = c at hop
        cases hop with
        | set u k' => rw [Breaker.set_eq hn] at hc; exact nomatch hc
        | modify f k' => rw [Breaker.modify_eq hn] at hc; exact nomatch hc
        | isClosed k' => exact nomatch hc
        | setClosed closed k' => rw [Breaker.setClosed_eq k' hn] at hc; exact nomatch hc
  · rw [hf] at hamends
    exact nomatch hamends
  · rw [hf] at hu
    exact nomatch hu

/-- A breaker stays apart until somebody begins to close it. -/
theorem Apart.move (h : Apart body b d n T w t) (hn : n.IsBox d) (hne : d ≠ b.copy)
    (hm : Thread.Moves body w t es w' t')
    (hopen : ∀ k, t.focus ≠ .run (b.setClosed n true fun _ => k)) :
    Apart body b d n T w' t' := by
  obtain ⟨hloose, hcalled⟩ := h.loose.move hn hne hm hopen
  obtain ⟨q, hq⟩ := h.loose.delegate
  obtain ⟨q', hq', hv⟩ := hm.view hq
  refine ⟨hloose, ?_, ?_, ?_⟩
  · intro q'' hq'' r hr hreact
    obtain rfl := Option.some.inj (hq'.symm.trans hq'')
    rcases hm.arrives hq hq' r hr with hold | ⟨-, k, hf⟩
    · exact h.unregistered q hq r hold hreact
    · rw [hreact] at hf
      exact h.loose.not_attach_forward hn q.current hf
  · intro c hc hreact
    rcases hv.calls_from c hc with hold | ⟨r, hr, -, hobs⟩
    · exact h.undue c hold hreact
    · exact h.unregistered q hq r hr (hobs ▸ hreact)
  · intro v hf
    obtain ⟨u, p, c, calls, st, rfl, ⟨rfl, hreact⟩, -⟩ := hcalled v hf
    refine h.undue c ?_ hreact
    rw [Thread.due_cons_deliver_self]
    exact List.mem_cons_self

omit [BEq V] in
/-- A thread that has ended has no calls due. -/
theorem Thread.due_of_outcome {o : Outcome V} (ho : t.outcome? = some o) (c : Prog V P σ ε) :
    (Thread.start c).due d = t.due d := by
  rw [(Thread.settled_of_outcome ho).due]
  rfl

/-- A client may start another program. -/
theorem Apart.next (h : Apart body b d n T w t) (hn : n.IsBox d) {o : Outcome V}
    (ho : t.outcome? = some o) {c : Prog V P σ ε}
    (hc : c.Within (b.terms n T) (w.scope b.hidden)) : Apart body b d n T w (.start c) := by
  refine ⟨⟨h.loose.world, h.loose.bodies, h.loose.slot, h.loose.copy, h.loose.delegate,
    Or.inl hc, nofun⟩, h.unregistered, ?_, ?_⟩
  · rw [Thread.due_of_outcome ho c]
    exact h.undue
  · intro v hv
    rw [Focus.run.inj hv] at hc
    exact not_within_forward hn v hc

/-- What a client knows of at the beginning it may start later. -/
theorem Apart.run {starts : Prog V P σ ε → Prop} {w₁ : World V P σ ε} {t₁ : Thread V P σ ε}
    (h : Apart body b d n T w₁ t₁) (hn : n.IsBox d) (hne : d ≠ b.copy)
    (hstarts : ∀ c, starts c → c.Within (b.terms n T) (w₁.scope b.hidden))
    (ht₁ : b.LeftOpen n t₁) (hrun : Run body starts (b.LeftOpen n) w₁ t₁ es w t) :
    Apart body b d n T w t ∧ b.LeftOpen n t ∧ w₁.Grows w := by
  induction hrun with
  | refl => exact ⟨h, ht₁, .refl w₁⟩
  | step _ hstep hok ih =>
      obtain ⟨hapart, hopen, hgrow⟩ := ih
      have hm := Thread.moves_iff.2 hstep
      exact ⟨hapart.move hn hne hm hopen.open', hok, hgrow.trans hm.grows⟩
  | next _ ho hc hok ih =>
      obtain ⟨hapart, -, hgrow⟩ := ih
      exact ⟨hapart.next hn ho ((hstarts _ hc).mono hgrow.scope), hok, hgrow⟩

/-- A commit leaves its value. -/
theorem View.Move.current_of_committed {p : PublisherRef} {x x' : View V P σ ε}
    {l : List (Signal V)} (hm : Move p x l x') {v : V} (hv : .committed v ∈ l) :
    x'.state.current = v := by
  cases hm with
  | commit hf hc =>
      obtain rfl := Signal.committed.inj (List.mem_singleton.1 hv)
      exact (Publisher.timeline_commit hc).2
  | _ => simp at hv

/-- The copy of a breaker that is apart is written by the operations of the breaker. -/
theorem Apart.copy_eq (h : Apart body b d n T w t) (hn : n.IsBox d)
    (hm : Thread.Moves body w t es w' t') :
    ∃ s s', w.publisher? b.copy = some s ∧ w'.publisher? b.copy = some s' ∧
      (s'.current = s.current ∨ b.Writing n s'.current t) := by
  obtain ⟨s, hs⟩ := h.loose.copy
  obtain ⟨s', hs', hv⟩ := hm.view hs
  refine ⟨s, s', hs, hs', ?_⟩
  by_cases hcommit : ∃ v, .committed v ∈ signals b.copy es
  · obtain ⟨v, hcommit⟩ := hcommit
    obtain rfl : s'.current = v := hv.current_of_committed hcommit
    refine Or.inr ?_
    cases hm.writes hcommit with
    | commit st => exact .modify st
    | publish k st =>
        rcases h.loose.focus with hin | hamends | ⟨u, hu⟩
        · obtain ⟨k', hk'⟩ := Prog.Within.set_of_publish hn hin
          rw [hk']
          exact .set k' st
        · exact nomatch hamends
        · exact absurd hu (h.silent u)
  · exact Or.inl (hv.current_eq fun v hv => hcommit ⟨v, hv⟩)

/-! ### A breaker that is made -/

/-- The world in which an open breaker has just been made. -/
def World.withBreaker (w : World V P σ ε) (v : V) : World V P σ ε :=
  { w with publishers := w.publishers.alloc (.new none v), bags := w.bags.alloc [] }

theorem Breaker.createOpen_run (hb : b = ⟨⟨w.publishers.size⟩, ⟨w.bags.size⟩⟩) (v : V)
    (k : Breaker → Prog V P σ ε) (st : List (Frame V P σ ε)) :
    CalmRun body w ⟨.run (Breaker.createOpen v k), st⟩ [] (w.withBreaker v) ⟨.run (k b), st⟩ := by
  let w₁ : World V P σ ε := { w with publishers := w.publishers.alloc (.new none v) }
  have hcopy : w.perform (.newPublisher none v) = some (b.copy, w₁, []) := by
    rw [hb]
    rfl
  have hcoupling : w₁.perform .newBag = some (b.coupling, w.withBreaker v, []) := by
    rw [hb]
    rfl
  exact .cons (Thread.Moves.performed hcopy).step trivial
    (.single (Thread.Moves.performed hcoupling).step trivial)

omit [BEq V] in
theorem World.grows_withBreaker (v : V) : w.Grows (w.withBreaker v) := by
  refine ⟨?_, le_rfl, ?_⟩ <;> simp [World.withBreaker]

omit [BEq V] in
/-- The parts of a breaker that are hidden are new. -/
theorem Breaker.hidden_made (hb : b = ⟨⟨w.publishers.size⟩, ⟨w.bags.size⟩⟩) (v : V) :
    ∀ u ∈ b.hidden, ¬ u.Made w ∧ u.Made (w.withBreaker v) := by
  have hpub : w.publishers.size < (w.withBreaker v).publishers.size := by simp [World.withBreaker]
  have hbag : w.bags.size < (w.withBreaker v).bags.size := by simp [World.withBreaker]
  rw [hb]
  rintro u (rfl | rfl | rfl)
  · exact ⟨Nat.lt_irrefl _, hpub⟩
  · exact ⟨Nat.lt_irrefl _, hpub⟩
  · exact ⟨Nat.lt_irrefl _, hbag⟩

/-- What was there before a breaker does not reach its hidden parts. -/
theorem World.Within.withBreaker (hw : w.Within T.plain (fun _ _ => False) ∅)
    (hb : b = ⟨⟨w.publishers.size⟩, ⟨w.bags.size⟩⟩) (v : V) :
    (w.withBreaker v).Within (b.terms n T) (b.Forwards d) b.hidden := by
  have hhidden := Breaker.hidden_made hb v
  refine hw.hide (World.grows_withBreaker v) (fun u hu => (hhidden u hu).2)
    (fun u hu => (hhidden u hu).1) rfl ?_ rfl
  intro p s hs r hr
  rcases Heap.of_get?_alloc_eq_some _ _ _ _ hs with hold | rfl
  · exact ⟨s, hold, hr⟩
  · exact nomatch hr

omit [BEq V] in
/-- Nobody forwards to a breaker who cannot write its copy. -/
theorem Observer.Within.ne_forward {p : PublisherRef} {o : Observer V P σ ε} {S : Scope}
    (h : o.Within T.plain (fun _ _ => False) S p) (hcopy : .publish b.copy ∉ S) (v : V) :
    o.react ≠ b.forward := by
  intro hreact
  have hforward := h.resolve_right id v
  rw [hreact] at hforward
  cases hforward with
  | publish hp _ => exact hcopy hp
  | special h => exact h.elim

/-- A breaker that has just been made is apart. -/
theorem createOpen_apart {q : Publisher V (Observer V P σ ε)} {k : Breaker → Prog V P σ ε}
    {st : List (Frame V P σ ε)} (hn : n.IsBox d) (hw : w.Within T.plain (fun _ _ => False) ∅)
    (hbody : ∀ c, (body c).Within T.plain (w.scope ∅))
    (hst : ∀ fr ∈ st, fr.Within T.plain (fun _ _ => False) (w.scope ∅))
    (hq : w.publisher? d = some q) (v : V) (hb : b = ⟨⟨w.publishers.size⟩, ⟨w.bags.size⟩⟩)
    (hk : (k b).Within (b.terms n T) (w.scope ∅ ∪ {.read b.copy})) :
    ∃ w', CalmRun body w ⟨.run (Breaker.createOpen v k), st⟩ [] w' ⟨.run (k b), st⟩ ∧
      Apart body b d n T w' ⟨.run (k b), st⟩ := by
  have hhidden := Breaker.hidden_made hb v
  have hgrow := World.grows_withBreaker (w := w) v
  have hscope : w.scope ∅ ⊆ (w.withBreaker v).scope b.hidden := fun u hu =>
    ⟨hgrow.made hu.1, fun hmem => (hhidden u hmem).1 hu.1⟩
  have hstranger : .publish b.copy ∉ w.scope ∅ := fun h => (hhidden _ (Or.inl rfl)).1 h.1
  have hkb : (k b).Within (b.terms n T) ((w.withBreaker v).scope b.hidden) := by
    refine hk.mono (Set.union_subset hscope ?_)
    rintro u rfl
    have hcopy : (Use.publish b.copy).Made (w.withBreaker v) := (hhidden _ (Or.inl rfl)).2
    exact ⟨hcopy, by rintro (h | h | h) <;> exact nomatch h⟩
  have hq' : (w.withBreaker v).publisher? d = some q := Heap.get?_alloc_of_some _ _ _ _ hq
  refine ⟨_, Breaker.createOpen_run hb v k st, ⟨hw.withBreaker hb v,
    fun c => ((hbody c).mono hscope).allow _, ?_, ⟨.new none v, ?_⟩, ⟨q, hq'⟩, Or.inl hkb,
    fun fr hfr => Or.inl ((hst fr hfr).mono hscope).allow⟩, ?_, ?_, ?_⟩
  · rw [hb]
    exact Heap.get?_alloc_self _ _
  · rw [hb]
    exact Heap.get?_alloc_self _ _
  · intro q'' hq'' r hr
    obtain rfl := Option.some.inj (hq'.symm.trans hq'')
    exact (hw.observers d _ hq r hr).ne_forward hstranger v
  · intro c hc
    obtain ⟨calls, hcalls, hmem⟩ := List.mem_flatten.1 hc
    obtain ⟨fr, hfr, hcall⟩ := List.mem_filterMap.1 hcalls
    obtain rfl := Frame.eq_deliver_of_calls? hcall
    exact Observer.Within.ne_forward (hst _ hfr c hmem) hstranger v
  · intro u hu
    rw [Focus.run.inj hu] at hkb
    exact not_within_forward hn u hkb

/-- A client that opens a breaker while no call of the forwarding subscription is due leaves the
breaker apart, if no other forwarding subscription is left over. -/
theorem Loose.opens {k : Prog V P σ ε} {st : List (Frame V P σ ε)} {s : SubscriptionRef} {id : Nat}
    (h : Loose body b d n T [s] w ⟨.run (b.setClosed n false fun _ => k), st⟩) (hn : n.IsBox d)
    (hk : k.Within (b.terms n T) (w.scope b.hidden)) (hs : w.Detaches d id s.index)
    (hid : ∀ q, w.publisher? d = some q → ∀ r ∈ q.registrations,
      r.observer.react = b.forward → r.id = id)
    (hdue : ∀ c ∈ (Thread.due d ⟨.run k, st⟩).flatten, c.observer.react ≠ b.forward) :
    ∃ es w', CalmRun body w ⟨.run (b.setClosed n false fun _ => k), st⟩ es w' ⟨.run k, st⟩ ∧
      Apart body b d n T w' ⟨.run k, st⟩ := by
  obtain ⟨q, hq⟩ := h.delegate
  -- the bag is emptied
  let w₁ : World V P σ ε := { w with bags := w.bags.set b.coupling.index [] }
  have hempty : w.perform (.bag b.coupling fun _ => []) = some ([s], w₁, []) :=
    World.perform_bag h.slot _
  have hworld₁ : w₁.Within (b.terms n T) (b.Forwards d) b.hidden := h.world.performBag hempty
  have hslot₁ : w₁.bags.get? b.coupling.index = some [] := Heap.get?_set_self _ _ _ _ h.slot
  -- the subscription is disposed
  let w₂ : World V P σ ε :=
    { w₁ with subscriptions := w₁.subscriptions.set s.index none }.setPublisher d (q.detach id)
  have hworld₂ : w₂.Within (b.terms n T) (b.Forwards d) b.hidden := by
    refine (hworld₁.dispose s.index).unmanned hq fun r hr => ?_
    rw [Publisher.registrations_detach] at hr
    exact (List.mem_filter.1 hr).1
  have hgrow : w.Grows w₂ :=
    ⟨(Heap.size_set _ _ _).ge, le_rfl, (Heap.size_set _ _ _).ge⟩
  have hs₁ : w₁.Detaches d id s.index := hs
  have hq₁ : w₁.publisher? d = some q := hq
  have hq₂ : w₂.publisher? d = some (q.detach id) := World.publisher?_setPublisher_self hq
  have hasked : CalmRun body w ⟨.run (b.setClosed n false fun _ => k), st⟩ [] w
      ⟨.run (b.opening k), st⟩ := by
    rw [Breaker.setClosed_eq k hn]
    exact .single (Breaker.asks body h.slot _ st).step trivial
  have hemptied : CalmRun body w ⟨.run (b.opening k), st⟩ [] w₁
      ⟨.run (Breaker.releasing k [s]), st⟩ :=
    .single (Thread.Moves.performed hempty).step trivial
  have hreleased : CalmRun body w₁ ⟨.run (Breaker.releasing k [s]), st⟩
      [.disposed s, .detached d id (q.detach id).observers.length] w₂
      ⟨.run (Breaker.releasing k []), st⟩ :=
    .single (Thread.Moves.detached hs₁ hq₁).step trivial
  have hreported : CalmRun body w₂ ⟨.run (Breaker.releasing k []), st⟩
      [.message .breakerOpened] w₂ ⟨.run k, st⟩ :=
    .single (Thread.Moves.performed rfl).step trivial
  refine ⟨_, w₂, hasked.trans (hemptied.trans (hreleased.trans hreported)),
    ⟨hworld₂, ?_, hslot₁, ?_, ⟨_, hq₂⟩, Or.inl (hk.mono hgrow.scope), ?_⟩, ?_, hdue, ?_⟩
  · exact fun c => (h.bodies c).mono hgrow.scope
  · obtain ⟨r, hr⟩ := h.copy
    by_cases he : d = b.copy
    · exact ⟨_, he ▸ hq₂⟩
    · exact ⟨r, (World.publisher?_setPublisher_ne he).trans hr⟩
  · exact fun fr hfr => (h.stack fr hfr).imp_left fun hin => hin.mono hgrow.scope
  · intro q' hq' r hr hreact
    obtain rfl := Option.some.inj (hq₂.symm.trans hq')
    rw [Publisher.registrations_detach] at hr
    obtain ⟨hmem, hne⟩ := List.mem_filter.1 hr
    exact absurd (hid q hq r hmem hreact) (by simpa using hne)
  · intro v hv
    rw [Focus.run.inj hv] at hk
    exact not_within_forward hn v hk

/-- A call of the forwarding subscription that is left due writes the copy. -/
theorem forward_overwrites [LawfulBEq V] {u : V} {c : Call V (Observer V P σ ε)}
    {calls : List (Call V (Observer V P σ ε))} {st : List (Frame V P σ ε)}
    {s : Publisher V (Observer V P σ ε)} (hs : w.publisher? b.copy = some s)
    (hc : c.observer.react = b.forward) :
    ∃ es w' t' s', CalmRun body w ⟨.run (.ret u), .deliver d (c :: calls) :: st⟩ es w' t' ∧
      w'.publisher? b.copy = some s' ∧ s'.current = c.value := by
  have hcall : Thread.step body w ⟨.run (.ret u), .deliver d (c :: calls) :: st⟩ =
      some (w, ⟨.run (b.forward c.value), .observe c.observer :: .deliver d calls :: st⟩,
        [.called d c.id c.value]) := by
    rw [← hc]
    exact Thread.Moves.called.step
  have hwrite : ∃ es w' t', t'.Calm ∧ Thread.Moves body w
      ⟨.run (b.forward c.value), .observe c.observer :: .deliver d calls :: st⟩ es w' t' := by
    cases hcommit : s.commit c.value with
    | none => exact ⟨_, _, ⟨.run _, _⟩, trivial, .publishedSame hs hcommit⟩
    | some s' => exact ⟨_, _, ⟨.drain _, _⟩, trivial, .published hs hcommit⟩
  obtain ⟨es, w', t', hcalm, hm⟩ := hwrite
  obtain ⟨s', hs', hcur, -⟩ := hm.publish hs
  exact ⟨_, w', t', s', .cons hcall trivial (.single hm.step hcalm), hs', hcur⟩

/-- As long as no forwarding subscription is registered, queued or due and no closing is under way,
an open breaker is isolated until somebody begins to close it: its value changes only by its own
`set` and `modify`, which go on without touching the delegate. Opening a breaker whose forwarding
subscription is the only one and is not due leads there; a call that is left due overwrites the
value of the open breaker. -/
theorem open_breaker_isolated [LawfulBEq V] (hn : n.IsBox d) (hne : d ≠ b.copy) :
    (∀ w k st s id, Loose body b d n T [s] w ⟨.run (b.setClosed n false fun _ => k), st⟩ →
      k.Within (b.terms n T) (w.scope b.hidden) → w.Detaches d id s.index →
      (∀ q, w.publisher? d = some q → ∀ r ∈ q.registrations,
        r.observer.react = b.forward → r.id = id) →
      (∀ c ∈ (Thread.due d ⟨.run k, st⟩).flatten, c.observer.react ≠ b.forward) →
      ∃ es w', CalmRun body w ⟨.run (b.setClosed n false fun _ => k), st⟩ es w' ⟨.run k, st⟩ ∧
        Apart body b d n T w' ⟨.run k, st⟩) ∧
    (∀ (starts : Prog V P σ ε → Prop) w₁ t₁ es w t es' w' t', Apart body b d n T w₁ t₁ →
      (∀ c, starts c → c.Within (b.terms n T) (w₁.scope b.hidden)) → b.LeftOpen n t₁ →
      Run body starts (b.LeftOpen n) w₁ t₁ es w t → Thread.Moves body w t es' w' t' →
      Apart body b d n T w t ∧
      (∃ s s', w.publisher? b.copy = some s ∧ w'.publisher? b.copy = some s' ∧
        (s'.current = s.current ∨ b.Writing n s'.current t)) ∧
      (∀ v k st, t = ⟨.run (b.pass d v k), st⟩ → w' = w ∧ t' = ⟨.run k, st⟩) ∧
      ∀ f k st, t = ⟨.run ((b.node n).modify f k), st⟩ →
        w' = w ∧ t' = ⟨.run (.amend b.copy f k), st⟩) ∧
    ∀ w s u c calls st, w.publisher? b.copy = some s → c.observer.react = b.forward →
      ∃ es w' t' s', CalmRun body w ⟨.run (.ret u), .deliver d (c :: calls) :: st⟩ es w' t' ∧
        w'.publisher? b.copy = some s' ∧ s'.current = c.value := by
  refine ⟨?_, ?_, ?_⟩
  · intro w k st s id h hk hs hid hdue
    exact h.opens hn hk hs hid hdue
  · intro starts w₁ t₁ es w t es' w' t' h₁ hstarts ht₁ hrun hm
    obtain ⟨h, -, -⟩ := h₁.run hn hne hstarts ht₁ hrun
    refine ⟨h, h.copy_eq hn hm, ?_, ?_⟩
    · rintro v k st rfl
      obtain ⟨hw, -, ht⟩ := Breaker.ask h.loose.slot hm
      exact ⟨hw, ht⟩
    · rintro f k st rfl
      rw [Breaker.modify_eq hn] at hm
      obtain ⟨hw, -, ht⟩ := Breaker.ask h.loose.slot hm
      exact ⟨hw, ht⟩
  · intro w s u c calls st hs hc
    exact forward_overwrites hs hc

/-! ## Checks -/

/-- Whether a thread evidently goes on without a panic and without beginning to close a breaker:
whoever closes one begins by reading its copy. -/
def Thread.evidentlyOpen : Thread V P σ ε → Bool
  | ⟨.unwind _, _⟩ => false
  | ⟨.run (.atom (.bag _ _) k), _⟩ =>
      match k ([] : List SubscriptionRef) with
      | .atom (.current _) _ => false
      | _ => true
  | _ => true

theorem Thread.leftOpen_of_evidentlyOpen (hn : n.IsBox d) (h : t.evidentlyOpen = true) :
    b.LeftOpen n t := by
  constructor
  · obtain ⟨f, st⟩ := t
    cases f with
    | run | drain => trivial
    | unwind => exact nomatch h
  · rintro k hf
    obtain ⟨f, st⟩ := t
    obtain rfl : f = _ := hf
    rw [Breaker.setClosed_eq k hn] at h
    exact nomatch h

end Apart

/-! ## A box and a breaker -/

/-- What a client does after it has opened its breaker: it writes 3 to the breaker and 7 to the
box. -/
def parted : Prog Nat Empty Unit Unit :=
  (fuse.node (.rx ⟨0⟩)).set 3 fun _ => (Node.rx ⟨0⟩).set 7 fun _ => .ret 0

/-- A client that puts a closed breaker in front of a box, subscribes to the box, opens the breaker
and goes on. -/
def parting : Prog Nat Empty Unit Unit :=
  .atom (.newPublisher none 0) fun d => Breaker.createClosed (.rx d) fun b =>
    .attach d [] raising fun _ => b.setClosed (.rx d) false fun _ => parted

/-- The box of `parting` after the breaker was opened. -/
def partedBox : Publisher Nat (Observer Nat Empty Unit Unit) :=
  ⟨none, 0, 0, [⟨1, raising, []⟩], [], false, 2⟩

section Fuse

variable {w : World Nat Empty Unit Unit} {ss : List SubscriptionRef}
  {box copy : Publisher Nat (Observer Nat Empty Unit Unit)} {c : Prog Nat Empty Unit Unit}

theorem raising_within (S : Scope) (v : Nat) :
    (raising v).Within (fuse.terms (.rx ⟨0⟩) .storeless) S := by
  unfold raising
  by_cases hv : v = 3
  · rw [if_pos hv]
    refine .special (.set 4 (.ret v)) ?_
    rintro k rfl
    exact .ret v
  · rw [if_neg hv]
    exact .ret v

/-- A world with a box and the copy of its breaker, where clients and the forwarding subscription
observe the box and nobody observes the breaker. -/
theorem fuse_loose (hpubs : w.publishers = ⟨[box, copy]⟩) (hslot : w.bags.get? 0 = some ss)
    (hbox : ∀ r ∈ box.registrations, r.observer.Within (fuse.terms (.rx ⟨0⟩) .storeless)
      (fuse.Forwards ⟨0⟩) (w.scope fuse.hidden) ⟨0⟩)
    (hcopy : copy.registrations = [])
    (hsubs : ∀ i c, w.subscriptions.get? i ≠ some (some (.run c)))
    (hc : c.Within (fuse.terms (.rx ⟨0⟩) .storeless) (w.scope fuse.hidden)) :
    Loose nofun fuse ⟨0⟩ (.rx ⟨0⟩) .storeless ss w (.start c) := by
  have hbox? : w.publisher? ⟨0⟩ = some box := congrArg (Heap.get? · 0) hpubs
  have hcopy? : w.publisher? ⟨1⟩ = some copy := congrArg (Heap.get? · 1) hpubs
  have hworld : w.Within (fuse.terms (.rx ⟨0⟩) .storeless) (fuse.Forwards ⟨0⟩) fuse.hidden := by
    refine ⟨?_, trivial, ?_, fun i c hc => absurd hc (hsubs i c)⟩
    · have hpub : 1 < w.publishers.size := (List.getElem?_eq_some_iff.1 hcopy?).1
      rintro u (rfl | rfl | rfl)
      · exact hpub
      · exact hpub
      · exact (List.getElem?_eq_some_iff.1 hslot).1
    · rintro ⟨i⟩ s hs r hr
      replace hs := (congrArg (Heap.get? · i) hpubs).symm.trans hs
      match i with
      | 0 => exact hbox r ((Option.some.inj hs) ▸ hr)
      | 1 =>
          rw [← Option.some.inj hs, hcopy] at hr
          exact nomatch hr
      | i + 2 => exact nomatch hs
  exact ⟨hworld, nofun, hslot, ⟨copy, hcopy?⟩, ⟨box, hbox?⟩, Or.inl hc, nofun⟩

/-- Where the box may be written the client of `parting` may go on. -/
theorem parted_within {S : Scope} (h : .publish ⟨0⟩ ∈ S) :
    parted.Within (fuse.terms (.rx ⟨0⟩) .storeless) S := by
  refine .special (.set 3 _) ?_
  rintro k rfl
  exact .publish h (.ret 0)

/-- In such a world the box may be written. -/
theorem box_in_scope (hpubs : w.publishers = ⟨[box, copy]⟩) :
    .publish ⟨0⟩ ∈ w.scope fuse.hidden := by
  refine ⟨?_, ?_⟩
  · show 0 < w.publishers.size
    rw [hpubs]
    exact Nat.two_pos
  · rintro (h | h | h) <;> exact nomatch h

/-- A breaker that is made open in front of a box is apart. -/
theorem fuse_made_open :
    ∃ w' : World Nat Empty Unit Unit,
      CalmRun nofun { World.new () with publishers := ⟨[.new none 0]⟩ }
        (.start (Breaker.createOpen 2 fun _ => parted)) [] w' (.start parted) ∧
      Apart nofun fuse ⟨0⟩ (.rx ⟨0⟩) .storeless w' (.start parted) := by
  let w : World Nat Empty Unit Unit := { World.new () with publishers := ⟨[.new none 0]⟩ }
  have hw : w.Within (Terms.plain .storeless) (fun _ _ => False) ∅ := by
    refine ⟨nofun, trivial, ?_, fun _ _ => nofun⟩
    rintro ⟨_ | i⟩ s hs r hr
    · rw [← Option.some.inj hs] at hr
      exact nomatch hr
    · exact nomatch hs
  have hwrite : .publish ⟨0⟩ ∈ w.scope ∅ := ⟨Nat.one_pos, nofun⟩
  exact createOpen_apart .rx hw nofun (fun _ hfr => absurd hfr List.not_mem_nil) rfl 2 rfl
    (parted_within (Or.inl hwrite))

end Fuse

/-- The client of `parting` opens its breaker, and what it writes then stays where it was written; a
breaker that is made open is apart from the start. A call of the forwarding subscription that is
left due would write the breaker. -/
theorem open_breaker_isolated_fuse :
    (∃ w es w', Reachable nofun w (.start (fuse.setClosed (.rx ⟨0⟩) false fun _ => parted)) ∧
      CalmRun nofun w (.start (fuse.setClosed (.rx ⟨0⟩) false fun _ => parted)) es w'
        (.start parted) ∧
      Apart nofun fuse ⟨0⟩ (.rx ⟨0⟩) .storeless w' (.start parted)) ∧
    (∃ w es w' k es' w'' t s s',
      Run nofun (fun _ => False) (fuse.LeftOpen (.rx ⟨0⟩)) w (.start parted) es w' (.start k) ∧
      k = .publish ⟨0⟩ 7 (.ret 0) ∧ Thread.Moves nofun w' (.start k) es' w'' t ∧
      w'.publisher? fuse.copy = some s ∧ s.current = 3 ∧
      w''.publisher? fuse.copy = some s' ∧ (s'.current = 3 ∨
        fuse.Writing (.rx ⟨0⟩) s'.current (.start k : Thread Nat Empty Unit Unit))) ∧
    (∃ w w', CalmRun nofun w (.start (Breaker.createOpen 2 fun _ => parted)) [] w'
        (.start parted) ∧ Apart nofun fuse ⟨0⟩ (.rx ⟨0⟩) .storeless w' (.start parted)) ∧
    ∃ (w : World Nat Empty Unit Unit) (u : Nat) (c : Call Nat (Observer Nat Empty Unit Unit))
      (es : List (Event Nat Unit)) (w' : World Nat Empty Unit Unit)
      (t' : Thread Nat Empty Unit Unit) (s' : Publisher Nat (Observer Nat Empty Unit Unit)),
      c.observer.react = fuse.forward ∧
      CalmRun nofun w ⟨.run (.ret u), [.deliver ⟨0⟩ [c]]⟩ es w' t' ∧
      w'.publisher? fuse.copy = some s' ∧ s'.current = c.value := by
  have hopens := @open_breaker_isolated _ _ _ _ _ nofun fuse ⟨0⟩ (.rx ⟨0⟩)
    (.storeless : Terms Nat Empty Unit Unit) _ .rx (show ⟨0⟩ ≠ fuse.copy from nofun)
  obtain ⟨hopening, hisolated, hdue⟩ := hopens
  refine ⟨?_, ?_, ⟨_, fuse_made_open⟩, ?_⟩
  · obtain ⟨w, hmade, hpubs, hslot, hsubs⟩ : ∃ w : World Nat Empty Unit Unit,
        Thread.run nofun (fun _ _ _ => (none : Option Unit)) 26 (World.new ())
          (.start parting) [] =
            (w, .start (fuse.setClosed (.rx ⟨0⟩) false fun _ => parted), []) ∧
        w.publishers = ⟨[coupledBox, .new none 0]⟩ ∧ w.bags.get? 0 = some [⟨0⟩] ∧
        w.subscriptions = ⟨[some (.detach ⟨0⟩ 0), some (.detach ⟨0⟩ 1)]⟩ :=
      ⟨_, rfl, rfl, rfl, rfl⟩
    obtain ⟨es₀, hrun₀⟩ := Run.of_run hmade
    have hk := parted_within (box_in_scope hpubs)
    have hloose : Loose nofun fuse ⟨0⟩ (.rx ⟨0⟩) .storeless [⟨0⟩] w
        (.start (fuse.setClosed (.rx ⟨0⟩) false fun _ => parted)) := by
      refine fuse_loose hpubs hslot ?_ rfl ?_ (.special (.setClosed false parted) ?_)
      · intro r hr
        rcases List.mem_pair.1 hr with rfl | rfl
        · exact Or.inr ⟨rfl, rfl⟩
        · exact Or.inl (raising_within _)
      · intro i c hc
        rw [hsubs] at hc
        match i with
        | 0 | 1 | i + 2 => exact nomatch hc
      · rintro k rfl
        exact hk
    obtain ⟨es, w', hrun, hapart⟩ := hopening w parted [] ⟨0⟩ 0 hloose hk
      (congrArg (Heap.get? · 0) hsubs) (by
        intro q hq r hr hreact
        obtain rfl := Option.some.inj ((congrArg (Heap.get? · 0) hpubs).symm.trans hq)
        rcases List.mem_pair.1 hr with rfl | rfl
        · rfl
        · have h2 : (raising 2 : Prog Nat Empty Unit Unit) = fuse.forward 2 :=
            congrArg (fun g => g 2) hreact
          exact nomatch h2) nofun
    exact ⟨w, es, w', ⟨(), parting, es₀, hrun₀⟩, hrun, hapart⟩
  · obtain ⟨w, es, w', es', w'', t, hmade, hpubs, hslot, hsubs, hrun, hstep, hcopy⟩ :
        ∃ (w : World Nat Empty Unit Unit) (es : List (Event Nat Unit))
          (w' : World Nat Empty Unit Unit) (es' : List (Event Nat Unit))
          (w'' : World Nat Empty Unit Unit) (t : Thread Nat Empty Unit Unit),
        Thread.run nofun (fun _ _ _ => (none : Option Unit)) 30 (World.new ())
          (.start parting) [] = (w, .start parted, []) ∧
        w.publishers = ⟨[partedBox, .new none 0]⟩ ∧ w.bags.get? 0 = some [] ∧
        w.subscriptions = ⟨[none, some (.detach ⟨0⟩ 1)]⟩ ∧
        Thread.proceed nofun Thread.evidentlyOpen 6 w (.start parted) =
          some (w', .start (.publish ⟨0⟩ 7 (.ret 0)), es) ∧
        Thread.step nofun w' (.start (.publish ⟨0⟩ 7 (.ret 0))) = some (w'', t, es') ∧
        w'.publisher? ⟨1⟩ = some ⟨none, 3, 3, [], [], false, 0⟩ :=
      ⟨_, _, _, _, _, _, rfl, rfl, rfl, rfl, rfl, rfl, rfl⟩
    have hrun' : Run nofun (fun _ => False) (fuse.LeftOpen (.rx ⟨0⟩)) w (.start parted) es w'
        (.start (.publish ⟨0⟩ 7 (.ret 0))) :=
      .of_proceed (fun t ht => Thread.leftOpen_of_evidentlyOpen .rx ht) hrun
    have hm := Thread.moves_iff.2 hstep
    have hapart : Apart nofun fuse ⟨0⟩ (.rx ⟨0⟩) .storeless w (.start parted) := by
      refine ⟨fuse_loose hpubs hslot ?_ rfl ?_ (parted_within (box_in_scope hpubs)), ?_, nofun,
        nofun⟩
      · intro r hr
        obtain rfl := List.mem_singleton.1 hr
        exact Or.inl (raising_within _)
      · intro i c hc
        rw [hsubs] at hc
        match i with
        | 0 | 1 | i + 2 => exact nomatch hc
      · intro q hq r hr hreact
        obtain rfl := Option.some.inj ((congrArg (Heap.get? · 0) hpubs).symm.trans hq)
        obtain rfl := List.mem_singleton.1 hr
        have h2 : (raising 2 : Prog Nat Empty Unit Unit) = fuse.forward 2 :=
          congrArg (fun g => g 2) hreact
        exact nomatch h2
    obtain ⟨-, ⟨s, s', hs, hs', hcur⟩, -, -⟩ := hisolated (fun _ => False) w (.start parted) es w'
      (.start (.publish ⟨0⟩ 7 (.ret 0))) es' w'' t hapart nofun
      (Thread.leftOpen_of_evidentlyOpen .rx rfl) hrun' hm
    obtain rfl := Option.some.inj (hcopy.symm.trans hs)
    exact ⟨w, es, w', _, es', w'', t, _, s', hrun', rfl, hm, hs, rfl, hs', hcur⟩
  · let c : Call Nat (Observer Nat Empty Unit Unit) := ⟨0, 9, ⟨fuse.forward, []⟩⟩
    let s : Publisher Nat (Observer Nat Empty Unit Unit) := .new none 0
    let w : World Nat Empty Unit Unit := { World.new () with publishers := ⟨[s, s]⟩ }
    obtain ⟨es, w', t', s', hrun, hs', hcur⟩ := hdue w s 0 c [] [] rfl rfl
    exact ⟨w, 0, c, es, w', t', s', rfl, hrun, hs', hcur⟩

end ReactiveCells
