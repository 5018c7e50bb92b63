import ReactiveCells.Breaker
import ReactiveCells.Proofs.Attention

/-!
# Clients — programs that leave a breaker its private parts

The copy of a breaker is written by its own operations and by the subscription that forwards what
the delegate emits, and its bag is changed by opening and closing only. A client of a closed breaker
(`Client`) may do anything else: use the breaker and the delegate at any depth, subscribe to both,
call procedures, panic. Whatever clients do, everything that is ever run is a client or the
forwarding subscription (`Thread.Moves.tame`).
-/

namespace ReactiveCells

variable {V P σ ε : Type}

namespace Breaker

variable (b : Breaker) (d : PublisherRef)

/-- The reaction of the forwarding subscription. -/
def forward : Routine V P σ ε := fun v => .publish b.copy v (.ret v)

/-- What is left of a write to the breaker once the copy is written. -/
def pass (v : V) (k : Prog V P σ ε) : Prog V P σ ε :=
  .atom (.bag b.coupling id) fun (ss : List SubscriptionRef) =>
    if !ss.isEmpty then .publish d v k else k

theorem coupled_of_ne_nil {ss : List SubscriptionRef} (h : ss ≠ []) : (!ss.isEmpty) = true := by
  simpa using h

variable {b d} {n : Node (Routine V P σ ε) .reactive}

theorem set_eq (hn : n.IsBox d) (v : V) (k : Prog V P σ ε) :
    ((b.node n).set v fun _ => k) = .publish b.copy v (b.pass d v k) := by
  have hpass : (fun ss : List SubscriptionRef =>
      (if !ss.isEmpty then n.set v else pure () : Act V P σ ε Unit) fun _ => k) =
      fun ss : List SubscriptionRef => if !ss.isEmpty then .publish d v k else k := by
    ext ss
    rw [hn.set_eq]
    by_cases hss : (!ss.isEmpty) = true
    · rw [if_pos hss, if_pos hss]
      rfl
    · rw [if_neg hss, if_neg hss]
      rfl
  exact congrArg (fun g => Prog.publish b.copy v (.atom (.bag b.coupling id) g)) hpass

theorem modify_eq (hn : n.IsBox d) (f : Routine V P σ ε) (k : V → Prog V P σ ε) :
    (b.node n).modify f k = .atom (.bag b.coupling id) fun (ss : List SubscriptionRef) =>
      if !ss.isEmpty then .amend d f k else .amend b.copy f k := by
  have hchoice : (fun ss : List SubscriptionRef =>
      (if !ss.isEmpty then n.modify f else Act.amend b.copy f : Act V P σ ε V) k) =
      fun ss : List SubscriptionRef => if !ss.isEmpty then .amend d f k else .amend b.copy f k := by
    ext ss
    rw [hn.modify_eq]
    by_cases hss : (!ss.isEmpty) = true
    · rw [if_pos hss, if_pos hss]
      rfl
    · rw [if_neg hss, if_neg hss]
      rfl
  exact congrArg (fun g => Prog.atom (.bag b.coupling id) g) hchoice

end Breaker

/-- Programs that use a breaker in front of a box, while it is closed, through its operations
other than opening and closing. -/
inductive Client (b : Breaker) (d : PublisherRef) : Prog V P σ ε → Prop where
  | ret (v : V) : Client b d (.ret v)
  | panic (text : String) : Client b d (.panic text)
  | atom {a : Atom V σ ε} {k : a.Answer → Prog V P σ ε} : (∀ f, a ≠ .bag b.coupling f) →
      (∀ x, Client b d (k x)) → Client b d (.atom a k)
  /-- Asks whether the breaker is closed. -/
  | ask {k : List SubscriptionRef → Prog V P σ ε} : (∀ ss, ss ≠ [] → Client b d (k ss)) →
      Client b d (.atom (.bag b.coupling id) k)
  | call {c : P} {k : V → Prog V P σ ε} : (∀ v, Client b d (k v)) → Client b d (.call c k)
  | attempt {c : Prog V P σ ε} {k : Option String → Prog V P σ ε} : Client b d c →
      (∀ r, Client b d (k r)) → Client b d (.attempt c k)
  | hold {m : Monitor} {c : Prog V P σ ε} {k : V → Prog V P σ ε} : Client b d c →
      (∀ v, Client b d (k v)) → Client b d (.hold m c k)
  | retry {c : CellRef} {f k : V → Prog V P σ ε} : (∀ v, Client b d (f v)) →
      (∀ v, Client b d (k v)) → Client b d (.retry c f k)
  | publish {p : PublisherRef} {v : V} {k : Prog V P σ ε} : p ≠ b.copy → Client b d k →
      Client b d (.publish p v k)
  /-- Writes to the breaker. -/
  | set {v : V} {k : Prog V P σ ε} : Client b d k → Client b d (.publish b.copy v (b.pass d v k))
  | amend {p : PublisherRef} {f k : V → Prog V P σ ε} : p ≠ b.copy → (∀ v, Client b d (f v)) →
      (∀ v, Client b d (k v)) → Client b d (.amend p f k)
  | attach {p : PublisherRef} {keeps : List PublisherRef} {o : V → Prog V P σ ε}
      {k : SubscriptionRef → Prog V P σ ε} : (∀ v, Client b d (o v)) → (∀ s, Client b d (k s)) →
      Client b d (.attach p keeps o k)
  | onDispose {c : Prog V P σ ε} {k : SubscriptionRef → Prog V P σ ε} : Client b d c →
      (∀ s, Client b d (k s)) → Client b d (.onDispose c k)
  | dispose {s : SubscriptionRef} {k : Prog V P σ ε} : Client b d k → Client b d (.dispose s k)

section Operations

variable {b : Breaker} {d : PublisherRef} {n : Node (Routine V P σ ε) .reactive}
  {k : Prog V P σ ε} {f g : V → Prog V P σ ε}

/-- After the copy, a client writes the delegate. -/
theorem Client.pass (hne : d ≠ b.copy) (hk : Client b d k) (v : V) :
    Client b d (b.pass d v k) := by
  refine .ask ?_
  intro ss hss
  show Client b d (if !ss.isEmpty then .publish d v k else k)
  rw [if_pos (Breaker.coupled_of_ne_nil hss)]
  exact .publish hne hk

theorem Client.breaker_set (hn : n.IsBox d) (hk : Client b d k) (v : V) :
    Client b d ((b.node n).set v fun _ => k) := by
  rw [Breaker.set_eq hn]
  exact .set hk

theorem Client.breaker_modify (hn : n.IsBox d) (hne : d ≠ b.copy) (hf : ∀ v, Client b d (f v))
    (hg : ∀ v, Client b d (g v)) : Client b d ((b.node n).modify f g) := by
  rw [Breaker.modify_eq hn]
  refine .ask ?_
  intro ss hss
  rw [if_pos (Breaker.coupled_of_ne_nil hss)]
  exact .amend hne hf hg

theorem Client.box_set (hn : n.IsBox d) (hne : d ≠ b.copy) (hk : Client b d k) (v : V) :
    Client b d (n.set v fun _ => k) := by
  rw [hn.set_eq]
  exact .publish hne hk

theorem Client.box_modify (hn : n.IsBox d) (hne : d ≠ b.copy) (hf : ∀ v, Client b d (f v))
    (hg : ∀ v, Client b d (g v)) : Client b d (n.modify f g) := by
  rw [hn.modify_eq]
  exact .amend hne hf hg

end Operations

/-! ## Everything that is run is a client or the forwarding subscription -/

/-- How the observers of a publisher may react. -/
def Reacts (b : Breaker) (d q : PublisherRef) (o : Observer V P σ ε) : Prop :=
  (∀ v, Client b d (o.react v)) ∨ (q = d ∧ o.react = b.forward)

/-- What a frame goes on with. -/
def Frame.Tame (b : Breaker) (d : PublisherRef) : Frame V P σ ε → Prop
  | .resume k => ∀ v, Client b d (k v)
  | .attempt k => ∀ r, Client b d (k r)
  | .deliver q calls => ∀ c ∈ calls, Reacts b d q c.observer
  | .commit q => q ≠ b.copy
  | .register _ _ k => ∀ s, Client b d (k s)
  | .swapIn _ _ _ f => ∀ v, Client b d (f v)
  | .leave _ | .observe _ => True

/-- Whether a program in focus is a client. -/
def Focus.Tame (b : Breaker) (d : PublisherRef) : Focus V P σ ε → Prop
  | .run c => Client b d c
  | .drain _ | .unwind _ => True

/-- A world in which a breaker is closed and all programs around are clients of it. -/
structure World.Tame (b : Breaker) (d : PublisherRef) (w : World V P σ ε) : Prop where
  closed : ∃ ss, w.bags.get? b.coupling.index = some ss ∧ ss ≠ []
  observers : ∀ q s, w.publisher? q = some s → ∀ r ∈ s.observers, Reacts b d q r.observer
  arrivals : ∀ q s, w.publisher? q = some s → ∀ r ∈ s.arrivals, ∀ v, Client b d (r.observer.react v)
  teardowns : ∀ i c, w.subscriptions.get? i = some (some (.run c)) → Client b d c

namespace World.Tame

variable {b : Breaker} {d p : PublisherRef} {w w' : World V P σ ε}
  {s s' : Publisher V (Observer V P σ ε)}

theorem setPublisher (h : w.Tame b d) (hp : w.publisher? p = some s)
    (hobs : ∀ r ∈ s'.observers, Reacts b d p r.observer)
    (harr : ∀ r ∈ s'.arrivals, ∀ v, Client b d (r.observer.react v)) :
    (w.setPublisher p s').Tame b d := by
  -- a publisher of the new world is the one replaced or was there before
  have hcases : ∀ q r, (w.setPublisher p s').publisher? q = some r →
      (p = q ∧ r = s') ∨ w.publisher? q = some r := by
    intro q r hr
    by_cases hq : p = q
    · subst hq
      rw [World.publisher?_setPublisher_self hp] at hr
      exact Or.inl ⟨rfl, (Option.some.inj hr).symm⟩
    · rw [World.publisher?_setPublisher_ne hq] at hr
      exact Or.inr hr
  refine ⟨h.closed, ?_, ?_, h.teardowns⟩
  · intro q r hr
    rcases hcases q r hr with ⟨rfl, rfl⟩ | hold
    · exact hobs
    · exact h.observers q r hold
  · intro q r hr
    rcases hcases q r hr with ⟨rfl, rfl⟩ | hold
    · exact harr
    · exact h.arrivals q r hold

theorem enterAll (h : w.Tame b d) (ms : List Monitor) : (w.enterAll ms).Tame b d := by
  rw [World.enterAll_eq]
  exact ⟨h.closed, h.observers, h.arrivals, h.teardowns⟩

theorem newSubscription (h : w.Tame b d) {t : Option (Teardown V P σ ε)}
    (ht : ∀ c, t = some (.run c) → Client b d c) : (w.newSubscription t).2.Tame b d := by
  refine ⟨h.closed, h.observers, h.arrivals, ?_⟩
  intro i c hc
  rcases Heap.of_get?_alloc_eq_some _ i t _ hc with hold | hnew
  · exact h.teardowns i c hold
  · exact ht c hnew.symm

/-- A subscription that is disposed loses its teardown. -/
theorem dispose (h : w.Tame b d) (i : Nat) :
    ({ w with subscriptions := w.subscriptions.set i none } : World V P σ ε).Tame b d := by
  refine ⟨h.closed, h.observers, h.arrivals, ?_⟩
  exact fun j c hc => h.teardowns j c (Heap.of_get?_set_none _ i j _ hc)

/-- Monitors are nobody's concern. -/
theorem leave (h : w.Tame b d) (m : Monitor) : (w.leave m).Tame b d :=
  ⟨h.closed, h.observers, h.arrivals, h.teardowns⟩

/-- What a publisher does without registering anybody. -/
theorem unmanned (h : w.Tame b d) (hp : w.publisher? p = some s)
    (hobs : ∀ r ∈ s'.observers, r ∈ s.observers) (harr : ∀ r ∈ s'.arrivals, r ∈ s.arrivals) :
    (w.setPublisher p s').Tame b d :=
  h.setPublisher hp (fun r hr => h.observers p s hp r (hobs r hr))
    fun r hr => h.arrivals p s hp r (harr r hr)

variable [BEq V]

theorem commit (h : w.Tame b d) (hp : w.publisher? p = some s) {v : V}
    (hc : s.commit v = some s') : (w.setPublisher p s').Tame b d := by
  have harr := Publisher.arrivals_commit hc
  obtain rfl := Publisher.commit_eq_some hc
  refine h.unmanned hp (fun _ hr => hr) ?_
  intro r hr
  exact harr ▸ hr

omit [BEq V] in
/-- An entry that is taken calls or registers observers that were there. -/
theorem pop (h : w.Tame b d) (hp : w.publisher? p = some s) {dl : Delivery V (Observer V P σ ε)}
    (hpop : s.pop = some (dl, s')) :
    (w.setPublisher p s').Tame b d ∧ ∀ c ∈ dl.calls, Reacts b d p c.observer := by
  rcases Publisher.pop_cases hpop with ⟨v, rest, hq, rfl, rfl⟩ | ⟨r, rest, hq, rfl, rfl⟩
  · have harr := Publisher.arrivals_of_emit hq
    refine ⟨h.unmanned hp (fun _ hr => hr) fun r hr => harr ▸ hr, ?_⟩
    intro c hc
    obtain ⟨r, hr, rfl⟩ := List.mem_map.1 hc
    exact h.observers p s hp r hr
  · have harr := Publisher.arrivals_of_attach hq
    have hclient : ∀ v, Client b d (r.observer.react v) :=
      h.arrivals p s hp r (harr ▸ List.mem_cons_self)
    refine ⟨h.setPublisher hp ?_ ?_, ?_⟩
    · intro r' hr'
      rcases List.mem_append.1 hr' with hold | hnew
      · exact h.observers p s hp r' hold
      · rw [List.mem_singleton.1 hnew]
        exact Or.inl hclient
    · intro r' hr'
      exact h.arrivals p s hp r' (harr ▸ List.mem_cons_of_mem r hr')
    · intro c hc
      rw [List.mem_singleton.1 hc]
      exact Or.inl hclient

/-- An indivisible operation that leaves the bag of the breaker alone. -/
theorem perform (h : w.Tame b d) {a : Atom V σ ε} {x : a.Answer} {es : List (Event V ε)}
    (ha : w.perform a = some (x, w', es)) (hbag : ∀ f, a = .bag b.coupling f → f = id) :
    w'.Tame b d := by
  refine ⟨?_, ?_, ?_, fun i c hc => h.teardowns i c (World.of_perform_teardown ha hc)⟩
  · obtain ⟨ss, hss, hne⟩ := h.closed
    refine ⟨ss, ?_, hne⟩
    -- the bag of the breaker is at most looked at, any other bag may change
    by_cases hlook : ∃ f, a = .bag b.coupling f
    · obtain ⟨f, rfl⟩ := hlook
      obtain rfl := hbag f rfl
      rw [World.perform_bag hss] at ha
      cases ha
      exact Heap.get?_set_self _ _ _ _ hss
    · exact World.perform_bag? ha hss fun f he => hlook ⟨f, he⟩
  · intro q s hs
    rcases World.of_perform_publisher? ha hs with hold | ⟨guard, v, rfl⟩
    · exact h.observers q s hold
    · exact nofun
  · intro q s hs
    rcases World.of_perform_publisher? ha hs with hold | ⟨guard, v, rfl⟩
    · exact h.arrivals q s hold
    · exact nofun

end World.Tame

namespace Thread

variable [BEq V] {body : P → Prog V P σ ε} {b : Breaker} {d : PublisherRef}
  {w w' : World V P σ ε} {t t' : Thread V P σ ε} {es : List (Event V ε)}

/-- A thread that is about to run a client, or the forwarding subscription. -/
structure Tame (b : Breaker) (d : PublisherRef) (t : Thread V P σ ε) : Prop where
  focus : t.focus.Tame b d ∨ ∃ v, t.focus = .run (b.forward v)
  stack : ∀ fr ∈ t.stack, fr.Tame b d

omit [BEq V] in
/-- A program that is not a write is a client. -/
theorem Tame.client (h : t.Tame b d) {c : Prog V P σ ε} (hc : t.focus = .run c)
    (hwrite : ∀ p v k, c ≠ .publish p v k) : Client b d c := by
  rcases h.focus with hf | ⟨v, hv⟩
  · rw [hc] at hf
    exact hf
  · rw [hc] at hv
    exact absurd (Focus.run.inj hv) (hwrite _ _ _)

omit [BEq V] in
/-- What comes after a write is a client. -/
theorem Tame.after (h : t.Tame b d) (hne : d ≠ b.copy) {p : PublisherRef} {v : V}
    {k : Prog V P σ ε} (hc : t.focus = .run (.publish p v k)) : Client b d k := by
  rcases h.focus with hf | ⟨u, hu⟩
  · rw [hc] at hf
    cases hf with
    | publish _ hk => exact hk
    | set hk => exact hk.pass hne v
  · rw [hc] at hu
    cases hu
    exact .ret _

/-- Whether a move is the call of the forwarding subscription. -/
def Forwards (b : Breaker) (d : PublisherRef) (t t' : Thread V P σ ε) : Prop :=
  ∃ u c calls st, t = ⟨.run (.ret u), .deliver d (c :: calls) :: st⟩ ∧
    c.observer.react = b.forward ∧ t'.focus = .run (b.forward c.value)

/-- What is run next is a client, unless the forwarding subscription has just been called. -/
theorem Moves.tame (hm : Moves body w t es w' t') (hbody : ∀ c, Client b d (body c))
    (hne : d ≠ b.copy) (hw : w.Tame b d) (ht : t.Tame b d) :
    w'.Tame b d ∧ (∀ fr ∈ t'.stack, fr.Tame b d) ∧ (t'.focus.Tame b d ∨ Forwards b d t t') := by
  have next : ∀ {w' : World V P σ ε} {t' : Thread V P σ ε}, w'.Tame b d →
      (∀ fr ∈ t'.stack, fr.Tame b d) → t'.focus.Tame b d →
      w'.Tame b d ∧ (∀ fr ∈ t'.stack, fr.Tame b d) ∧ (t'.focus.Tame b d ∨ Forwards b d t t') :=
    fun hw' hst' hf' => ⟨hw', hst', Or.inl hf'⟩
  have leaves : ∀ (r : Publisher V (Observer V P σ ε)) {st : List (Frame V P σ ε)},
      (∀ fr ∈ st, fr.Tame b d) → ∀ fr ∈ r.leaving ++ st, fr.Tame b d := fun r _ =>
    r.forall_mem_leaving fun _ => trivial
  have hst := ht.stack
  cases hm with
  | resumed =>
      obtain ⟨hk, hst⟩ := List.forall_mem_cons.1 hst
      exact next hw hst (hk _)
  | unharmed | caught =>
      obtain ⟨hk, hst⟩ := List.forall_mem_cons.1 hst
      exact next hw hst (hk _)
  | left =>
      exact next (hw.leave _) (List.forall_mem_cons.1 hst).2 (.ret _)
  | expelled =>
      exact next (hw.leave _) (List.forall_mem_cons.1 hst).2 trivial
  | @called v q c calls st =>
      obtain ⟨hcalls, hst⟩ := List.forall_mem_cons.1 hst
      obtain ⟨hc, hcalls⟩ := List.forall_mem_cons.1 hcalls
      have hstack : ∀ fr ∈ (.observe c.observer :: .deliver q calls :: st : List (Frame V P σ ε)),
          fr.Tame b d :=
        List.forall_mem_cons.2 ⟨trivial, List.forall_mem_cons.2 ⟨hcalls, hst⟩⟩
      rcases hc with hclient | ⟨rfl, hforward⟩
      · exact next hw hstack (hclient c.value)
      -- the only way to the forwarding subscription
      · refine ⟨hw, hstack, Or.inr ⟨v, c, calls, st, rfl, hforward, ?_⟩⟩
        exact congrArg (fun g => Focus.run (g c.value)) hforward
  | drained hp hpop =>
      refine next (hw.unmanned hp (fun _ hr => hr) fun _ hr => hr) ?_ (.ret _)
      exact (List.forall_mem_cons.1 hst).2
  | @popped v q s dl s' st hp hpop =>
      obtain ⟨hw', hcalls⟩ := hw.pop hp hpop
      refine next hw' (List.forall_mem_cons.2 ⟨hcalls, ?_⟩) (.ret _)
      exact (List.forall_mem_cons.1 hst).2
  | observed =>
      exact next hw (List.forall_mem_cons.1 hst).2 (.ret _)
  | amendedSame hp hc =>
      exact next hw (List.forall_mem_cons.1 hst).2 (.ret _)
  | amended hp hc =>
      exact next (hw.commit hp hc) (List.forall_mem_cons.1 hst).2 trivial
  | registered =>
      obtain ⟨hk, hst⟩ := List.forall_mem_cons.1 hst
      exact next (hw.newSubscription nofun) hst (hk _)
  | swapped hc hs =>
      exact next ⟨hw.closed, hw.observers, hw.arrivals, hw.teardowns⟩
        (List.forall_mem_cons.1 hst).2 (.ret _)
  | contended hc hs =>
      obtain ⟨hk, hst⟩ := List.forall_mem_cons.1 hst
      exact next hw (List.forall_mem_cons.2 ⟨hk, hst⟩) (hk _)
  | abandoned hp =>
      refine next (hw.unmanned hp (fun _ hr => hr) ?_) (List.forall_mem_cons.1 hst).2 trivial
      exact nofun
  | passed =>
      exact next hw (List.forall_mem_cons.1 hst).2 trivial
  | busy hp hb => exact next hw hst (.ret _)
  | draining hp hb =>
      obtain ⟨-, rfl⟩ := Publisher.beginDrain_eq_some hb
      refine next (hw.unmanned hp (fun _ hr => hr) fun _ hr => hr) ?_ (.ret _)
      exact List.forall_mem_cons.2 ⟨nofun, hst⟩
  | panicked => exact next hw hst trivial
  | @performed _ a k x _ st ha =>
      cases ht.client rfl nofun with
      | atom hbag hk => exact next (hw.perform ha fun f hf => absurd hf (hbag f)) hst (hk x)
      | ask hk =>
          -- what a client learns from the bag is that the breaker is closed
          refine next (hw.perform ha fun f hf => ?_) hst (hk x ?_)
          · cases hf
            rfl
          · obtain ⟨ss, hss, hask⟩ := Option.map_eq_some_iff.1 ha
            obtain ⟨ss', hss', hnonempty⟩ := hw.closed
            cases hask
            obtain rfl := Option.some.inj (hss.symm.trans hss')
            exact hnonempty
  | entered =>
      cases ht.client rfl nofun with
      | call hk => exact next hw (List.forall_mem_cons.2 ⟨hk, hst⟩) (hbody _)
  | attempted =>
      cases ht.client rfl nofun with
      | attempt hc hk => exact next hw (List.forall_mem_cons.2 ⟨hk, hst⟩) hc
  | held =>
      cases ht.client rfl nofun with
      | hold hc hk =>
          exact next (hw.enterAll [_])
            (List.forall_mem_cons.2 ⟨trivial, List.forall_mem_cons.2 ⟨hk, hst⟩⟩) hc
  | retried =>
      cases ht.client rfl nofun with
      | retry hf hk =>
          exact next hw (List.forall_mem_cons.2 ⟨hf, List.forall_mem_cons.2 ⟨hk, hst⟩⟩) (hf _)
  | @publishedSame p v k s st hp hc =>
      have hk : Client b d k := ht.after hne rfl
      refine next (hw.enterAll s.monitors) (leaves s ?_) (.ret _)
      exact List.forall_mem_cons.2 ⟨fun _ => hk, hst⟩
  | @published p v k s s' st hp hc =>
      have hk : Client b d k := ht.after hne rfl
      have hp' := (World.publisher?_enterAll s.monitors).trans hp
      refine next ((hw.enterAll s.monitors).commit hp' hc) (leaves s ?_) trivial
      exact List.forall_mem_cons.2 ⟨fun _ => hk, hst⟩
  | @amending p f k s st hp =>
      cases ht.client rfl nofun with
      | amend hcopy hf hk =>
          refine next (hw.enterAll s.monitors) (List.forall_mem_cons.2 ⟨hcopy, ?_⟩) (hf _)
          exact leaves s (List.forall_mem_cons.2 ⟨hk, hst⟩)
  | @attached p keeps o k s st hp =>
      cases ht.client rfl nofun with
      | attach ho hk =>
          have hp' := (World.publisher?_enterAll s.monitors).trans hp
          refine next ((hw.enterAll s.monitors).setPublisher hp' (hw.observers p s hp) ?_)
            (leaves s (List.forall_mem_cons.2 ⟨hk, hst⟩)) trivial
          intro r hr
          -- whoever a client subscribes is a client
          rcases List.mem_append.1 (Publisher.arrivals_enqueue s _ ▸ hr) with hold | hnew
          · exact hw.arrivals p s hp r hold
          · rw [List.mem_singleton.1 hnew]
            exact ho
  | prepared =>
      cases ht.client rfl nofun with
      | onDispose hc hk =>
          refine next (hw.newSubscription ?_) hst (hk _)
          intro c' hc'
          cases hc'
          exact hc
  | disposedAgain =>
      cases ht.client rfl nofun with
      | dispose hk => exact next hw hst hk
  | @tornDown s c k st hs =>
      cases ht.client rfl nofun with
      | dispose hk =>
          refine next (hw.dispose s.index) (List.forall_mem_cons.2 ⟨fun _ => hk, hst⟩) ?_
          exact hw.teardowns s.index c hs
  | @detached s p id q k st hs hp =>
      cases ht.client rfl nofun with
      | dispose hk =>
          refine next ((hw.dispose s.index).unmanned hp ?_ ?_) hst hk
          · intro r hr
            exact (List.mem_filter.1 hr).1
          · intro r hr
            rw [Publisher.arrivals_detach] at hr
            exact (List.mem_filter.1 hr).1

end Thread

end ReactiveCells
