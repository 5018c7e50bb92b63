import ReactiveCells.Proofs.Attention
import ReactiveCells.Proofs.Soon

/-!
# Holders — who brings an observer, and who can take it away

An observer is queued by a program that attaches it, and called only if it is registered or queued.
It is taken away by disposing a subscription that detaches its number. A publisher gives out every
number once, to the registration that queues the observer, and the subscription is made when that
registration comes back. So there is at most one holder of a number: first a frame that waits, then
a subscription.

Main statements: `Moves.arrives` (where observers come from), `Knows.move` (a publisher tells an
observer by its number), `Moves.holders` (where holders come from), `Reachable.numbered` (only
numbers given out are held), `Sole.move` (nobody gets hold of a number that is taken) and
`Enrolled.move` (only its own subscription takes an observer away).
-/

namespace ReactiveCells

variable {V P σ ε : Type}

/-- Whether a publisher has given out a number. -/
def World.Issued (p : PublisherRef) (id : Nat) (w : World V P σ ε) : Prop :=
  ∃ s, w.publisher? p = some s ∧ id < s.nextId

/-- Whether a subscription takes an observer away. -/
def World.Detaches (p : PublisherRef) (id i : Nat) (w : World V P σ ε) : Prop :=
  w.subscriptions.get? i = some (some (.detach p id))

/-! ## Where observers come from -/

section Arrivals

variable [BEq V] {body : P → Prog V P σ ε} {w w' : World V P σ ε} {t t' : Thread V P σ ε}
  {es : List (Event V ε)} {p : PublisherRef} {s s' : Publisher V (Observer V P σ ε)}

/-- Whatever is called was due before or is registered or queued. -/
theorem View.Move.calls_from {x x' : View V P σ ε} {l : List (Signal V)} (hm : Move p x l x') :
    ∀ c ∈ x'.calls, c ∈ x.calls ∨
      ∃ r ∈ x.state.registrations, r.id = c.id ∧ r.observer = c.observer := by
  cases hm with
  | other | busy | commit | enqueue | detach => exact fun c hc => Or.inl hc
  | start | finish => exact fun c hc => Or.inl hc
  | call => exact fun c hc => Or.inl (List.mem_cons_of_mem _ hc)
  | abandon => exact fun c hc => Or.inl (List.mem_append_right _ hc)
  | @pop s d s' due v hp =>
      intro c hc
      rcases List.mem_append.1 hc with hnew | hold
      · rcases Publisher.pop_cases hp with ⟨u, rest, hq, rfl, rfl⟩ | ⟨r, rest, hq, rfl, rfl⟩
        · obtain ⟨r, hr, rfl⟩ := List.mem_map.1 hnew
          exact Or.inr ⟨r, List.mem_append_left _ hr, rfl, rfl⟩
        · obtain rfl := List.mem_singleton.1 hnew
          refine Or.inr ⟨r, List.mem_append_right _ ?_, rfl, rfl⟩
          rw [Publisher.arrivals_of_attach hq]
          exact List.mem_cons_self
      · exact Or.inl (List.mem_append_right _ hold)

/-- Whoever is called had a call due. -/
theorem View.Move.called {x x' : View V P σ ε} {ls : List (Signal V)} {id : Nat} {v : V}
    (hm : Move p x ls x') (h : .called id v ∈ ls) :
    ∃ c ∈ x.calls, c.id = id ∧ x'.focus = .run (c.observer.react v) := by
  cases hm with
  | call =>
      cases List.mem_singleton.1 h
      exact ⟨_, List.mem_cons_self, rfl, rfl⟩
  | commit | enqueue | detach => exact nomatch List.mem_singleton.1 h
  | other | start | busy | pop | finish | abandon => exact nomatch h

/-- Only a registration brings an observer. -/
theorem View.Move.registrations_from {x x' : View V P σ ε} {l : List (Signal V)}
    (hm : Move p x l x') (hl : ∀ id, .queued id ∉ l) :
    ∀ r ∈ x'.state.registrations, r ∈ x.state.registrations := by
  cases hm with
  | other | busy | call | finish => exact fun _ hr => hr
  | start hb =>
      obtain ⟨-, rfl⟩ := Publisher.beginDrain_eq_some hb
      exact fun _ hr => hr
  | commit hf hc => exact fun r hr => Publisher.registrations_commit hc ▸ hr
  | enqueue => exact absurd List.mem_cons_self (hl _)
  | pop hp => exact fun r hr => Publisher.registrations_pop hp ▸ hr
  | @detach s due f f' id hf hf' =>
      intro r hr
      have hr' : r ∈ (s.detach id).registrations := hr
      rw [Publisher.registrations_detach] at hr'
      exact (List.mem_filter.1 hr').1
  | abandon =>
      intro r hr
      exact (List.mem_append.1 hr).elim (List.mem_append_left _) nofun

/-- An observer that is new has just been attached, under the next number. -/
theorem Thread.Moves.arrives (hm : Moves body w t es w' t') (hs : w.publisher? p = some s)
    (hs' : w'.publisher? p = some s') :
    ∀ r ∈ s'.registrations, r ∈ s.registrations ∨
      r.id = s.nextId ∧
        ∃ k, t.focus = .run (.attach p r.observer.keeps r.observer.react k) := by
  obtain ⟨s'', hs'', hv⟩ := hm.view hs
  obtain rfl := Option.some.inj (hs''.symm.trans hs')
  have quiet : (∀ id, .queued id ∉ signals p es) → ∀ r ∈ s''.registrations,
      r ∈ s.registrations ∨ r.id = s.nextId ∧
        ∃ k, t.focus = .run (.attach p r.observer.keeps r.observer.react k) :=
    fun hl r hr => Or.inl (hv.registrations_from hl r hr)
  cases hm with
  | @attached q keeps o k u st hq =>
      by_cases hqp : q = p
      · subst hqp
        obtain rfl := Option.some.inj (hs.symm.trans hq)
        have hthere := (World.publisher?_enterAll (w := w) (p := q) s.monitors).trans hs
        obtain rfl := Option.some.inj
          ((World.publisher?_setPublisher_self hthere).symm.trans hs'')
        intro r hr
        rw [Publisher.registrations_enqueue] at hr
        rcases List.mem_append.1 hr with hold | hnew
        · exact Or.inl hold
        · rw [List.mem_singleton.1 hnew]
          exact Or.inr ⟨rfl, k, rfl⟩
      · exact quiet (by simp [hqp])
  | performed ha => exact quiet (by rw [signals_perform p ha]; exact fun _ => List.not_mem_nil)
  | popped => exact quiet (by rw [signals_report]; exact fun _ => List.not_mem_nil)
  | called | detached | published | amended =>
      refine quiet fun id hid => ?_
      grind [signals, Event.signal?]
  | resumed | unharmed | left | drained | observed | amendedSame | registered | swapped
  | contended | caught | expelled | abandoned | passed | busy | draining | panicked | entered
  | attempted | held | retried | publishedSame | amending | prepared | disposedAgain | tornDown =>
      exact quiet fun _ => List.not_mem_nil

/-- Only a publisher that queues an observer gives out a number. -/
theorem View.Move.nextId_le {x x' : View V P σ ε} {l : List (Signal V)} (hm : Move p x l x') :
    x.state.nextId ≤ x'.state.nextId := by
  cases hm with
  | other | busy | call | finish | detach | abandon => exact Nat.le_refl _
  | commit hf hc => exact Nat.le_of_eq (Publisher.numbers_commit hc).2.2.symm
  | enqueue => exact Nat.le_succ _
  | start hb =>
      obtain ⟨-, rfl⟩ := Publisher.beginDrain_eq_some hb
      exact Nat.le_refl _
  | pop hp =>
      rcases Publisher.pop_cases hp with ⟨u, rest, -, -, rfl⟩ | ⟨r, rest, -, -, rfl⟩ <;>
        exact Nat.le_refl _

/-! ## Who has which reaction -/

/-- Whether whoever has a number has a given reaction, and nobody else does. -/
structure View.Knows (x : View V P σ ε) (id : Nat) (react : Routine V P σ ε) : Prop where
  issued : id < x.state.nextId
  registrations : ∀ r ∈ x.state.registrations, r.id = id ↔ r.observer.react = react
  calls : ∀ c ∈ x.calls, c.id = id ↔ c.observer.react = react

namespace View.Knows

variable {id : Nat} {react : Routine V P σ ε} {x x' : View V P σ ε}

omit [BEq V] in
/-- Who has a reaction is up to the publisher and the calls due. -/
theorem same (h : x.Knows id react) (hstate : x'.state = x.state)
    (hcalls : ∀ c ∈ x'.calls, c ∈ x.calls) : x'.Knows id react :=
  ⟨hstate ▸ h.issued, hstate ▸ h.registrations, fun c hc => h.calls c (hcalls c hc)⟩

/-- Nobody gets a reaction that is known unless a program attaches it. -/
theorem move (h : (t.view p s).Knows id react) (hm : Thread.Moves body w t es w' t')
    (hs : w.publisher? p = some s) (hs' : w'.publisher? p = some s')
    (hno : ∀ keeps k, t.focus ≠ .run (.attach p keeps react k)) :
    (t'.view p s').Knows id react := by
  obtain ⟨s'', hs'', hv⟩ := hm.view hs
  obtain rfl := Option.some.inj (hs''.symm.trans hs')
  refine ⟨Nat.lt_of_lt_of_le h.issued hv.nextId_le, ?_, ?_⟩
  · intro r hr
    rcases hm.arrives hs hs' r hr with hold | ⟨hid, k, hattach⟩
    · exact h.registrations r hold
    · have hne : r.id ≠ id := hid ▸ Nat.ne_of_gt h.issued
      have hreact : r.observer.react ≠ react := fun he => hno _ k (he ▸ hattach)
      exact ⟨fun he => absurd he hne, fun he => absurd he hreact⟩
  · intro c hc
    rcases hv.calls_from c hc with hold | ⟨r, hr, hid, hobserver⟩
    · exact h.calls c hold
    · rw [← hid, ← hobserver]
      exact h.registrations r hr

end View.Knows

/-- Whoever is called under a number that is known has its reaction. -/
theorem View.Knows.called {id : Nat} {react : Routine V P σ ε} {x x' : View V P σ ε}
    {ls : List (Signal V)} {v : V} (h : x.Knows id react) (hm : View.Move p x ls x')
    (hcalled : .called id v ∈ ls) : x'.focus = .run (react v) := by
  obtain ⟨c, hc, hid, hf⟩ := hm.called hcalled
  rw [hf, (h.calls c hc).1 hid]

end Arrivals

/-! ## Who holds a number -/

section Holders

variable {w w' : World V P σ ε} {t t' : Thread V P σ ε} {p : PublisherRef} {id i : Nat}

/-- Only numbers given out are held. -/
structure Numbered (w : World V P σ ε) (t : Thread V P σ ε) : Prop where
  subscriptions : ∀ p id i, w.Detaches p id i → w.Issued p id
  frames : ∀ p id k, .register p id k ∈ t.stack → w.Issued p id

/-- A number of which nobody is a holder but one subscription at most. -/
structure Sole (p : PublisherRef) (id : Nat) (who : Option Nat) (w : World V P σ ε)
    (t : Thread V P σ ε) : Prop where
  issued : w.Issued p id
  subscriptions : ∀ i, w.Detaches p id i → who = some i
  frames : ∀ k, .register p id k ∉ t.stack

theorem World.Detaches.of_newSubscription {t : Option (Teardown V P σ ε)}
    (h : (w.newSubscription t).2.Detaches p id i) :
    w.Detaches p id i ∨ (i = w.subscriptions.size ∧ t = some (.detach p id)) := by
  have hget : (w.subscriptions.alloc t).get? i = some (some (.detach p id)) := h
  cases hold : w.subscriptions.get? i with
  | some x =>
      rw [Heap.get?_alloc_of_some _ _ _ _ hold] at hget
      exact Or.inl (hold.trans hget)
  | none =>
      have hlen : w.subscriptions.size ≤ i := List.getElem?_eq_none_iff.1 hold
      rcases Nat.lt_or_eq_of_le hlen with hlt | rfl
      · have hnone : (w.subscriptions.alloc t).get? i = none := by
          refine List.getElem?_eq_none_iff.2 ?_
          exact Nat.le_trans (Nat.le_of_eq (Heap.size_alloc w.subscriptions t)) hlt
        exact nomatch hnone.symm.trans hget
      · rw [Heap.get?_alloc_self] at hget
        exact Or.inr ⟨rfl, Option.some.inj hget⟩

theorem World.Detaches.of_dispose {j : Nat}
    (h : ({ w with subscriptions := w.subscriptions.set j none } : World V P σ ε).Detaches p id i) :
    w.Detaches p id i :=
  Heap.of_get?_set_none _ j i _ h

variable [BEq V] {body : P → Prog V P σ ε} {es : List (Event V ε)}

namespace Thread

/-- A subscription that detaches comes from a registration, and a registration that waits has
just been given the next number. -/
theorem Moves.holders (hm : Moves body w t es w' t') :
    (∀ p id i, w'.Detaches p id i → w.Detaches p id i ∨
      i = w.subscriptions.size ∧ ∃ k st, t.stack = .register p id k :: st) ∧
    (∀ p id k, .register p id k ∈ t'.stack → .register p id k ∈ t.stack ∨
      w'.Issued p id ∧ ¬ w.Issued p id) := by
  have same : ∀ {w' : World V P σ ε}, w'.subscriptions = w.subscriptions → ∀ p id i,
      w'.Detaches p id i → w.Detaches p id i ∨
        i = w.subscriptions.size ∧ ∃ k st, t.stack = .register p id k :: st := by
    intro w' he p id i h
    exact Or.inl ((congrArg (Heap.get? · i) he).symm.trans h)
  have keep : ∀ {fr : Frame V P σ ε} {st : List (Frame V P σ ε)} {w' : World V P σ ε},
      ∀ p id k, .register p id k ∈ st → .register p id k ∈ fr :: st ∨
        w'.Issued p id ∧ ¬ w.Issued p id :=
    fun _ _ _ h => Or.inl (List.mem_cons_of_mem _ h)
  cases hm with
  | resumed | unharmed | caught | left | expelled | drained | observed | amendedSame | amended
  | swapped | abandoned | passed => exact ⟨same rfl, keep⟩
  | called =>
      refine ⟨same rfl, fun p id k h => Or.inl ?_⟩
      simpa using h
  | popped | contended =>
      refine ⟨same rfl, fun p id k h => Or.inl ?_⟩
      simpa using h
  | busy | panicked => exact ⟨same rfl, fun _ _ _ h => Or.inl h⟩
  | draining | entered | attempted | held | retried =>
      refine ⟨same rfl, fun p id k h => Or.inl ?_⟩
      simpa using h
  | publishedSame | published =>
      refine ⟨same (by rw [World.enterAll_eq] <;> rfl), fun p id k h => Or.inl ?_⟩
      rcases mem_of_mem_leaving h with ⟨m, hm⟩ | h
      · exact nomatch hm
      · exact (List.mem_cons.1 h).resolve_left nofun
  | amending =>
      refine ⟨same (by rw [World.enterAll_eq]), fun p id k h => Or.inl ?_⟩
      rcases mem_of_mem_leaving ((List.mem_cons.1 h).resolve_left nofun) with ⟨m, hm⟩ | h
      · exact nomatch hm
      · exact (List.mem_cons.1 h).resolve_left nofun
  | performed ha =>
      exact ⟨fun p id i h => Or.inl (World.of_perform_teardown ha h), fun _ _ _ h => Or.inl h⟩
  | @registered v q n k st =>
      refine ⟨fun p id i h => h.of_newSubscription.imp_right fun ⟨hi, ht⟩ => ⟨hi, ?_⟩, keep⟩
      cases ht
      exact ⟨k, st, rfl⟩
  | @attached q keeps o k s st hq =>
      refine ⟨same (by rw [World.enterAll_eq]; rfl), ?_⟩
      intro p id k' h
      rcases mem_of_mem_leaving h with ⟨m, hm⟩ | h
      · exact nomatch hm
      rcases List.mem_cons.1 h with heq | hold
      · cases heq
        refine Or.inr ⟨⟨s.enqueue ⟨o, keeps⟩, ?_, Nat.lt_succ_self s.nextId⟩, ?_⟩
        · exact World.publisher?_enterAll_setPublisher hq
        · rintro ⟨s', hs', hlt⟩
          cases hq.symm.trans hs'
          exact Nat.lt_irrefl _ hlt
      · exact Or.inl hold
  | prepared =>
      refine ⟨fun p id i h => Or.inl ?_, fun _ _ _ h => Or.inl h⟩
      exact h.of_newSubscription.resolve_right fun h => nomatch h.2
  | disposedAgain => exact ⟨same rfl, fun _ _ _ h => Or.inl h⟩
  | tornDown =>
      refine ⟨fun p id i h => Or.inl h.of_dispose, fun p id k h => Or.inl ?_⟩
      exact (List.mem_cons.1 h).resolve_left nofun
  | detached =>
      exact ⟨fun p id i h => Or.inl (World.Detaches.of_dispose h), fun _ _ _ h => Or.inl h⟩

/-- A publisher goes on counting. -/
theorem Moves.issued (hm : Moves body w t es w' t') (h : w.Issued p id) : w'.Issued p id := by
  obtain ⟨s, hs, hlt⟩ := h
  obtain ⟨s', hs', hv⟩ := hm.view hs
  exact ⟨s', hs', Nat.lt_of_lt_of_le hlt hv.nextId_le⟩

end Thread

theorem Numbered.move (h : Numbered w t) (hm : Thread.Moves body w t es w' t') :
    Numbered w' t' := by
  obtain ⟨hsubs, hframes⟩ := hm.holders
  constructor
  · intro p id i hi
    rcases hsubs p id i hi with hold | ⟨-, k, st, hst⟩
    · exact hm.issued (h.subscriptions p id i hold)
    · exact hm.issued (h.frames p id k (hst ▸ List.mem_cons_self))
  · intro p id k hk
    rcases hframes p id k hk with hold | ⟨hnew, -⟩
    · exact hm.issued (h.frames p id k hold)
    · exact hnew

/-- Whatever clients do, only numbers given out are held. -/
theorem Reachable.numbered (h : Reachable body w t) : Numbered w t := by
  obtain ⟨store, c, es, hrun⟩ := h
  induction hrun with
  | refl => exact ⟨nofun, nofun⟩
  | step _ hstep _ ih => exact ih.move (Thread.moves_iff.2 hstep)
  | next _ _ _ _ ih => exact ⟨ih.subscriptions, nofun⟩

/-- Nobody gets hold of a number that is taken. -/
theorem Sole.move {who : Option Nat} (h : Sole p id who w t)
    (hm : Thread.Moves body w t es w' t') : Sole p id who w' t' := by
  obtain ⟨hsubs, hframes⟩ := hm.holders
  refine ⟨hm.issued h.issued, ?_, ?_⟩
  · intro i hi
    rcases hsubs p id i hi with hold | ⟨-, k, st, hst⟩
    · exact h.subscriptions i hold
    · exact absurd (hst ▸ List.mem_cons_self) (h.frames k)
  · intro k hk
    rcases hframes p id k hk with hold | ⟨-, hnew⟩
    · exact h.frames k hold
    · exact hnew h.issued

omit [BEq V] in
theorem World.detaches_congr (h : w'.subscriptions = w.subscriptions) :
    w'.Detaches p id i ↔ w.Detaches p id i := by
  rw [World.Detaches, World.Detaches, h]

omit [BEq V] in
/-- Who holds a number is up to the publisher, the subscriptions and the frames that wait for a
registration. -/
theorem Sole.same {who : Option Nat} (h : Sole p id who w t)
    (hp : w'.publisher? p = w.publisher? p) (hsubs : w'.subscriptions = w.subscriptions)
    (hstack : ∀ k, .register p id k ∈ t'.stack → .register p id k ∈ t.stack) :
    Sole p id who w' t' := by
  refine ⟨?_, fun i hi => h.subscriptions i ((World.detaches_congr hsubs).1 hi),
    fun k hk => h.frames k (hstack k hk)⟩
  obtain ⟨s, hs, hlt⟩ := h.issued
  exact ⟨s, hp.trans hs, hlt⟩

omit [BEq V] in
/-- The number of an observer that is queued is nobody else's. -/
theorem Sole.enqueue {s : Publisher V (Observer V P σ ε)} (h : Numbered w t)
    (hs : w.publisher? p = some s) (o : Observer V P σ ε)
    (hstack : ∀ fr ∈ t'.stack, fr ∈ s.leaving ∨ fr ∈ t.stack) :
    Sole p s.nextId none ((w.enterAll s.monitors).setPublisher p (s.enqueue o)) t' := by
  have hnew : ¬ w.Issued p s.nextId := by
    rintro ⟨s', hs', hlt⟩
    cases hs.symm.trans hs'
    exact Nat.lt_irrefl _ hlt
  have hsubs : ((w.enterAll s.monitors).setPublisher p (s.enqueue o)).subscriptions =
      w.subscriptions := by
    rw [World.enterAll_eq]
    rfl
  have hthere := (World.publisher?_enterAll s.monitors).trans hs
  refine ⟨⟨_, World.publisher?_setPublisher_self hthere, Nat.lt_succ_self _⟩, ?_, ?_⟩
  · exact fun i hi => absurd (h.subscriptions p _ i ((World.detaches_congr hsubs).1 hi)) hnew
  · intro k hk
    rcases hstack _ hk with hleave | hold
    · obtain ⟨m, -, hm⟩ := List.mem_map.1 hleave
      exact nomatch hm
    · exact hnew (h.frames p _ k hold)

/-- An observer is taken away only by a subscription that is disposed. -/
theorem Thread.Moves.detaches (hm : Thread.Moves body w t es w' t')
    (h : .detached id ∈ signals p es) : ∃ i, w.Detaches p id i ∧ ¬ w'.Detaches p id i := by
  cases hm with
  | @detached s q n r k st hs hq =>
      obtain ⟨rfl, rfl⟩ : q = p ∧ n = id := by
        by_cases hqp : q = p
        · simpa [hqp, eq_comm] using h
        · simp [hqp] at h
      refine ⟨s.index, hs, fun h' => ?_⟩
      have hget : (w.subscriptions.set s.index none).get? s.index = some none :=
        Heap.get?_set_self _ _ _ _ hs
      exact absurd (Option.some.inj (hget.symm.trans h')).symm (Option.some_ne_none _)
  | performed ha =>
      rw [signals_perform p ha] at h
      exact absurd h List.not_mem_nil
  | popped =>
      rw [signals_report] at h
      exact absurd h List.not_mem_nil
  | called | attached | published | amended => grind [signals, Event.signal?]
  | resumed | unharmed | left | drained | observed | amendedSame | registered | swapped
  | contended | caught | expelled | abandoned | passed | busy | draining | panicked | entered
  | attempted | held | retried | publishedSame | amending | prepared | disposedAgain | tornDown =>
      exact absurd h List.not_mem_nil

/-- A subscription stays as it is as long as it is not disposed. -/
theorem Thread.Moves.subscription_kept (hm : Thread.Moves body w t es w' t')
    {x : Option (Teardown V P σ ε)} (h : w.subscriptions.get? i = some x)
    (ht : ∀ s k, t.focus = .run (.dispose s k) → s.index ≠ i) :
    w'.subscriptions.get? i = some x := by
  cases hm with
  | registered | prepared => exact Heap.get?_alloc_of_some _ _ _ _ h
  | tornDown | detached => exact (Heap.get?_set_ne _ _ _ _ (ht _ _ rfl)).trans h
  | publishedSame | published | amending | attached =>
      rw [World.enterAll_eq]
      exact h
  | performed ha => exact World.perform_subscription? ha h
  | _ => exact h

/-- A subscription stays as it is until it is disposed. -/
theorem Thread.Moves.subscription (hm : Thread.Moves body w t es w' t')
    {x : Option (Teardown V P σ ε)} (h : w.subscriptions.get? i = some x) :
    w'.subscriptions.get? i = some x ∨ w'.subscriptions.get? i = some none := by
  by_cases ht : ∃ s k, t.focus = .run (.dispose s k) ∧ s.index = i
  · obtain ⟨f, st⟩ := t
    obtain ⟨s, k, rfl, rfl⟩ := ht
    cases hm with
    | disposedAgain => exact Or.inl h
    | tornDown hs => exact Or.inr (Heap.get?_set_self _ _ _ _ hs)
    | detached hs => exact Or.inr (Heap.get?_set_self _ _ _ _ hs)
  · exact Or.inl (hm.subscription_kept h fun s k hf hi => ht ⟨s, k, hf, hi⟩)

/-! ## Observers that only one subscription can take away -/

/-- An observer with a given reaction, whose subscription is the only one that can take it away.
Without a subscription it is still on its way to get one. -/
structure Enrolled (p : PublisherRef) (id : Nat) (react : Routine V P σ ε)
    (held : Option SubscriptionRef) (w : World V P σ ε) (t : Thread V P σ ε) : Prop where
  sole : Sole p id (held.map (·.index)) w t
  registered : (held = none ∨ ∃ i, w.Detaches p id i) →
    ∃ s, w.publisher? p = some s ∧ ∃ r ∈ s.registrations, r.id = id ∧ r.observer.react = react
  entry : ∀ x, held = some x →
    w.Detaches p id x.index ∨ w.subscriptions.get? x.index = some none

namespace Enrolled

variable {react : Routine V P σ ε} {held : Option SubscriptionRef}

omit [BEq V] in
/-- Who is enrolled is up to the publisher, the subscriptions and the frames that wait for a
registration. -/
theorem same (h : Enrolled p id react held w t) (hp : w'.publisher? p = w.publisher? p)
    (hsubs : w'.subscriptions = w.subscriptions)
    (hstack : ∀ k, .register p id k ∈ t'.stack → .register p id k ∈ t.stack) :
    Enrolled p id react held w' t' := by
  have hdetaches : ∀ {i}, w'.Detaches p id i ↔ w.Detaches p id i := World.detaches_congr hsubs
  refine ⟨h.sole.same hp hsubs hstack, ?_, ?_⟩
  · rw [hp]
    exact fun hor => h.registered (hor.imp_right fun ⟨i, hi⟩ => ⟨i, hdetaches.1 hi⟩)
  · intro x hx
    rw [hdetaches, hsubs]
    exact h.entry x hx

/-- Only disposal takes an observer away. -/
theorem move (h : Enrolled p id react held w t) (hm : Thread.Moves body w t es w' t')
    (hcalm : t'.Calm) : Enrolled p id react held w' t' := by
  have hsole := h.sole.move hm
  refine ⟨hsole, ?_, ?_⟩
  · intro hholder
    have hbefore : held = none ∨ ∃ i, w.Detaches p id i := by
      refine hholder.imp_right fun ⟨i, hi⟩ => ⟨i, ?_⟩
      rcases hm.holders.1 _ _ i hi with hold | ⟨-, k, st, hst⟩
      · exact hold
      · exact absurd (hst ▸ List.mem_cons_self) (h.sole.frames k)
    obtain ⟨q, hq, r, hr, hid, hreact⟩ := h.registered hbefore
    obtain ⟨q', hq', hv⟩ := hm.view hq
    refine ⟨q', hq', r, hv.registered hcalm hr fun hdetached => ?_, hid, hreact⟩
    rw [hid] at hdetached
    -- only one subscription can have taken the observer away, and that one is still there
    obtain ⟨i, hi, hi'⟩ := hm.detaches hdetached
    have hwho := h.sole.subscriptions i hi
    rcases hholder with rfl | ⟨j, hj⟩
    · exact nomatch hwho
    · obtain rfl := Option.some.inj (hwho.symm.trans (hsole.subscriptions j hj))
      exact hi' hj
  · intro x hx
    rcases h.entry x hx with hdetaches | hnone
    · exact hm.subscription hdetaches
    · exact Or.inr (or_self_iff.1 (hm.subscription hnone))

omit [BEq V] in
/-- An observer that is queued is enrolled from then on. -/
theorem enqueue {s : Publisher V (Observer V P σ ε)} (h : Numbered w t)
    (hs : w.publisher? p = some s) (o : Observer V P σ ε)
    (hstack : ∀ fr ∈ t'.stack, fr ∈ s.leaving ∨ fr ∈ t.stack) :
    Enrolled p s.nextId o.react none
      ((w.enterAll s.monitors).setPublisher p (s.enqueue o)) t' := by
  have hthere := (World.publisher?_enterAll s.monitors).trans hs
  have hreg : ⟨s.nextId, o⟩ ∈ (s.enqueue o).registrations := by
    rw [Publisher.registrations_enqueue]
    exact List.mem_append_right _ List.mem_cons_self
  exact ⟨.enqueue h hs o hstack,
    fun _ => ⟨_, World.publisher?_setPublisher_self hthere, _, hreg, rfl, rfl⟩, nofun⟩

omit [BEq V] in
/-- The subscription that is made for an observer is the only one that can take it away. -/
theorem newSubscription (h : Enrolled p id react none w t)
    (hstack : ∀ k, .register p id k ∈ t'.stack → .register p id k ∈ t.stack) :
    Enrolled p id react (some ⟨w.subscriptions.size⟩)
      (w.newSubscription (some (.detach p id))).2 t' := by
  refine ⟨⟨h.sole.issued, fun i hi => ?_, fun k hk => h.sole.frames k (hstack k hk)⟩,
    fun _ => h.registered (Or.inl rfl), fun x hx => ?_⟩
  · rcases World.Detaches.of_newSubscription hi with hbefore | ⟨rfl, -⟩
    · exact nomatch h.sole.subscriptions i hbefore
    · rfl
  · obtain rfl := Option.some.inj hx
    exact Or.inl (Heap.get?_alloc_self _ _)

omit [BEq V] in
/-- A subscription is made for another observer. -/
theorem newSubscription_ne {q : PublisherRef} {n : Nat} (h : Enrolled p id react held w t)
    (hne : p = q → id ≠ n)
    (hstack : ∀ k, .register p id k ∈ t'.stack → .register p id k ∈ t.stack) :
    Enrolled p id react held (w.newSubscription (some (.detach q n))).2 t' := by
  have hsubs : ∀ {i}, (w.newSubscription (some (.detach q n))).2.Detaches p id i →
      w.Detaches p id i := by
    intro i hi
    rcases World.Detaches.of_newSubscription hi with hbefore | ⟨-, hnew⟩
    · exact hbefore
    · obtain ⟨hp, hid⟩ := Teardown.detach.inj (Option.some.inj hnew)
      exact absurd hid.symm (hne hp.symm)
  refine ⟨⟨h.sole.issued, fun i hi => h.sole.subscriptions i (hsubs hi),
      fun k hk => h.sole.frames k (hstack k hk)⟩,
    fun hor => h.registered (hor.imp_right fun ⟨i, hi⟩ => ⟨i, hsubs hi⟩), fun x hx => ?_⟩
  exact (h.entry x hx).imp (Heap.get?_alloc_of_some _ _ _ _) (Heap.get?_alloc_of_some _ _ _ _)

end Enrolled

/-! ## Numbers that were given out -/

omit [BEq V] in
/-- Whoever is registered or queued has one of the numbers of the publisher. -/
theorem Publisher.id_mem_ids {O : Type} {s : Publisher V O} {r : Registration O}
    (h : r ∈ s.registrations) : r.id ∈ s.ids := by
  rcases List.mem_append.1 h with hobs | harr
  · exact List.mem_append_left _ (List.mem_map_of_mem hobs)
  · obtain ⟨a, ha, hr⟩ := List.mem_filterMap.1 harr
    refine List.mem_append_right _ (List.mem_filterMap.2 ⟨a, ha, ?_⟩)
    cases a with
    | emit v => exact nomatch hr
    | attach r' =>
        obtain rfl := Option.some.inj hr
        rfl

omit [BEq V] in
theorem Intact.issued {s : Publisher V (Observer V P σ ε)} (h : Intact p s w t)
    {r : Registration (Observer V P σ ε)} (hr : r ∈ s.registrations) : w.Issued p r.id :=
  ⟨s, h.found, (List.pairwise_append.1 h.lined).2.2 _ (Publisher.id_mem_ids hr) _
    (List.mem_singleton_self _)⟩

/-- Whoever has yet to be called was given a number. -/
theorem Reachable.issued {s : Publisher V (Observer V P σ ε)} (h : Reachable body w t)
    (hs : w.publisher? p = some s) : ∀ c ∈ (t.view p s).calls, w.Issued p c.id := by
  obtain ⟨store, c, es, hrun⟩ := h
  induction hrun generalizing s with
  | refl => exact nomatch hs
  | @step es es' w w' t t' hprev hstep _ ih =>
      have hreach : Reachable body w t := ⟨store, c, es, hprev⟩
      have hm := Thread.moves_iff.2 hstep
      cases hp : w.publisher? p with
      | none =>
          obtain ⟨-, hset, -⟩ := hm.unknown hp (hreach.unknown hp)
          rw [View.calls_of_settled hset]
          exact nofun
      | some s₁ =>
          obtain ⟨s₂, hs₂, hv⟩ := hm.view hp
          obtain rfl := Option.some.inj (hs.symm.trans hs₂)
          intro d hd
          rcases hv.calls_from d hd with hold | ⟨r, hr, hid, -⟩
          · exact hm.issued (ih hp d hold)
          · exact hm.issued (hid ▸ (hreach.intact hp).issued hr)
  | next =>
      rw [View.calls_of_settled (Thread.settled_start p _)]
      exact nofun

omit [BEq V] in
/-- Whoever has yet to be called is in a frame. -/
theorem Thread.mem_stack_of_mem_calls {s : Publisher V (Observer V P σ ε)}
    {c : Call V (Observer V P σ ε)} (h : c ∈ (t.view p s).calls) :
    ∃ calls, .deliver p calls ∈ t.stack ∧ c ∈ calls := by
  obtain ⟨calls, hdue, hc⟩ := List.mem_flatten.1 h
  obtain ⟨fr, hfr, hcalls⟩ := List.mem_filterMap.1 hdue
  exact ⟨calls, Frame.eq_deliver_of_calls? hcalls ▸ hfr, hc⟩

/-- Whoever is queued with a reaction that nobody had is known by the next number. -/
theorem View.Knows.enqueue {s : Publisher V (Observer V P σ ε)} {o : Observer V P σ ε}
    {react : Routine V P σ ε} (hreach : Reachable body w t) (hs : w.publisher? p = some s)
    (ho : o.react = react) (hobs : ∀ r ∈ s.registrations, r.observer.react ≠ react)
    (hdue : ∀ c ∈ (t.view p s).calls, c.observer.react ≠ react)
    (hcalls : (t'.view p (s.enqueue o)).calls = (t.view p s).calls) :
    (t'.view p (s.enqueue o)).Knows s.nextId react := by
  have hissued : ∀ id, w.Issued p id → id ≠ s.nextId := by
    rintro id ⟨s', hs', hlt⟩
    obtain rfl := Option.some.inj (hs.symm.trans hs')
    exact Nat.ne_of_lt hlt
  refine ⟨Nat.lt_succ_self _, ?_, ?_⟩
  · intro r hr
    have hr' : r ∈ (s.enqueue o).registrations := hr
    rw [Publisher.registrations_enqueue] at hr'
    rcases List.mem_append.1 hr' with hold | hnew
    · refine ⟨fun he => absurd he (hissued _ ((hreach.intact hs).issued hold)), fun he => ?_⟩
      exact absurd he (hobs r hold)
    · obtain rfl := List.mem_singleton.1 hnew
      exact ⟨fun _ => ho, fun _ => rfl⟩
  · intro c hc
    rw [hcalls] at hc
    exact ⟨fun he => absurd he (hissued _ (hreach.issued hs c hc)),
      fun he => absurd he (hdue c hc)⟩

end Holders

end ReactiveCells
