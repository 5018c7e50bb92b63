import ReactiveCells.Proofs.View

/-!
# The discipline of a publisher

What is true of one publisher at every moment, whatever the observers do. Three invariants of its
view, kept by every `View.Move`:

* `View.Orderly`, in every run: at most one drain is in progress, and nothing waits in the queue
  unless a drain is in progress or about to begin.
* `View.Lined`, in every run: the observers registered and queued stand in order of subscription.
* `View.Sound`, in runs without panics: the value held is the one committed last, the calls due
  hand over the value delivered last, and their observers stand in order, too.

Main statements: `Orderly.move`, `Lined.move`, `Sound.move` (the steps), and `Orderly.idle` (a
settled publisher has an empty queue).
-/

namespace ReactiveCells

variable {V P σ ε : Type}

/-- The values of queued changes. -/
def Pending.values {O : Type} (q : List (Pending V O)) : List V :=
  q.filterMap value?

/-- The numbers of queued registrations. -/
def Pending.numbers {O : Type} (q : List (Pending V O)) : List Nat :=
  q.filterMap id?

namespace Publisher

variable {O : Type} {s s' : Publisher V O}

/-- The queued changes. -/
def changes (s : Publisher V O) : List V :=
  Pending.values s.pending

/-- The numbers of the queued registrations. -/
def waiting (s : Publisher V O) : List Nat :=
  Pending.numbers s.pending

/-- The numbers of the registered observers. -/
def present (s : Publisher V O) : List Nat :=
  s.observers.map (·.id)

/-- The calls that hand a change to all registered observers. -/
def round (s : Publisher V O) (v : V) : List (Call V O) :=
  s.observers.map fun r => ⟨r.id, v, r.observer⟩

theorem map_id_round (s : Publisher V O) (v : V) : (s.round v).map (·.id) = s.present :=
  List.map_map

theorem value_of_mem_round {v : V} {c : Call V O} (h : c ∈ s.round v) : c.value = v := by
  obtain ⟨r, -, rfl⟩ := List.mem_map.1 h
  rfl

theorem timeline_eq (s : Publisher V O) : s.timeline = s.delivered :: s.changes := rfl

theorem ids_eq (s : Publisher V O) : s.ids = s.present ++ s.waiting := rfl

section Head

variable {v : V} {r : Registration O} {rest : List (Pending V O)}

theorem changes_of_emit (h : s.pending = .emit v :: rest) :
    s.changes = v :: Pending.values rest := by
  rw [changes, h]
  rfl

theorem waiting_of_emit (h : s.pending = .emit v :: rest) :
    s.waiting = Pending.numbers rest := by
  rw [waiting, h]
  rfl

theorem changes_of_attach (h : s.pending = .attach r :: rest) :
    s.changes = Pending.values rest := by
  rw [changes, h]
  rfl

theorem waiting_of_attach (h : s.pending = .attach r :: rest) :
    s.waiting = r.id :: Pending.numbers rest := by
  rw [waiting, h]
  rfl

end Head

/-- A commit appends its value to the queue and leaves the rest. -/
theorem commit_eq_some [BEq V] {v : V} (h : s.commit v = some s') :
    s' = { s with current := v, pending := s.pending ++ [.emit v] } := by
  unfold commit at h
  split at h
  · exact nomatch h
  · exact (Option.some.inj h).symm

/-- A commit is made only if the value differs from the one held. -/
theorem ne_of_commit [BEq V] {v : V} (h : s.commit v = some s') : (s.current == v) = false := by
  cases he : s.current == v with
  | false => rfl
  | true =>
      rw [(commit_eq_none_iff s v).2 he] at h
      exact nomatch h

theorem changes_commit [BEq V] {v : V} (h : s.commit v = some s') :
    s'.changes = s.changes ++ [v] :=
  (List.cons.inj (timeline_commit h).1).2

theorem changes_commit_ne_nil [BEq V] {v : V} (h : s.commit v = some s') : s'.changes ≠ [] := by
  rw [changes_commit h]
  exact List.append_ne_nil_of_right_ne_nil _ nofun

theorem changes_enqueue (s : Publisher V O) (o : O) : (s.enqueue o).changes = s.changes :=
  (List.cons.inj (timeline_enqueue s o)).2

theorem changes_of_empty (h : s.pending = []) : s.changes = [] := by
  rw [changes, h]
  rfl

theorem waiting_of_empty (h : s.pending = []) : s.waiting = [] := by
  rw [waiting, h]
  rfl

/-- A commit concerns no registration. -/
theorem numbers_commit [BEq V] {v : V} (h : s.commit v = some s') :
    s'.waiting = s.waiting ∧ s'.present = s.present ∧ s'.nextId = s.nextId := by
  obtain rfl := commit_eq_some h
  refine ⟨?_, rfl, rfl⟩
  show Pending.numbers (s.pending ++ [Pending.emit v]) = Pending.numbers s.pending
  rw [Pending.numbers, List.filterMap_append]
  exact List.append_nil _

theorem waiting_enqueue (s : Publisher V O) (o : O) :
    (s.enqueue o).waiting = s.waiting ++ [s.nextId] := by
  show Pending.numbers (s.pending ++ [Pending.attach ⟨s.nextId, o⟩]) = _
  rw [Pending.numbers, List.filterMap_append]
  rfl

theorem beginDrain_eq_some (h : s.beginDrain = some s') :
    s.draining = false ∧ s' = { s with draining := true } := by
  unfold beginDrain at h
  split at h
  · exact nomatch h
  · next hd => exact ⟨Bool.eq_false_iff.2 hd, (Option.some.inj h).symm⟩

theorem beginDrain_eq_none (h : s.beginDrain = none) : s.draining = true := by
  unfold beginDrain at h
  split at h
  · next hd => exact hd
  · exact nomatch h

/-- Taking an entry hands out a change or registers an observer. -/
theorem pop_cases {d : Delivery V O} (h : s.pop = some (d, s')) :
    (∃ v rest, s.pending = .emit v :: rest ∧
      d = .round (s.round v) ∧
      s' = { s with delivered := v, pending := rest }) ∨
    (∃ r rest, s.pending = .attach r :: rest ∧
      d = .replay ⟨r.id, s.delivered, r.observer⟩ (s.observers.length + 1) ∧
      s' = { s with observers := s.observers ++ [r], pending := rest }) := by
  unfold pop at h
  split at h
  · exact nomatch h
  · next v rest hp =>
      cases h
      exact Or.inl ⟨v, rest, hp, rfl, rfl⟩
  · next r rest hp =>
      cases h
      exact Or.inr ⟨r, rest, hp, rfl, rfl⟩

theorem pop_draining {d : Delivery V O} (h : s.pop = some (d, s')) : s'.draining = s.draining := by
  rcases pop_cases h with ⟨v, rest, -, -, rfl⟩ | ⟨r, rest, -, -, rfl⟩ <;> rfl

theorem changes_detach (s : Publisher V O) (id : Nat) : (s.detach id).changes = s.changes :=
  (List.cons.inj (timeline_detach s id)).2

theorem waiting_detach (s : Publisher V O) (id : Nat) :
    (s.detach id).waiting = s.waiting.filter (· != id) := by
  show (s.pending.filter _).filterMap _ = (s.pending.filterMap _).filter _
  induction s.pending with
  | nil => rfl
  | cons a l ih => cases a <;> grind [Pending.id?]

theorem present_detach (s : Publisher V O) (id : Nat) :
    (s.detach id).present = s.present.filter (· != id) := by
  show (s.observers.filter _).map _ = (s.observers.map _).filter _
  rw [List.filter_map]
  rfl

end Publisher

namespace View

variable {p : PublisherRef} {x x' : View V P σ ε} {l : List (Signal V)}

/-- The calls due, those of the latest drain first. -/
def calls (x : View V P σ ε) : List (Call V (Observer V P σ ε)) :=
  x.due.flatten

/-- Whenever no drain is in progress no call is due. -/
theorem calls_of_settled {s : Publisher V (Observer V P σ ε)} {t : Thread V P σ ε}
    (h : t.Settled p) : (t.view p s).calls = [] :=
  congrArg List.flatten h.due

/-- A round is for the observers registered. -/
theorem map_id_calls_round (s s' : Publisher V (Observer V P σ ε)) (v : V) (f : Focus V P σ ε) :
    (View.calls ⟨s', [(Delivery.round (s.round v)).calls], f⟩).map Call.id = s.present := by
  show (s.round v ++ []).map Call.id = s.present
  rw [List.append_nil, Publisher.map_id_round]

/-- A program that is started finds no more calls due than the last one left. -/
theorem calls_start {s : Publisher V (Observer V P σ ε)} {t : Thread V P σ ε}
    (h : t.Settled p) (c : Prog V P σ ε) : ((Thread.start c).view p s).calls = (t.view p s).calls :=
  congrArg List.flatten h.due.symm

/-- At most one drain is in progress, and the publisher knows whether one is. -/
def Single (x : View V P σ ε) : Prop :=
  x.due.length = if x.state.draining then 1 else 0

/-- At most one drain is in progress, and nothing waits for a drain that nobody will make. -/
structure Orderly (p : PublisherRef) (x : View V P σ ε) : Prop where
  drains : x.due.length = if x.state.draining then 1 else 0
  awake : x.state.pending = [] ∨ x.state.draining = true ∨ x.focus = .drain p

theorem Orderly.single (h : Orderly p x) : Single x :=
  h.drains

/-- Whoever has no drain in progress is not marked as draining. -/
theorem Single.resting (h : Single x) (hd : x.due = []) : x.state.draining = false := by
  cases hb : x.state.draining with
  | false => rfl
  | true =>
      rw [Single, hd, hb] at h
      exact nomatch h

/-- A drain in progress is the only one. -/
theorem Single.only {calls : List (Call V (Observer V P σ ε))}
    {due : List (List (Call V (Observer V P σ ε)))} (h : Single x) (hd : x.due = calls :: due) :
    x.state.draining = true ∧ due = [] := by
  cases hb : x.state.draining with
  | false =>
      rw [Single, hd, hb] at h
      exact nomatch h
  | true =>
      rw [Single, hd, hb] at h
      exact ⟨rfl, List.eq_nil_of_length_eq_zero (Nat.succ.inj h)⟩

/-- A settled publisher is not draining and has an empty queue. -/
theorem Orderly.idle (h : Orderly p x) (hd : x.due = []) (hf : x.focus ≠ .drain p) :
    x.state.draining = false ∧ x.state.pending = [] := by
  have hdr : x.state.draining = false := h.single.resting hd
  refine ⟨hdr, ?_⟩
  rcases h.awake with hp | hb | hfd
  · exact hp
  · rw [hdr] at hb; exact nomatch hb
  · exact absurd hfd hf

theorem Orderly.only {calls : List (Call V (Observer V P σ ε))}
    {due : List (List (Call V (Observer V P σ ε)))} (h : Orderly p x) (hd : x.due = calls :: due) :
    x.state.draining = true ∧ due = [] :=
  h.single.only hd

/-- However a publisher changes, at most one drain of it is in progress. -/
theorem Single.move [BEq V] (h : Single x) (hm : Move p x l x') : Single x' := by
  cases hm with
  | other | enqueue | busy | call | detach => exact h
  | commit hf hc =>
      obtain rfl := Publisher.commit_eq_some hc
      exact h
  | @start s s' due hb =>
      obtain ⟨hd, rfl⟩ := Publisher.beginDrain_eq_some hb
      simp only [Single, hd] at h
      show due.length + 1 = 1
      rw [h]
      rfl
  | pop hp =>
      rw [Single, ← Publisher.pop_draining hp] at h
      exact h
  | finish | abandon =>
      obtain ⟨-, rfl⟩ := h.only rfl
      exact rfl

/-- A publisher that was just made is in order. -/
theorem orderly_new (guard : Option LockId) (v : V) (f : Focus V P σ ε) :
    Orderly p ⟨.new guard v, [], f⟩ :=
  ⟨rfl, Or.inl rfl⟩

/-- After a move nothing waits, a drain is in progress or about to begin, or the move left all this
to others. -/
theorem Single.awake [BEq V] (h : Single x) (hm : Move p x l x') :
    (x'.state.pending = [] ∨ x'.state.draining = true ∨ x'.focus = .drain p) ∨
      (x.focus ≠ .drain p ∧ x.state.pending ≠ [] ∧ x'.state.draining = x.state.draining) := by
  cases hm with
  | @other s due f f' hf hf' =>
      by_cases hp : s.pending = []
      · exact Or.inl (Or.inl hp)
      · exact Or.inr ⟨hf, hp, rfl⟩
  | commit | enqueue => exact Or.inl (Or.inr (Or.inr rfl))
  | start hb =>
      obtain ⟨-, rfl⟩ := Publisher.beginDrain_eq_some hb
      exact Or.inl (Or.inr (Or.inl rfl))
  | busy hb => exact Or.inl (Or.inr (Or.inl (Publisher.beginDrain_eq_none hb)))
  | call => exact Or.inl (Or.inr (Or.inl (h.only rfl).1))
  | pop hp => exact Or.inl (Or.inr (Or.inl ((Publisher.pop_draining hp).trans (h.only rfl).1)))
  | @finish s due v hp => exact Or.inl (Or.inl ((Publisher.pop_eq_none_iff s).1 hp))
  | @detach s due f f' id hf hf' =>
      by_cases hp : s.pending = []
      · refine Or.inl (Or.inl ?_)
        show s.pending.filter _ = []
        rw [hp]
        rfl
      · exact Or.inr ⟨hf, hp, rfl⟩
  | abandon => exact Or.inl (Or.inl rfl)

theorem Orderly.move [BEq V] (h : Orderly p x) (hm : Move p x l x') : Orderly p x' := by
  refine ⟨h.single.move hm, ?_⟩
  rcases h.single.awake hm with hdone | ⟨hf, hq, hsame⟩
  · exact hdone
  · rcases h.awake with hp | hb | hfd
    · exact absurd hp hq
    · exact Or.inr (Or.inl (hsame.trans hb))
    · exact absurd hfd hf

/-- The observers registered and queued stand in order of subscription. -/
def Lined (x : View V P σ ε) : Prop :=
  (x.state.present ++ x.state.waiting ++ [x.state.nextId]).Pairwise (· < ·)

theorem lined_new (guard : Option LockId) (v : V) (f : Focus V P σ ε) :
    Lined ⟨.new guard v, [], f⟩ :=
  List.pairwise_singleton _ _

/-- The next number is nobody's. -/
theorem Lined.nextId_notMem (h : Lined x) : x.state.nextId ∉ x.state.ids := fun hm =>
  Nat.lt_irrefl _ ((List.pairwise_append.1 h).2.2 _ hm _ (List.mem_singleton_self _))

/-- No observer is registered and queued, or either of them twice. -/
theorem Lined.nodup (h : Lined x) : x.state.ids.Nodup :=
  (List.pairwise_append.1 h).1.imp Nat.ne_of_lt

/-- Counting on keeps a list increasing. -/
theorem pairwise_succ {ns : List Nat} {n : Nat} (h : (ns ++ [n]).Pairwise (· < ·)) :
    (ns ++ [n] ++ [n + 1]).Pairwise (· < ·) := by
  rw [List.pairwise_append]
  refine ⟨h, List.pairwise_singleton _ _, ?_⟩
  intro a ha b hb
  rw [List.mem_singleton] at hb
  subst hb
  rcases List.mem_append.1 ha with hn | hn
  · have := (List.pairwise_append.1 h).2.2 a hn n (List.mem_singleton_self n)
    omega
  · rw [List.mem_singleton] at hn
    omega

theorem Lined.move [BEq V] (h : Lined x) (hm : Move p x l x') : Lined x' := by
  cases hm with
  | other | busy | call | finish => exact h
  | start hb =>
      obtain ⟨-, rfl⟩ := Publisher.beginDrain_eq_some hb
      exact h
  | @commit s s' due f v hf hc =>
      obtain ⟨hw, hpr, hn⟩ := Publisher.numbers_commit hc
      show (s'.present ++ s'.waiting ++ [s'.nextId]).Pairwise (· < ·)
      rw [hw, hpr, hn]
      exact h
  | @enqueue s due f o hf =>
      show (s.present ++ (s.enqueue o).waiting ++ [s.nextId + 1]).Pairwise (· < ·)
      rw [Publisher.waiting_enqueue, ← List.append_assoc]
      exact pairwise_succ h
  | @pop s d s' due v hp =>
      have hold : (s.present ++ s.waiting ++ [s.nextId]).Pairwise (· < ·) := h
      -- a registration goes from the head of the queue to the end of the observers
      rcases Publisher.pop_cases hp with ⟨u, rest, hq, rfl, rfl⟩ | ⟨r, rest, hq, rfl, rfl⟩
      · rw [Publisher.waiting_of_emit hq] at hold
        exact hold
      · rw [Publisher.waiting_of_attach hq] at hold
        show ((s.observers ++ [r]).map (·.id) ++ Pending.numbers rest ++
          [s.nextId]).Pairwise (· < ·)
        rw [List.map_append, List.append_assoc (s.observers.map _)]
        exact hold
  | @detach s due f f' id hf hf' =>
      have hw : (s.detach id).waiting.Sublist s.waiting := by
        rw [Publisher.waiting_detach]
        exact List.filter_sublist
      have hpr : (s.detach id).present.Sublist s.present := by
        rw [Publisher.present_detach]
        exact List.filter_sublist
      exact List.Pairwise.sublist ((hpr.append hw).append (List.Sublist.refl _)) h
  | @abandon s calls due text =>
      have hpr : (s.present ++ [] ++ [s.nextId]).Sublist (s.present ++ s.waiting ++ [s.nextId]) :=
        ((List.Sublist.refl _).append (List.nil_sublist _)).append (List.Sublist.refl _)
      exact List.Pairwise.sublist hpr h

/-- What is true of a publisher when nothing has panicked since it was made. -/
structure Sound (x : View V P σ ε) : Prop where
  /-- The value held was committed last. -/
  current : x.state.timeline.getLast? = some x.state.current
  lined : Lined x
  /-- Every call due hands over the value delivered last. -/
  handed : ∀ c ∈ x.calls, c.value = x.state.delivered
  /-- The calls due stand in order of subscription, before all that is queued. -/
  inLine : (x.calls.map (·.id) ++ x.state.waiting ++ [x.state.nextId]).Pairwise (· < ·)

theorem sound_new (guard : Option LockId) (v : V) (f : Focus V P σ ε) :
    Sound ⟨.new guard v, [], f⟩ :=
  ⟨rfl, lined_new guard v f, nofun, List.pairwise_singleton _ _⟩

/-- Taking an entry keeps a publisher sound: what is due afterwards is what the entry makes due. -/
theorem Sound.pop {s s' : Publisher V (Observer V P σ ε)} {d : Delivery V (Observer V P σ ε)}
    {due : List (List (Call V (Observer V P σ ε)))} {f : Focus V P σ ε}
    (h : Sound ⟨s, [] :: due, f⟩) (ho : Single ⟨s, [] :: due, f⟩) (hp : s.pop = some (d, s'))
    (hlined : Lined ⟨s', d.calls :: due, f⟩) : Sound ⟨s', d.calls :: due, f⟩ := by
  obtain ⟨-, rfl⟩ := ho.only rfl
  have hcur := h.current
  have hold : (s.present ++ s.waiting ++ [s.nextId]).Pairwise (· < ·) := h.lined
  rcases Publisher.pop_cases hp with ⟨u, rest, hq, rfl, rfl⟩ | ⟨r, rest, hq, rfl, rfl⟩
  · -- a round: the calls due are for the observers registered, with the value just delivered
    have hw := Publisher.waiting_of_emit hq
    have hc := Publisher.changes_of_emit hq
    refine ⟨?_, hlined, ?_, ?_⟩
    · show (u :: Pending.values rest).getLast? = some s.current
      rw [← hc]
      rw [Publisher.timeline_eq, hc, List.getLast?_cons_cons, ← hc] at hcur
      exact hcur
    · intro c hcalls
      rcases List.mem_append.1 hcalls with hc | hc
      · exact Publisher.value_of_mem_round hc
      · exact nomatch hc
    · show ((s.round u ++ []).map Call.id ++ Pending.numbers rest ++
        [s.nextId]).Pairwise (· < ·)
      rw [List.append_nil, Publisher.map_id_round, ← hw]
      exact hold
  · -- a replay: the only call due is for the observer just registered
    have hw := Publisher.waiting_of_attach hq
    have hc := Publisher.changes_of_attach hq
    rw [hw, List.append_assoc] at hold
    refine ⟨?_, hlined, ?_, ?_⟩
    · show (s.delivered :: Pending.values rest).getLast? = some s.current
      rw [← hc]
      exact hcur
    · intro c hcalls
      rcases List.mem_cons.1 hcalls with rfl | hc
      · rfl
      · exact nomatch hc
    · show (r.id :: Pending.numbers rest ++ [s.nextId]).Pairwise (· < ·)
      exact (List.pairwise_append.1 hold).2.1

/-- A publisher stays sound as long as no panic ends a drain of it. -/
theorem Sound.kept [BEq V] (h : Sound x) (ho : Single x) (hm : Move p x l x')
    (hkept : x'.focus.Calm ∨ x.due.length ≤ x'.due.length) : Sound x' := by
  have hlined : Lined x' := h.lined.move hm
  cases hm with
  | other | busy => exact ⟨h.current, hlined, h.handed, h.inLine⟩
  | start hb =>
      obtain ⟨-, rfl⟩ := Publisher.beginDrain_eq_some hb
      exact ⟨h.current, hlined, h.handed, h.inLine⟩
  | finish => exact ⟨h.current, hlined, h.handed, h.inLine⟩
  | @commit s s' due f v hf hc =>
      obtain ⟨ht, hcur⟩ := Publisher.timeline_commit hc
      obtain ⟨hw, -, hn⟩ := Publisher.numbers_commit hc
      refine ⟨?_, hlined, ?_, ?_⟩
      · show s'.timeline.getLast? = some s'.current
        rw [ht, hcur]
        exact List.getLast?_concat
      · obtain rfl := Publisher.commit_eq_some hc
        exact h.handed
      · show (_ ++ s'.waiting ++ [s'.nextId]).Pairwise (· < ·)
        rw [hw, hn]
        exact h.inLine
  | @enqueue s due f o hf =>
      refine ⟨?_, hlined, h.handed, ?_⟩
      · show (s.enqueue o).timeline.getLast? = _
        rw [Publisher.timeline_enqueue]
        exact h.current
      · show (_ ++ (s.enqueue o).waiting ++ [s.nextId + 1]).Pairwise (· < ·)
        rw [Publisher.waiting_enqueue, ← List.append_assoc]
        exact pairwise_succ h.inLine
  | call =>
      refine ⟨h.current, hlined, ?_, ?_⟩
      · intro c hc
        exact h.handed c (List.mem_cons_of_mem _ hc)
      · exact (List.pairwise_cons.1 h.inLine).2
  | pop hp => exact h.pop ho hp hlined
  | @detach s due f f' id hf hf' =>
      have hw : (s.detach id).waiting.Sublist s.waiting := by
        rw [Publisher.waiting_detach]
        exact List.filter_sublist
      refine ⟨?_, hlined, h.handed, ?_⟩
      · show (s.detach id).timeline.getLast? = _
        rw [Publisher.timeline_detach]
        exact h.current
      · exact h.inLine.sublist (((List.Sublist.refl _).append hw).append (List.Sublist.refl _))
  | abandon => exact hkept.elim False.elim fun hle => absurd hle (Nat.not_succ_le_self _)

theorem Sound.move [BEq V] (h : Sound x) (ho : Orderly p x) (hm : Move p x l x')
    (hcalm : x'.focus.Calm) : Sound x' :=
  h.kept ho.single hm (Or.inl hcalm)

end View

end ReactiveCells
