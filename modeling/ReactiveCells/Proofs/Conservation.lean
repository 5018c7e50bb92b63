import ReactiveCells.Proofs.Upcoming

/-!
# Conservation — what was received and what is owed

The signals of a run tell which values a publisher held one after another, where each observer
subscribed, and what was handed to whom. In a run without panics nothing is skipped or doubled:
what an observer has received, the calls due to it and what the queue holds for it make up all
values from the one held when it subscribed.

Main statement: `Faithful.move` — every `View.Move` keeps that.
-/

namespace ReactiveCells

variable {V P σ ε : Type}

/-! ## What signals tell -/

/-- The value of a commit. -/
def Signal.commit? : Signal V → Option V
  | .committed v => some v
  | _ => none

/-- The number of a new subscription. -/
def Signal.subscription? : Signal V → Option Nat
  | .queued id => some id
  | _ => none

/-- The value handed to an observer. -/
def Signal.handedTo? (id : Nat) : Signal V → Option V
  | .called i v => if i = id then some v else none
  | _ => none

theorem Signal.handedTo?_called_ne {i id : Nat} (h : i ≠ id) (v : V) :
    (Signal.called i v).handedTo? id = none :=
  if_neg h

/-- The values committed, in order. -/
def commits (ls : List (Signal V)) : List V :=
  ls.filterMap Signal.commit?

/-- The numbers of the subscriptions made, in order. -/
def subscribed (ls : List (Signal V)) : List Nat :=
  ls.filterMap Signal.subscription?

/-- The values handed to an observer, in order. -/
def received (id : Nat) (ls : List (Signal V)) : List V :=
  ls.filterMap (Signal.handedTo? id)

/-- How many commits were made before an observer subscribed. -/
def startOf (id : Nat) : List (Signal V) → Nat
  | [] => 0
  | .queued i :: ls => if i = id then 0 else startOf id ls
  | .committed _ :: ls => startOf id ls + 1
  | _ :: ls => startOf id ls

/-- Which of the values held, counted from the initial one, an observer is to be handed next. -/
def turn (id : Nat) (ls : List (Signal V)) : Nat :=
  startOf id ls + (received id ls).length

section Signals

variable {id : Nat} {ls ls' : List (Signal V)} {l : Signal V}

theorem commits_append (ls ls' : List (Signal V)) :
    commits (ls ++ ls') = commits ls ++ commits ls' :=
  List.filterMap_append

theorem subscribed_append (ls ls' : List (Signal V)) :
    subscribed (ls ++ ls') = subscribed ls ++ subscribed ls' :=
  List.filterMap_append

theorem received_append (id : Nat) (ls ls' : List (Signal V)) :
    received id (ls ++ ls') = received id ls ++ received id ls' :=
  List.filterMap_append

/-- A signal that is no commit leaves the values committed alone. -/
theorem commits_append_none (h : l.commit? = none) : commits (ls ++ [l]) = commits ls := by
  have hnone : commits [l] = [] := by
    rw [commits, List.filterMap_cons, h]
    rfl
  rw [commits_append, hnone, List.append_nil]

theorem commits_eq_nil (h : ∀ v, .committed v ∉ ls) : commits ls = [] := by
  refine List.filterMap_eq_nil_iff.2 fun l hl => ?_
  cases l with
  | committed v => exact absurd hl (h v)
  | queued | called | detached => rfl

theorem received_eq_nil (h : ∀ v, .called id v ∉ ls) : received id ls = [] := by
  refine List.filterMap_eq_nil_iff.2 fun l hl => ?_
  cases l with
  | called i v =>
      have hne : i ≠ id := by
        rintro rfl
        exact h v hl
      exact Signal.handedTo?_called_ne hne v
  | committed | queued | detached => rfl

/-- A signal that is no subscription leaves the numbers of the subscriptions alone. -/
theorem subscribed_append_none (h : l.subscription? = none) :
    subscribed (ls ++ [l]) = subscribed ls := by
  have hnone : subscribed [l] = [] := by
    rw [subscribed, List.filterMap_cons, h]
    rfl
  rw [subscribed_append, hnone, List.append_nil]

/-- A signal that hands an observer nothing leaves the values it received alone. -/
theorem received_append_none (h : l.handedTo? id = none) :
    received id (ls ++ [l]) = received id ls := by
  have hnone : received id [l] = [] := by
    rw [received, List.filterMap_cons, h]
    rfl
  rw [received_append, hnone, List.append_nil]

/-- Where an observer started is settled once it has subscribed. -/
theorem startOf_append_of_mem (h : id ∈ subscribed ls) (ls' : List (Signal V)) :
    startOf id (ls ++ ls') = startOf id ls := by
  induction ls with
  | nil => exact nomatch h
  | cons l ls ih =>
      cases l with
      | queued i =>
          rw [List.cons_append, startOf, startOf]
          by_cases e : i = id
          · rw [if_pos e, if_pos e]
          · rw [if_neg e, if_neg e]
            rcases List.mem_cons.1 h with h' | h'
            · exact absurd h'.symm e
            · exact ih h'
      | committed v => exact congrArg (· + 1) (ih h)
      | called i v => exact ih h
      | detached i => exact ih h

/-- An observer that subscribes now starts after all commits so far. -/
theorem startOf_append_queued (h : id ∉ subscribed ls) :
    startOf id (ls ++ [.queued id]) = (commits ls).length := by
  induction ls with
  | nil =>
      show (if id = id then 0 else 0) = 0
      rw [if_pos rfl]
  | cons l ls ih =>
      cases l with
      | queued i =>
          have e : i ≠ id := fun e => h (e ▸ List.mem_cons_self)
          rw [List.cons_append, startOf, if_neg e]
          exact ih fun hm => h (List.mem_cons_of_mem _ hm)
      | committed v => exact congrArg (· + 1) (ih h)
      | called i v => exact ih h
      | detached i => exact ih h

theorem startOf_le (id : Nat) (ls : List (Signal V)) : startOf id ls ≤ (commits ls).length := by
  induction ls with
  | nil => exact Nat.le_refl 0
  | cons l ls ih =>
      cases l with
      | queued i =>
          rw [startOf]
          by_cases e : i = id
          · rw [if_pos e]
            exact Nat.zero_le _
          · rw [if_neg e]
            exact ih
      | committed v => exact Nat.succ_le_succ ih
      | called i v => exact ih
      | detached i => exact ih

/-- A signal that hands an observer nothing does not change its turn. -/
theorem turn_append (h : id ∈ subscribed ls) (hl : l.handedTo? id = none) :
    turn id (ls ++ [l]) = turn id ls := by
  rw [turn, turn, startOf_append_of_mem h, received_append_none hl]

/-- A list with one more entry is split in its last entry or before. -/
theorem append_singleton_eq_append_cons {α : Type} {xs as bs : List α} {x y : α}
    (h : xs ++ [x] = as ++ y :: bs) :
    (∃ bs', bs = bs' ++ [x] ∧ xs = as ++ y :: bs') ∨ (bs = [] ∧ xs = as ∧ x = y) := by
  rcases List.eq_nil_or_concat bs with rfl | ⟨bs', z, rfl⟩
  · obtain ⟨h₁, h₂⟩ := List.append_inj' h rfl
    exact Or.inr ⟨rfl, h₁, (List.cons.inj h₂).1⟩
  · rw [List.concat_eq_append, ← List.cons_append, ← List.append_assoc] at h
    obtain ⟨h₁, h₂⟩ := List.append_inj' h rfl
    obtain rfl := (List.cons.inj h₂).1
    exact Or.inl ⟨bs', List.concat_eq_append, h₁⟩

end Signals

namespace View

variable {c₀ : V} {ls : List (Signal V)} {p : PublisherRef} {x x' : View V P σ ε}
  {l : List (Signal V)}

/-! ## Nothing is skipped or doubled -/

/-- What an observer will be handed if nothing new happens. -/
def owed (x : View V P σ ε) (id : Nat) : List V :=
  handed id x.calls ++ x.state.upcoming id

/-- How a publisher and its observers stand, given the signals since it was made with `c₀`. -/
structure Faithful (c₀ : V) (ls : List (Signal V)) (x : View V P σ ε) : Prop where
  timeline : ∃ past, c₀ :: commits ls = past ++ x.state.timeline
  counted : subscribed ls = List.range x.state.nextId
  /-- Only disposal removes an observer. -/
  alive : ∀ id ∈ subscribed ls, .detached id ∉ ls → id ∈ x.state.ids
  unborn : ∀ id, id ∉ subscribed ls → received id ls = []
  /-- What was received and what is owed make up everything since the subscription. -/
  conserved : ∀ id ∈ x.state.ids,
    received id ls ++ x.owed id = (c₀ :: commits ls).drop (startOf id ls)
  /-- What was received and what is due is a part of that also after disposal. -/
  given : ∀ id ∈ subscribed ls,
    received id ls ++ handed id x.calls <+: (c₀ :: commits ls).drop (startOf id ls)

theorem faithful_new (guard : Option LockId) (c₀ : V) (f : Focus V P σ ε) :
    Faithful c₀ [] ⟨.new guard c₀, [], f⟩ :=
  ⟨⟨[], rfl⟩, rfl, nofun, fun _ _ => rfl, nofun, nofun⟩

/-- Nothing that matters to the observers happens. -/
theorem Faithful.same (h : Faithful c₀ ls x) (hc : x'.calls = x.calls)
    (hn : x'.state.nextId = x.state.nextId) (hd : x'.state.delivered = x.state.delivered)
    (ho : x'.state.observers = x.state.observers) (hq : x'.state.pending = x.state.pending) :
    Faithful c₀ ls x' := by
  have ht : x'.state.timeline = x.state.timeline := by
    rw [Publisher.timeline, Publisher.timeline, hd, hq]
  have hi : x'.state.ids = x.state.ids := by
    rw [Publisher.ids, Publisher.ids, ho, hq]
  have hu : ∀ id, x'.owed id = x.owed id := by
    intro id
    rw [owed, owed, hc, Publisher.upcoming, Publisher.upcoming, Publisher.present,
      Publisher.present, Publisher.changes, Publisher.changes, ho, hq, hd]
  refine ⟨?_, ?_, ?_, h.unborn, ?_, ?_⟩
  · rw [ht]
    exact h.timeline
  · rw [hn]
    exact h.counted
  · rw [hi]
    exact h.alive
  · intro id hid
    rw [hu]
    exact h.conserved id (hi ▸ hid)
  · rw [hc]
    exact h.given

/-- An observer registered or queued has subscribed. -/
theorem Faithful.mem_subscribed (h : Faithful c₀ ls x) (hs : Sound x) {id : Nat}
    (hid : id ∈ x.state.ids) : id ∈ subscribed ls := by
  rw [h.counted, List.mem_range]
  exact (List.pairwise_append.1 hs.lined).2.2 id hid _ (List.mem_singleton_self _)

/-- An observer to be called has subscribed. -/
theorem Faithful.mem_subscribed_of_call (h : Faithful c₀ ls x) (hs : Sound x)
    {c : Call V (Observer V P σ ε)} (hc : c ∈ x.calls) : c.id ∈ subscribed ls := by
  rw [h.counted, List.mem_range]
  refine (List.pairwise_append.1 hs.inLine).2.2 c.id ?_ _ (List.mem_singleton_self _)
  exact List.mem_append_left _ (List.mem_map.2 ⟨c, hc, rfl⟩)

/-- The value held is the one committed last. -/
theorem Faithful.held (h : Faithful c₀ ls x) (hs : Sound x) :
    (c₀ :: commits ls).getLast? = some x.state.current := by
  obtain ⟨past, hp⟩ := h.timeline
  rw [hp, List.getLast?_append, hs.current]
  rfl

/-- The values held up to now, the first and the last included. -/
theorem Faithful.last (h : Faithful c₀ ls x) (hs : Sound x) :
    (c₀ :: commits ls).drop (commits ls).length = [x.state.current] := by
  obtain ⟨ys, hys⟩ := List.getLast?_eq_some_iff.1 (h.held hs)
  have hlen : (commits ls).length = ys.length := by
    have := congrArg List.length hys
    rw [List.length_append] at this
    exact Nat.succ.inj this
  rw [hys, hlen, List.drop_left]

theorem Faithful.commit [BEq V] {s s' : Publisher V (Observer V P σ ε)}
    {due : List (List (Call V (Observer V P σ ε)))} {f f' : Focus V P σ ε} {v : V}
    (h : Faithful c₀ ls ⟨s, due, f⟩) (hs : Sound ⟨s, due, f⟩) (hc : s.commit v = some s') :
    Faithful c₀ (ls ++ [.committed v]) ⟨s', due, f'⟩ := by
  obtain ⟨hw, hpr, hn⟩ := Publisher.numbers_commit hc
  have hids : s'.ids = s.ids := by
    rw [Publisher.ids_eq, Publisher.ids_eq, hpr, hw]
  have hcs : commits (ls ++ [.committed v]) = commits ls ++ [v] := commits_append ls _
  have hsub : subscribed (ls ++ [.committed v]) = subscribed ls := subscribed_append_none rfl
  have hrec : ∀ id, received id (ls ++ [.committed v]) = received id ls := fun _ =>
    received_append_none rfl
  have hdrop : ∀ id ∈ subscribed ls,
      (c₀ :: commits (ls ++ [.committed v])).drop (startOf id (ls ++ [.committed v])) =
        (c₀ :: commits ls).drop (startOf id ls) ++ [v] := by
    intro id hid
    have hle : startOf id ls ≤ (c₀ :: commits ls).length := Nat.le_succ_of_le (startOf_le id ls)
    rw [startOf_append_of_mem hid, hcs, ← List.cons_append, List.drop_append_of_le_length hle]
  refine ⟨?_, ?_, ?_, ?_, ?_, ?_⟩
  · obtain ⟨past, hp⟩ := h.timeline
    refine ⟨past, ?_⟩
    show c₀ :: commits (ls ++ [.committed v]) = past ++ s'.timeline
    rw [hcs, (Publisher.timeline_commit hc).1, ← List.append_assoc, ← List.cons_append, hp]
  · rw [hsub, hn]
    exact h.counted
  · intro id hid hdet
    rw [hsub] at hid
    rw [hids]
    exact h.alive id hid fun hm => hdet (List.mem_append_left _ hm)
  · intro id hid
    rw [hsub] at hid
    rw [hrec]
    exact h.unborn id hid
  · intro id hid
    rw [hids] at hid
    have hup : View.owed ⟨s', due, f'⟩ id = View.owed ⟨s, due, f⟩ id ++ [v] := by
      show handed id due.flatten ++ s'.upcoming id = handed id due.flatten ++ s.upcoming id ++ [v]
      rw [Publisher.upcoming_commit hc hid, List.append_assoc]
    rw [hdrop id (h.mem_subscribed hs hid), hrec, hup, ← List.append_assoc, h.conserved id hid]
  · intro id hid
    rw [hsub] at hid
    rw [hdrop id hid, hrec]
    exact (h.given id hid).trans (List.prefix_append _ _)

theorem Faithful.enqueue {s : Publisher V (Observer V P σ ε)}
    {due : List (List (Call V (Observer V P σ ε)))} {f f' : Focus V P σ ε}
    (h : Faithful c₀ ls ⟨s, due, f⟩) (hs : Sound ⟨s, due, f⟩) (o : Observer V P σ ε) :
    Faithful c₀ (ls ++ [.queued s.nextId]) ⟨s.enqueue o, due, f'⟩ := by
  have hnew : s.nextId ∉ s.ids := hs.lined.nextId_notMem
  have hborn : s.nextId ∉ subscribed ls := by
    rw [h.counted]
    exact List.not_mem_range_self
  have hcs : commits (ls ++ [.queued s.nextId]) = commits ls := commits_append_none rfl
  have hsub : subscribed (ls ++ [.queued s.nextId]) = subscribed ls ++ [s.nextId] :=
    subscribed_append ls _
  have hrec : ∀ id, received id (ls ++ [.queued s.nextId]) = received id ls := fun _ =>
    received_append_none rfl
  have hcall : handed s.nextId due.flatten = [] := by
    apply handed_of_notMem
    intro hm
    exact Nat.lt_irrefl _ ((List.pairwise_append.1 hs.inLine).2.2 _
      (List.mem_append_left _ hm) _ (List.mem_singleton_self _))
  -- the newcomer starts at the value held now and has received nothing
  have hstart : startOf s.nextId (ls ++ [.queued s.nextId]) = (commits ls).length :=
    startOf_append_queued hborn
  refine ⟨?_, ?_, ?_, ?_, ?_, ?_⟩
  · show ∃ past, c₀ :: commits (ls ++ [.queued s.nextId]) = past ++ (s.enqueue o).timeline
    rw [hcs, Publisher.timeline_enqueue]
    exact h.timeline
  · show subscribed (ls ++ [.queued s.nextId]) = List.range (s.nextId + 1)
    rw [hsub, h.counted, List.range_succ]
  · intro id hid hdet
    show id ∈ (s.enqueue o).ids
    rw [Publisher.ids_enqueue]
    rw [hsub] at hid
    rcases List.mem_append.1 hid with hold | hid
    · exact List.mem_append_left _ (h.alive id hold fun hm => hdet (List.mem_append_left _ hm))
    · exact List.mem_append_right _ hid
  · intro id hid
    rw [hrec]
    exact h.unborn id fun hm => hid (hsub ▸ List.mem_append_left _ hm)
  · intro id hid
    rw [show View.state ⟨s.enqueue o, due, f'⟩ = s.enqueue o from rfl,
      Publisher.ids_enqueue] at hid
    rw [hrec, hcs]
    rcases List.mem_append.1 hid with hold | hid
    · have hne : s.nextId ≠ id := fun e => hnew (e ▸ hold)
      rw [startOf_append_of_mem (h.mem_subscribed hs hold), ← h.conserved id hold]
      show _ ++ (_ ++ (s.enqueue o).upcoming id) = _ ++ (_ ++ s.upcoming id)
      rw [Publisher.upcoming_enqueue_ne o hne]
      rfl
    · obtain rfl := List.mem_singleton.1 hid
      rw [hstart, h.last hs, h.unborn _ hborn]
      show [] ++ (handed s.nextId due.flatten ++ (s.enqueue o).upcoming s.nextId) = [s.current]
      rw [hcall, Publisher.upcoming_enqueue_self o hnew hs.current]
      rfl
  · intro id hid
    rw [hrec, hcs]
    rw [hsub] at hid
    rcases List.mem_append.1 hid with hold | hid
    · rw [startOf_append_of_mem hold]
      exact h.given id hold
    · obtain rfl := List.mem_singleton.1 hid
      rw [h.unborn _ hborn, show View.calls ⟨s.enqueue o, due, f'⟩ = due.flatten from rfl, hcall]
      exact List.nil_prefix

theorem Faithful.call {s : Publisher V (Observer V P σ ε)} {c : Call V (Observer V P σ ε)}
    {calls : List (Call V (Observer V P σ ε))} {due : List (List (Call V (Observer V P σ ε)))}
    {f f' : Focus V P σ ε} (h : Faithful c₀ ls ⟨s, (c :: calls) :: due, f⟩)
    (hs : Sound ⟨s, (c :: calls) :: due, f⟩) :
    Faithful c₀ (ls ++ [.called c.id c.value]) ⟨s, calls :: due, f'⟩ := by
  have hmem : c.id ∈ subscribed ls := h.mem_subscribed_of_call hs List.mem_cons_self
  have hcs : commits (ls ++ [.called c.id c.value]) = commits ls := commits_append_none rfl
  have hsub : subscribed (ls ++ [.called c.id c.value]) = subscribed ls :=
    subscribed_append_none rfl
  -- the call moves its value from what is due to what was received
  have hrec : ∀ id, received id (ls ++ [.called c.id c.value]) ++
      handed id (View.calls (⟨s, calls :: due, f'⟩ : View V P σ ε)) =
      received id ls ++ handed id (View.calls (⟨s, (c :: calls) :: due, f⟩ : View V P σ ε)) := by
    intro id
    rw [received_append, List.append_assoc]
    refine congrArg _ ?_
    show received id [.called c.id c.value] ++ handed id (calls ++ due.flatten) =
      handed id ([c] ++ (calls ++ due.flatten))
    rw [handed_append id [c]]
    rfl
  refine ⟨?_, ?_, ?_, ?_, ?_, ?_⟩
  · rw [hcs]
    exact h.timeline
  · rw [hsub]
    exact h.counted
  · intro id hid hdet
    rw [hsub] at hid
    exact h.alive id hid fun hm => hdet (List.mem_append_left _ hm)
  · intro id hid
    rw [hsub] at hid
    have hne : c.id ≠ id := fun e => hid (e ▸ hmem)
    rw [received_append_none (Signal.handedTo?_called_ne hne _)]
    exact h.unborn id hid
  · intro id hid
    rw [hcs, startOf_append_of_mem (h.mem_subscribed hs hid), owed, ← List.append_assoc, hrec,
      List.append_assoc]
    exact h.conserved id hid
  · intro id hid
    rw [hsub] at hid
    rw [hcs, startOf_append_of_mem hid, hrec]
    exact h.given id hid

theorem Faithful.pop {s s' : Publisher V (Observer V P σ ε)} {d : Delivery V (Observer V P σ ε)}
    {f f' : Focus V P σ ε} (h : Faithful c₀ ls ⟨s, [[]], f⟩) (hs : Sound ⟨s, [[]], f⟩)
    (hp : s.pop = some (d, s')) : Faithful c₀ ls ⟨s', [d.calls], f'⟩ := by
  have hn : s'.nextId = s.nextId := by
    rcases Publisher.pop_cases hp with ⟨v, rest, -, -, rfl⟩ | ⟨r, rest, -, -, rfl⟩ <;> rfl
  have hids : ∀ id, id ∈ s'.ids ↔ id ∈ s.ids := by
    intro id
    rcases Publisher.pop_cases hp with ⟨v, rest, hq, -, rfl⟩ | ⟨r, rest, hq, -, rfl⟩
    · rw [Publisher.ids_eq s, Publisher.waiting_of_emit hq]
      rfl
    · rw [Publisher.ids_eq s, Publisher.waiting_of_attach hq,
        List.append_cons s.present r.id (Pending.numbers rest)]
      show id ∈ (s.observers ++ [r]).map (·.id) ++ Pending.numbers rest ↔ _
      rw [List.map_append]
      rfl
  have howed : ∀ id, View.owed ⟨s', [d.calls], f'⟩ id = View.owed ⟨s, [[]], f⟩ id := by
    intro id
    show handed id (d.calls ++ []) ++ s'.upcoming id = s.upcoming id
    rw [List.append_nil]
    exact handed_pop hp hs.lined.nodup id
  refine ⟨?_, ?_, ?_, h.unborn, ?_, ?_⟩
  · obtain ⟨past, ht⟩ := h.timeline
    rcases Publisher.timeline_pop hp with hsame | htail
    · exact ⟨past, ht.trans (congrArg _ hsame.symm)⟩
    · refine ⟨past ++ [s.delivered], ?_⟩
      show _ = _ ++ s'.timeline
      rw [htail, ht, List.append_assoc]
      rfl
  · rw [hn]
    exact h.counted
  · intro id hid hdet
    exact (hids id).2 (h.alive id hid hdet)
  · intro id hid
    rw [howed]
    exact h.conserved id ((hids id).1 hid)
  · intro id hid
    by_cases hm : id ∈ s.ids
    · rw [← h.conserved id hm, ← howed id, owed, ← List.append_assoc]
      exact List.prefix_append _ _
    · -- nothing is handed to an observer that is gone
      have hnone : handed id d.calls ++ s'.upcoming id = [] := by
        rw [handed_pop hp hs.lined.nodup id]
        exact Publisher.upcoming_of_notMem hm
      show received id ls ++ handed id (d.calls ++ []) <+: _
      rw [List.append_nil, (List.append_eq_nil_iff.1 hnone).1]
      exact h.given id hid

theorem Faithful.detach {s : Publisher V (Observer V P σ ε)}
    {due : List (List (Call V (Observer V P σ ε)))} {f f' : Focus V P σ ε}
    (h : Faithful c₀ ls ⟨s, due, f⟩) (hs : Sound ⟨s, due, f⟩) (i : Nat) :
    Faithful c₀ (ls ++ [.detached i]) ⟨s.detach i, due, f'⟩ := by
  have hids : ∀ id, id ∈ (s.detach i).ids ↔ id ∈ s.ids ∧ id ≠ i := by
    intro id
    rw [Publisher.ids_eq, Publisher.present_detach, Publisher.waiting_detach, ← List.filter_append,
      List.mem_filter]
    simp [Publisher.ids_eq]
  have hcs : commits (ls ++ [.detached i]) = commits ls := commits_append_none rfl
  have hsub : subscribed (ls ++ [.detached i]) = subscribed ls := subscribed_append_none rfl
  have hrec : ∀ id, received id (ls ++ [.detached i]) = received id ls := fun _ =>
    received_append_none rfl
  refine ⟨?_, ?_, ?_, ?_, ?_, ?_⟩
  · show ∃ past, _ = past ++ (s.detach i).timeline
    rw [hcs, Publisher.timeline_detach]
    exact h.timeline
  · rw [hsub]
    exact h.counted
  · intro id hid hdet
    rw [hsub] at hid
    refine (hids id).2 ⟨h.alive id hid fun hm => hdet (List.mem_append_left _ hm), ?_⟩
    rintro rfl
    exact hdet (List.mem_append_right _ (List.mem_singleton_self _))
  · intro id hid
    rw [hsub] at hid
    rw [hrec]
    exact h.unborn id hid
  · intro id hid
    obtain ⟨hold, hne⟩ := (hids id).1 hid
    rw [hrec, hcs, startOf_append_of_mem (h.mem_subscribed hs hold), ← h.conserved id hold]
    show _ ++ (_ ++ (s.detach i).upcoming id) = _ ++ (_ ++ s.upcoming id)
    rw [Publisher.upcoming_detach_ne hne]
    rfl
  · intro id hid
    rw [hsub] at hid
    rw [hrec, hcs, startOf_append_of_mem hid]
    exact h.given id hid

/-- A publisher stays faithful as long as no panic ends a drain of it. -/
theorem Faithful.move [BEq V] (h : Faithful c₀ ls x) (hs : Sound x) (ho : Single x)
    (hm : Move p x l x') (hkept : x'.focus.Calm ∨ x.due.length ≤ x'.due.length) :
    Faithful c₀ (ls ++ l) x' := by
  cases hm with
  | other | busy =>
      rw [List.append_nil]
      exact h.same rfl rfl rfl rfl rfl
  | start hb =>
      obtain ⟨-, rfl⟩ := Publisher.beginDrain_eq_some hb
      rw [List.append_nil]
      exact h.same rfl rfl rfl rfl rfl
  | finish =>
      rw [List.append_nil]
      exact h.same rfl rfl rfl rfl rfl
  | commit hf hc => exact h.commit hs hc
  | enqueue o hf => exact h.enqueue hs o
  | call => exact h.call hs
  | pop hp =>
      obtain ⟨-, rfl⟩ := ho.only rfl
      rw [List.append_nil]
      exact h.pop hs hp
  | detach id hf hf' => exact h.detach hs id
  | abandon => exact hkept.elim False.elim fun hle => absurd hle (Nat.not_succ_le_self _)

/-- When nothing is due and nothing is queued, an observer that is there has received everything
since it subscribed. -/
theorem Faithful.received_eq (h : Faithful c₀ ls x) (hc : x.calls = [])
    (hq : x.state.pending = []) {id : Nat} (hid : id ∈ x.state.ids) :
    received id ls = (c₀ :: commits ls).drop (startOf id ls) := by
  have hpres : id ∈ x.state.present := by
    rw [Publisher.ids_eq, Publisher.waiting_of_empty hq, List.append_nil] at hid
    exact hid
  have howed : x.owed id = [] := by
    rw [owed, hc]
    show x.state.upcoming id = []
    rw [Publisher.upcoming_of_present hpres, Publisher.changes_of_empty hq]
  rw [← h.conserved id hid, howed, List.append_nil]

/-- When nothing is due and nothing is queued, an observer that was not removed has received
everything since it subscribed, and what it received last is the value held. -/
theorem Faithful.all_received (h : Faithful c₀ ls x) (hs : Sound x) (hc : x.calls = [])
    (hq : x.state.pending = []) {id : Nat} (hid : id ∈ subscribed ls)
    (hdet : .detached id ∉ ls) :
    received id ls = (c₀ :: commits ls).drop (startOf id ls) ∧
      (received id ls).getLast? = some x.state.current := by
  have hall := h.received_eq hc hq (h.alive id hid hdet)
  have hle := startOf_le id ls
  refine ⟨hall, ?_⟩
  rw [hall, List.getLast?_drop, if_neg (by rw [List.length_cons]; omega)]
  exact h.held hs

end View

end ReactiveCells
