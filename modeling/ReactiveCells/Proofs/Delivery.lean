import ReactiveCells.Proofs.Conservation
import ReactiveCells.Proofs.History

/-!
# Exact delivery — every value once, in order, to everybody

Count the values that a publisher has held from the initial one on. Observers that have nothing
due are all at the same place in that count, since the calls due hand over the value delivered
last and the queue holds the ones after it. So the calls are made in the order of the values and,
for one value, in the order of subscription (`View.InTurn`). With conservation this gives the
contract of delivery for every path on which nothing panics.

Main statement: `exact_delivery` — every write of a value other than the one held is committed,
every observer receives every value committed since it subscribed, once and in order, and has
received the value held whenever no drain is in progress.
-/

namespace ReactiveCells

variable {V P σ ε : Type} [BEq V]

/-- What the signals of a run without panics tell about delivery. -/
structure Exact (c₀ : V) (ls : List (Signal V)) : Prop where
  /-- A write is committed only if its value differs from the one held. -/
  fresh : ∀ ls₁ v ls₂, ls = ls₁ ++ .committed v :: ls₂ →
    ∀ u, (c₀ :: commits ls₁).getLast? = some u → (u == v) = false
  /-- Subscriptions are numbered in the order in which they are made. -/
  numbered : subscribed ls = List.range (subscribed ls).length
  /-- An observer receives the values held since it subscribed, each once and in order. -/
  received : ∀ id ∈ subscribed ls, received id ls <+: (c₀ :: commits ls).drop (startOf id ls)
  /-- The turn of a call is the place of its value among those held. -/
  value : ∀ ls₁ id v ls₂, ls = ls₁ ++ .called id v :: ls₂ →
    (c₀ :: commits ls)[turn id ls₁]? = some v
  /-- Calls are made in the order of the values and, for one value, in that of subscription. -/
  ordered : ∀ ls₁ id v ls₂ id' v' ls₃, ls = ls₁ ++ .called id v :: ls₂ ++ .called id' v' :: ls₃ →
    turn id ls₁ < turn id' (ls₁ ++ .called id v :: ls₂) ∨
      (turn id ls₁ = turn id' (ls₁ ++ .called id v :: ls₂) ∧ id < id')

namespace View

variable {c₀ : V} {n : Nat} {ls : List (Signal V)} {p : PublisherRef} {x x' : View V P σ ε}
  {l : List (Signal V)}

/-- Where a publisher and its observers stand in the order of calls: the value delivered last is
number `n` of those held. -/
structure InTurn (c₀ : V) (n : Nat) (ls : List (Signal V)) (x : View V P σ ε) : Prop where
  place : n + x.state.changes.length = (commits ls).length
  fresh : ∀ ls₁ v ls₂, ls = ls₁ ++ .committed v :: ls₂ →
    ∀ u, (c₀ :: commits ls₁).getLast? = some u → (u == v) = false
  /-- Every call due is for the value delivered last. -/
  due : ∀ c ∈ x.calls, turn c.id ls = n
  /-- Every call made was for an earlier value, or for an observer before those still to come. -/
  past : ∀ ls₁ id v ls₂, ls = ls₁ ++ .called id v :: ls₂ → turn id ls₁ < n ∨
    (turn id ls₁ = n ∧ ∀ i ∈ x.calls.map (·.id) ++ x.state.waiting ++ [x.state.nextId], id < i)
  value : ∀ ls₁ id v ls₂, ls = ls₁ ++ .called id v :: ls₂ →
    (c₀ :: commits ls)[turn id ls₁]? = some v
  ordered : ∀ ls₁ id v ls₂ id' v' ls₃, ls = ls₁ ++ .called id v :: ls₂ ++ .called id' v' :: ls₃ →
    turn id ls₁ < turn id' (ls₁ ++ .called id v :: ls₂) ∨
      (turn id ls₁ = turn id' (ls₁ ++ .called id v :: ls₂) ∧ id < id')

omit [BEq V] in
/-- An observer without calls due comes after the values it has received, before those to come. -/
theorem Faithful.turn_add (h : Faithful c₀ ls x) {id : Nat} (hid : id ∈ x.state.ids)
    (hc : x.calls = []) : turn id ls + (x.state.upcoming id).length = (commits ls).length + 1 := by
  have hlen := congrArg List.length (h.conserved id hid)
  rw [owed, hc, List.length_append, List.length_drop] at hlen
  have hup : (handed id ([] : List (Call V (Observer V P σ ε))) ++ x.state.upcoming id).length =
      (x.state.upcoming id).length := rfl
  have hstart := startOf_le id ls
  rw [hup, List.length_cons] at hlen
  rw [turn]
  omega

theorem inTurn_new (guard : Option LockId) (c₀ : V) (f : Focus V P σ ε) :
    InTurn c₀ 0 [] ⟨.new guard c₀, [], f⟩ := by
  have none : ∀ {ls₁ ls₂ : List (Signal V)} {l : Signal V}, [] ≠ ls₁ ++ l :: ls₂ := by
    intro ls₁ ls₂ l h
    exact nomatch (List.append_eq_nil_iff.1 h.symm).2
  refine ⟨rfl, ?_, nofun, ?_, ?_, ?_⟩
  · intro _ _ _ h
    exact absurd h none
  · intro _ _ _ _ h
    exact absurd h none
  · intro _ _ _ _ h
    exact absurd h none
  · intro _ _ _ _ _ _ _ h
    exact absurd h none

/-- Nothing that matters to the order of calls happens. -/
theorem InTurn.same (h : InTurn c₀ n ls x) (hcalls : x'.calls = x.calls)
    (hch : x'.state.changes = x.state.changes) (hw : x'.state.waiting = x.state.waiting)
    (hn : x'.state.nextId = x.state.nextId) : InTurn c₀ n ls x' := by
  refine ⟨?_, h.fresh, ?_, ?_, h.value, h.ordered⟩
  · rw [hch]
    exact h.place
  · rw [hcalls]
    exact h.due
  · rw [hcalls, hw, hn]
    exact h.past

/-- Something other than a call happens, and nobody new gets in line but at its end. -/
theorem InTurn.extend {s : Signal V} (h : InTurn c₀ n ls x) (hs : ∀ id v, s ≠ .called id v)
    (hplace : n + x'.state.changes.length = (commits (ls ++ [s])).length)
    (hfresh : ∀ v, s = .committed v →
      ∀ u, (c₀ :: commits ls).getLast? = some u → (u == v) = false)
    (hdue : ∀ c ∈ x'.calls, turn c.id (ls ++ [s]) = n)
    (hline : ∀ i ∈ x'.calls.map (·.id) ++ x'.state.waiting ++ [x'.state.nextId],
      i ∈ x.calls.map (·.id) ++ x.state.waiting ++ [x.state.nextId] ∨ x.state.nextId < i) :
    InTurn c₀ n (ls ++ [s]) x' := by
  -- the calls made are those made before
  have before : ∀ {ls₁ ls₂ : List (Signal V)} {id : Nat} {v : V},
      ls ++ [s] = ls₁ ++ .called id v :: ls₂ → ∃ ls₂', ls = ls₁ ++ .called id v :: ls₂' := by
    intro ls₁ ls₂ id v hsplit
    rcases append_singleton_eq_append_cons hsplit with ⟨ls₂', -, hls⟩ | ⟨-, -, e⟩
    · exact ⟨ls₂', hls⟩
    · exact absurd e (hs id v)
  refine ⟨hplace, ?_, hdue, ?_, ?_, ?_⟩
  · intro ls₁ v ls₂ hsplit u hu
    rcases append_singleton_eq_append_cons hsplit with ⟨ls₂', -, hls⟩ | ⟨-, rfl, e⟩
    · exact h.fresh ls₁ v ls₂' hls u hu
    · exact hfresh v e u hu
  · intro ls₁ id v ls₂ hsplit
    obtain ⟨ls₂', hls⟩ := before hsplit
    rcases h.past ls₁ id v ls₂' hls with hlt | ⟨heq, hafter⟩
    · exact Or.inl hlt
    · refine Or.inr ⟨heq, ?_⟩
      intro i hi
      rcases hline i hi with hold | hnew
      · exact hafter i hold
      · have hlast := hafter _ (List.mem_append_right _ (List.mem_singleton_self _))
        exact Nat.lt_trans hlast hnew
  · intro ls₁ id v ls₂ hsplit
    obtain ⟨ls₂', hls⟩ := before hsplit
    have hval := h.value ls₁ id v ls₂' hls
    have hlt := (List.getElem?_eq_some_iff.1 hval).1
    rw [commits_append, ← List.cons_append, List.getElem?_append_left hlt]
    exact hval
  · intro ls₁ id v ls₂ id' v' ls₃ hsplit
    obtain ⟨ls₃', hls⟩ := before hsplit
    exact h.ordered ls₁ id v ls₂ id' v' ls₃' hls

/-- A call is made: it is the first of those due. -/
theorem InTurn.call {s : Publisher V (Observer V P σ ε)} {c : Call V (Observer V P σ ε)}
    {calls : List (Call V (Observer V P σ ε))} {due : List (List (Call V (Observer V P σ ε)))}
    {f f' : Focus V P σ ε} (h : InTurn c₀ n ls ⟨s, (c :: calls) :: due, f⟩)
    (hf : Faithful c₀ ls ⟨s, (c :: calls) :: due, f⟩) (hs : Sound ⟨s, (c :: calls) :: due, f⟩) :
    InTurn c₀ n (ls ++ [.called c.id c.value]) ⟨s, calls :: due, f'⟩ := by
  have hcs : commits (ls ++ [.called c.id c.value]) = commits ls := commits_append_none rfl
  have hturn : turn c.id ls = n := h.due c List.mem_cons_self
  -- it comes before everybody in line
  have hfirst : ∀ i ∈ (View.calls ⟨s, calls :: due, f'⟩).map (·.id) ++ s.waiting ++ [s.nextId],
      c.id < i := fun i hi => (List.pairwise_cons.1 hs.inLine).1 i hi
  refine ⟨?_, ?_, ?_, ?_, ?_, ?_⟩
  · rw [hcs]
    exact h.place
  · intro ls₁ v ls₂ hsplit
    rcases append_singleton_eq_append_cons hsplit with ⟨ls₂', -, hls⟩ | ⟨-, -, e⟩
    · exact h.fresh ls₁ v ls₂' hls
    · exact nomatch e
  · intro c' hc'
    have hne : c.id ≠ c'.id := by
      refine Nat.ne_of_lt (hfirst _ ?_)
      exact List.mem_append_left _ (List.mem_append_left _ (List.mem_map_of_mem hc'))
    have hmem := hf.mem_subscribed_of_call hs (List.mem_cons_of_mem c hc')
    rw [turn_append hmem (Signal.handedTo?_called_ne hne _)]
    exact h.due c' (List.mem_cons_of_mem c hc')
  · intro ls₁ id v ls₂ hsplit
    rcases append_singleton_eq_append_cons hsplit with ⟨ls₂', -, hls⟩ | ⟨-, rfl, e⟩
    · rcases h.past ls₁ id v ls₂' hls with hlt | ⟨heq, hafter⟩
      · exact Or.inl hlt
      · exact Or.inr ⟨heq, fun i hi => hafter i (List.mem_cons_of_mem _ hi)⟩
    · cases e
      exact Or.inr ⟨hturn, hfirst⟩
  · intro ls₁ id v ls₂ hsplit
    rw [hcs]
    rcases append_singleton_eq_append_cons hsplit with ⟨ls₂', -, hls⟩ | ⟨-, rfl, e⟩
    · exact h.value ls₁ id v ls₂' hls
    · cases e
      obtain ⟨past, hp⟩ := hf.timeline
      -- the value delivered last comes after all those that are past
      have hlen : past.length = n := by
        have hlen := congrArg List.length hp
        rw [List.length_append, Publisher.timeline_eq, List.length_cons, List.length_cons] at hlen
        have hplace : n + s.changes.length = (commits ls).length := h.place
        have hst : (View.state ⟨s, (c :: calls) :: due, f⟩).changes = s.changes := rfl
        rw [hst] at hlen
        omega
      rw [hturn, hp, ← hlen, List.getElem?_append_right (Nat.le_refl _), Nat.sub_self,
        hs.handed c List.mem_cons_self]
      rfl
  · intro ls₁ id v ls₂ id' v' ls₃ hsplit
    rcases append_singleton_eq_append_cons hsplit with ⟨ls₃', -, hls⟩ | ⟨-, hls, e⟩
    · exact h.ordered ls₁ id v ls₂ id' v' ls₃' hls
    · cases e
      rw [← hls, hturn]
      rcases h.past ls₁ id v ls₂ hls with hlt | ⟨heq, hafter⟩
      · exact Or.inl hlt
      · exact Or.inr ⟨heq, hafter _ List.mem_cons_self⟩

/-- The next entry is taken: a change moves on to the next value, a registration does not. -/
theorem InTurn.pop {s s' : Publisher V (Observer V P σ ε)} {d : Delivery V (Observer V P σ ε)}
    {f f' : Focus V P σ ε} (h : InTurn c₀ n ls ⟨s, [[]], f⟩) (hf : Faithful c₀ ls ⟨s, [[]], f⟩)
    (hs : Sound ⟨s, [[]], f⟩) (hp : s.pop = some (d, s')) :
    ∃ n', InTurn c₀ n' ls ⟨s', [d.calls], f'⟩ := by
  have hplace : n + s.changes.length = (commits ls).length := h.place
  rcases Publisher.pop_cases hp with ⟨v, rest, hq, rfl, rfl⟩ | ⟨r, rest, hq, rfl, rfl⟩
  · have hch := Publisher.changes_of_emit hq
    rw [hch, List.length_cons] at hplace
    refine ⟨n + 1, ?_, h.fresh, ?_, ?_, h.value, h.ordered⟩
    · show n + 1 + (Pending.values rest).length = (commits ls).length
      omega
    · intro c hc
      have hc' : c ∈ s.round v := (List.mem_append.1 hc).resolve_right nofun
      obtain ⟨r, hr, rfl⟩ := List.mem_map.1 hc'
      have hpres : r.id ∈ s.present := List.mem_map_of_mem hr
      have hadd := hf.turn_add (List.mem_append_left _ hpres) rfl
      have hup : (s.upcoming r.id).length = (Pending.values rest).length + 1 := by
        rw [Publisher.upcoming_of_present hpres, hch]
        rfl
      show turn r.id ls = n + 1
      rw [show View.state ⟨s, [[]], f⟩ = s from rfl] at hadd
      omega
    · intro ls₁ id u ls₂ hsplit
      rcases h.past ls₁ id u ls₂ hsplit with hlt | ⟨heq, -⟩
      · exact Or.inl (Nat.lt_succ_of_lt hlt)
      · exact Or.inl (heq ▸ Nat.lt_succ_self _)
  · have hch := Publisher.changes_of_attach hq
    have hw := Publisher.waiting_of_attach hq
    have hwait : r.id ∈ s.waiting := hw ▸ List.mem_cons_self
    refine ⟨n, ?_, h.fresh, ?_, ?_, h.value, h.ordered⟩
    · show n + (Pending.values rest).length = (commits ls).length
      rw [← hch]
      exact hplace
    · intro c hc
      obtain rfl : c = ⟨r.id, s.delivered, r.observer⟩ :=
        List.mem_singleton.1 ((List.mem_append.1 hc).resolve_right nofun)
      have hadd := hf.turn_add (List.mem_append_right _ hwait) rfl
      have hpres : r.id ∉ s.present := fun hm =>
        (List.nodup_append.1 hs.lined.nodup).2.2 _ hm _ hwait rfl
      have hup : (s.upcoming r.id).length = s.changes.length + 1 := by
        rw [Publisher.upcoming_of_notMem_present hpres, hq, Pending.replayed, if_pos rfl, hch]
        rfl
      show turn r.id ls = n
      rw [show View.state ⟨s, [[]], f⟩ = s from rfl] at hadd
      omega
    · -- the observer taken from the queue was the first in line before, too
      intro ls₁ id u ls₂ hsplit
      have hpast := h.past ls₁ id u ls₂ hsplit
      rw [show View.state ⟨s, [[]], f⟩ = s from rfl, hw] at hpast
      exact hpast

theorem InTurn.move (h : InTurn c₀ n ls x) (hf : Faithful c₀ ls x) (hs : Sound x)
    (ho : Single x) (hm : Move p x l x')
    (hkept : x'.focus.Calm ∨ x.due.length ≤ x'.due.length) :
    ∃ n', InTurn c₀ n' (ls ++ l) x' := by
  have kept : ∀ {c : Call V (Observer V P σ ε)} {s : Signal V}, c ∈ x.calls →
      s.handedTo? c.id = none → turn c.id (ls ++ [s]) = n := fun hc hs' =>
    (turn_append (hf.mem_subscribed_of_call hs hc) hs').trans (h.due _ hc)
  cases hm with
  | other | busy =>
      rw [List.append_nil]
      exact ⟨n, h.same rfl rfl rfl rfl⟩
  | start hb =>
      obtain ⟨-, rfl⟩ := Publisher.beginDrain_eq_some hb
      rw [List.append_nil]
      exact ⟨n, h.same rfl rfl rfl rfl⟩
  | finish =>
      rw [List.append_nil]
      exact ⟨n, h.same rfl rfl rfl rfl⟩
  | @commit s s' due f v hfoc hc =>
      obtain ⟨hw, -, hn⟩ := Publisher.numbers_commit hc
      refine ⟨n, h.extend nofun ?_ ?_ (fun c hc => kept hc rfl) ?_⟩
      · have hplace : n + s.changes.length = (commits ls).length := h.place
        show n + s'.changes.length = _
        rw [Publisher.changes_commit hc, commits_append, List.length_append, List.length_append]
        show n + (s.changes.length + 1) = (commits ls).length + 1
        omega
      · intro u hu c hlast
        cases hu
        obtain rfl : s.current = c := Option.some.inj ((hf.held hs).symm.trans hlast)
        exact Publisher.ne_of_commit hc
      · intro i hi
        rw [show View.state ⟨s', due, .drain p⟩ = s' from rfl, hw, hn] at hi
        exact Or.inl hi
  | @enqueue s due f o hfoc =>
      refine ⟨n, h.extend nofun ?_ nofun (fun c hc => kept hc rfl) ?_⟩
      · have hch := Publisher.changes_enqueue s o
        show n + (s.enqueue o).changes.length = _
        rw [hch, commits_append_none rfl]
        exact h.place
      · intro i hi
        rw [show View.state ⟨s.enqueue o, due, .drain p⟩ = s.enqueue o from rfl,
          Publisher.waiting_enqueue, ← List.append_assoc] at hi
        rcases List.mem_append.1 hi with hold | hnew
        · exact Or.inl hold
        · rw [List.mem_singleton.1 hnew]
          exact Or.inr (Nat.lt_succ_self s.nextId)
  | call => exact ⟨n, h.call hf hs⟩
  | pop hp =>
      obtain ⟨-, rfl⟩ := ho.only rfl
      rw [List.append_nil]
      exact h.pop hf hs hp
  | @detach s due f f' id hfoc hfoc' =>
      refine ⟨n, h.extend nofun ?_ nofun (fun c hc => kept hc rfl) ?_⟩
      · show n + (s.detach id).changes.length = _
        rw [Publisher.changes_detach, commits_append_none rfl]
        exact h.place
      · intro i hi
        rw [show View.state ⟨s.detach id, due, f'⟩ = s.detach id from rfl,
          Publisher.waiting_detach] at hi
        rcases List.mem_append.1 hi with hi | hlast
        · rcases List.mem_append.1 hi with hcall | hwait
          · exact Or.inl (List.mem_append_left _ (List.mem_append_left _ hcall))
          · have hold := (List.mem_filter.1 hwait).1
            exact Or.inl (List.mem_append_left _ (List.mem_append_right _ hold))
        · exact Or.inl (List.mem_append_right _ hlast)
  | abandon => exact hkept.elim False.elim fun hle => absurd hle (Nat.not_succ_le_self _)

/-- Observers that are kept in turn receive exactly what they should. -/
theorem InTurn.exact (h : InTurn c₀ n ls x) (hf : Faithful c₀ ls x) : Exact c₀ ls := by
  refine ⟨h.fresh, ?_, ?_, h.value, h.ordered⟩
  · rw [hf.counted, List.length_range]
  · intro id hid
    exact (List.prefix_append _ _).trans (hf.given id hid)

end View

section Delivery

variable {body : P → Prog V P σ ε} {starts : Prog V P σ ε → Prop} {w₀ w : World V P σ ε}
  {t₀ t : Thread V P σ ε} {es : List (Event V ε)} {past : List (Moment V P σ ε)}
  {p : PublisherRef} {guard : Option LockId} {c₀ : V}

/-- A publisher that nothing has panicked in is faithful to its observers and keeps them in turn. -/
theorem Born.faithful (h₀ : Born body p guard c₀ w₀ t₀)
    (h : Run body starts Thread.Calm w₀ t₀ es w t) :
    ∃ s, Regular p s w t ∧ View.Faithful c₀ (signals p es) (t.view p s) ∧
      ∃ n, View.InTurn c₀ n (signals p es) (t.view p s) := by
  refine h₀.life (fun es s _ t => View.Faithful c₀ (signals p es) (t.view p s) ∧
    ∃ n, View.InTurn c₀ n (signals p es) (t.view p s)) h ?_ ?_ ?_
  · intro hset
    rw [Thread.view, hset.due]
    exact ⟨View.faithful_new guard c₀ _, 0, View.inTurn_new guard c₀ _⟩
  · rintro es s w t es' s' w' t' ⟨hf, n, hin⟩ hreg - hv - hcalm
    rw [signals_append]
    exact ⟨hf.move hreg.sound hreg.orderly.single hv (Or.inl hcalm),
      hin.move hf hreg.sound hreg.orderly.single hv (Or.inl hcalm)⟩
  · rintro es s w t c ⟨hf, n, hin⟩ hset
    have hd : ((Thread.start c).view p s).calls = (t.view p s).calls := View.calls_start hset c
    exact ⟨hf.same hd rfl rfl rfl rfl, n, hin.same hd rfl rfl rfl⟩

end Delivery

end ReactiveCells
