import ReactiveCells.Proofs.Conservation
import ReactiveCells.Proofs.History
import ReactiveCells.Proofs.Holders

/-!
# Handles — who is registered, and who can take it away

Whoever subscribes gets a number first, which its registration is queued under, and a subscription
to dispose of it when the registration comes back. So a number is held by a registration that has
not come back, by a subscription, or by nobody any more. Moves hand numbers on: what is held after
a move, what was disposed in it and what a panic took from a registration is what was held before
and what was queued (`Moves.tally`).

Panics break the bond between numbers and observers in two ways, and these are all. One that ends a
drain throws away the registrations that are queued, whose subscriptions may be there already
(`lost`). One that goes through a registration leaves an observer that nobody can dispose of
(`orphans`). Neither happens as long as no panic ends a drain.

Main statement: `handles_match`.
-/

namespace ReactiveCells

variable {V P σ ε : Type}

/-! ## Numbers and who holds them -/

/-- The number of a registration that waits to come back. -/
def Frame.registering? (p : PublisherRef) : Frame V P σ ε → Option Nat
  | .register q id _ => if q = p then some id else none
  | _ => none

/-- The numbers of the registrations that have not come back, the latest first. -/
def Thread.registering (p : PublisherRef) (t : Thread V P σ ε) : List Nat :=
  t.stack.filterMap (Frame.registering? p)

/-- The number of the observer that a subscription removes. -/
def Teardown.number? (p : PublisherRef) : Option (Teardown V P σ ε) → Option Nat
  | some (.detach q id) => if q = p then some id else none
  | _ => none

/-- The numbers of the observers of a publisher whose subscriptions are not disposed. -/
def World.handles (p : PublisherRef) (w : World V P σ ε) : List Nat :=
  w.subscriptions.entries.filterMap (Teardown.number? p)

/-- The numbers held. -/
def World.taken (p : PublisherRef) (w : World V P σ ε) (t : Thread V P σ ε) : List Nat :=
  t.registering p ++ w.handles p

/-- The number of an observer that is removed. -/
def Signal.removal? : Signal V → Option Nat
  | .detached id => some id
  | _ => none

/-- The numbers of the observers removed, in order. -/
def removed (ls : List (Signal V)) : List Nat :=
  ls.filterMap Signal.removal?

/-- The registrations that a panic throws away by ending a drain in a move. -/
def Moment.lost (p : PublisherRef) (m : Moment V P σ ε) : List Nat :=
  if m.thread.Breaks p then (m.world.publisher? p).elim [] Publisher.waiting else []

/-- The registration that a panic goes through in a move. -/
def Moment.orphans (p : PublisherRef) (m : Moment V P σ ε) : List Nat :=
  match m.thread with
  | ⟨.unwind _, fr :: _⟩ => (fr.registering? p).toList
  | _ => []

/-- The observers whose queued registrations were thrown away. -/
def lost (p : PublisherRef) (past : List (Moment V P σ ε)) : List Nat :=
  past.flatMap (Moment.lost p)

/-- The observers whose registrations a panic went through. -/
def orphans (p : PublisherRef) (past : List (Moment V P σ ε)) : List Nat :=
  past.flatMap (Moment.orphans p)

section Taken

variable {p : PublisherRef} {w w' : World V P σ ε} {t : Thread V P σ ε} {id : Nat}

theorem World.mem_handles : id ∈ w.handles p ↔ ∃ i, w.Detaches p id i := by
  have hnumber : ∀ t : Option (Teardown V P σ ε),
      Teardown.number? p t = some id ↔ t = some (.detach p id) := by
    intro t
    rcases t with _ | ⟨q, n⟩ | c
    · exact ⟨nofun, nofun⟩
    · by_cases hq : q = p <;> simp [Teardown.number?, hq]
    · exact ⟨nofun, nofun⟩
  constructor
  · intro h
    obtain ⟨t, ht, he⟩ := List.mem_filterMap.1 h
    obtain rfl := (hnumber t).1 he
    exact List.mem_iff_getElem?.1 ht
  · rintro ⟨i, hi⟩
    exact List.mem_filterMap.2 ⟨_, List.mem_of_getElem? hi, (hnumber _).2 rfl⟩

theorem World.handles_congr (h : w'.subscriptions = w.subscriptions) :
    w'.handles p = w.handles p := by
  rw [World.handles, World.handles, h]

theorem World.handles_newSubscription (t : Option (Teardown V P σ ε)) :
    (w.newSubscription t).2.handles p = w.handles p ++ (Teardown.number? p t).toList := by
  show (w.subscriptions.entries ++ [t]).filterMap _ = _
  rw [List.filterMap_append]
  cases hn : Teardown.number? p t <;> simp [hn] <;> rfl

/-- A subscription that is disposed gives up its number. -/
theorem World.handles_dispose {i : Nat} {t : Option (Teardown V P σ ε)}
    (h : w.subscriptions.get? i = some t) :
    ((Teardown.number? p t).toList ++
      ({ w with subscriptions := w.subscriptions.set i none } : World V P σ ε).handles p).Perm
        (w.handles p) := by
  obtain ⟨hlt, rfl⟩ := List.getElem?_eq_some_iff.1 h
  have hold : w.handles p = (w.subscriptions.entries.take i).filterMap (Teardown.number? p) ++
      ((Teardown.number? p w.subscriptions.entries[i]).toList ++
        (w.subscriptions.entries.drop (i + 1)).filterMap (Teardown.number? p)) := by
    have hsplit := List.take_append_drop i w.subscriptions.entries
    rw [List.drop_eq_getElem_cons hlt] at hsplit
    refine (congrArg (List.filterMap (Teardown.number? p)) hsplit.symm).trans ?_
    rw [List.filterMap_append, List.filterMap_cons]
    cases Teardown.number? p w.subscriptions.entries[i] <;> rfl
  have hnew : ({ w with subscriptions := w.subscriptions.set i none } : World V P σ ε).handles p =
      (w.subscriptions.entries.take i).filterMap (Teardown.number? p) ++
        (w.subscriptions.entries.drop (i + 1)).filterMap (Teardown.number? p) := by
    show (w.subscriptions.entries.set i none).filterMap _ = _
    rw [List.set_eq_take_append_cons_drop, if_pos hlt, List.filterMap_append]
    rfl
  rw [hold, hnew, ← List.append_assoc, ← List.append_assoc]
  exact List.perm_append_comm.append_right _

theorem Thread.registering_cons (f : Focus V P σ ε) (fr : Frame V P σ ε)
    (st : List (Frame V P σ ε)) :
    registering p ⟨f, fr :: st⟩ = (fr.registering? p).toList ++ registering p ⟨f, st⟩ := by
  rw [registering, List.filterMap_cons]
  cases fr.registering? p <;> rfl

theorem Thread.registering_leaving {O : Type} (s : Publisher V O) (f : Focus V P σ ε)
    (st : List (Frame V P σ ε)) : registering p ⟨f, s.leaving ++ st⟩ = registering p ⟨f, st⟩ :=
  s.filterMap_leaving st fun _ => rfl

end Taken

section Tally

variable [BEq V] {body : P → Prog V P σ ε} {w w' : World V P σ ε} {t t' : Thread V P σ ε}
  {es : List (Event V ε)} {p : PublisherRef} {s : Publisher V (Observer V P σ ε)}

/-- No move but an atom of its own and the end of a registration adds a subscription. -/
theorem World.handles_perform {a : Atom V σ ε} {x : a.Answer}
    (h : w.perform a = some (x, w', es)) : w'.handles p = w.handles p := by
  rcases (World.performed h).subscriptions with he | he
  · exact World.handles_congr he
  · refine (World.handles_congr (w := (w.newSubscription none).2) he).trans ?_
    exact (World.handles_newSubscription none).trans (List.append_nil _)

/-- Numbers are handed on: what is held after a move, and what was given up in it, was held before
or has been queued. -/
theorem Thread.Moves.tally (hm : Moves body w t es w' t') :
    (Moment.orphans p ⟨w, t, es⟩ ++ removed (signals p es) ++ w'.taken p t').Perm
      (subscribed (signals p es) ++ w.taken p t) := by
  -- nothing happens to numbers
  have same : ∀ {w' : World V P σ ε} {t' : Thread V P σ ε} {ls : List (Signal V)},
      removed ls = [] → subscribed ls = [] → t'.registering p = t.registering p →
      w'.handles p = w.handles p →
      (removed ls ++ w'.taken p t').Perm (subscribed ls ++ w.taken p t) := by
    intro w' t' ls hr hs ht hw
    rw [hr, hs, World.taken, World.taken, ht, hw]
  have leaving : ∀ {s : Publisher V (Observer V P σ ε)} {f : Focus V P σ ε} {st},
      registering p ⟨f, s.leaving ++ st⟩ = registering p ⟨f, st⟩ := fun {_ _ _} =>
    registering_leaving _ _ _
  have entered : ∀ {q : PublisherRef} {s : Publisher V (Observer V P σ ε)}
      {r : Publisher V (Observer V P σ ε)},
      ((w.enterAll s.monitors).setPublisher q r).handles p = w.handles p := by
    intro q s r
    refine World.handles_congr ?_
    rw [World.enterAll_eq]
    rfl
  have called : ∀ q id v, removed (signals p [(.called q id v : Event V ε)]) = [] ∧
      subscribed (signals p [(.called q id v : Event V ε)]) = [] := by
    intro q id v
    by_cases hq : q = p <;> simp [hq, removed, Signal.removal?, subscribed,
      Signal.subscription?]
  have committed : ∀ q v, removed (signals p [(.committed q v : Event V ε)]) = [] ∧
      subscribed (signals p [(.committed q v : Event V ε)]) = [] := by
    intro q v
    by_cases hq : q = p <;> simp [hq, removed, Signal.removal?, subscribed,
      Signal.subscription?]
  cases hm with
  | resumed | unharmed | left | observed | drained | swapped | contended | caught | expelled
  | abandoned | busy | draining | panicked | entered | attempted | held | retried | amendedSame
  | disposedAgain => exact same rfl rfl rfl rfl
  | called => exact same (called _ _ _).1 (called _ _ _).2 rfl rfl
  | popped => exact same (by rw [signals_report]; rfl) (by rw [signals_report]; rfl) rfl rfl
  | performed ha =>
      refine same ?_ ?_ rfl (World.handles_perform ha)
      all_goals (rw [signals_perform p ha]; rfl)
  | amended => exact same (committed _ _).1 (committed _ _).2 rfl rfl
  | publishedSame =>
      refine same rfl rfl leaving (World.handles_congr ?_)
      rw [World.enterAll_eq]
  | @amending q f k s st hq =>
      refine same rfl rfl (leaving (f := .run (f s.current))) (World.handles_congr ?_)
      rw [World.enterAll_eq]
  | published => exact same (committed _ _).1 (committed _ _).2 leaving entered
  | prepared => exact same rfl rfl rfl ((World.handles_newSubscription _).trans (List.append_nil _))
  | tornDown hs => exact (World.handles_dispose (p := p) hs).append_left _
  | @registered v q id k st =>
      show (registering p ⟨.run _, st⟩ ++ World.handles p _).Perm
        (registering p ⟨.run _, .register q id k :: st⟩ ++ w.handles p)
      rw [World.handles_newSubscription, registering_cons]
      show (registering p ⟨.run (.ret v), st⟩ ++ (w.handles p ++
        (if q = p then some id else none).toList)).Perm
        ((if q = p then some id else none).toList ++ registering p ⟨.run (.ret v), st⟩ ++
          w.handles p)
      rw [← List.append_assoc, List.append_assoc (Option.toList _)]
      exact List.perm_append_comm
  | @passed text fr st hfr =>
      show ((fr.registering? p).toList ++ [] ++ (registering p ⟨.unwind text, st⟩ ++
        w.handles p)).Perm ([] ++ (registering p ⟨.unwind text, fr :: st⟩ ++ w.handles p))
      rw [registering_cons, List.append_nil, List.nil_append, List.append_assoc]
  | @attached q keeps o k r st hr =>
      show (removed (signals p [.queued q r.nextId]) ++ (registering p ⟨_, _ ++ _⟩ ++ _)).Perm
        (subscribed (signals p [.queued q r.nextId]) ++ _)
      rw [leaving, entered, registering_cons]
      by_cases hq : q = p
      · subst hq
        have hqueued : signals q [(.queued q r.nextId : Event V ε)] = [.queued r.nextId] := by
          simp
        have hnumber : (Frame.register q r.nextId k : Frame V P σ ε).registering? q =
            some r.nextId := if_pos rfl
        rw [hqueued, hnumber]
        exact .refl _
      · have hquiet : signals p [(.queued q r.nextId : Event V ε)] = [] := by
          simp [hq]
        have hnumber : (Frame.register q r.nextId k : Frame V P σ ε).registering? p = none :=
          if_neg hq
        rw [hquiet, hnumber]
        exact .refl _
  | @detached c q id r k st hc hr =>
      have hgiven := World.handles_dispose (p := p) hc
      show (removed (signals p [.disposed c, .detached q id _]) ++ (registering p ⟨_, st⟩ ++
        World.handles p { w with subscriptions := w.subscriptions.set c.index none })).Perm
        (subscribed (signals p [.disposed c, .detached q id _]) ++ (registering p ⟨_, st⟩ ++ _))
      by_cases hq : q = p
      · subst hq
        have hremoved : signals q [(.disposed c : Event V ε), .detached q id
            (r.detach id).observers.length] = [.detached id] := by
          simp
        have hnumber : Teardown.number? q (some (.detach q id : Teardown V P σ ε)) = some id :=
          if_pos rfl
        rw [hnumber] at hgiven
        rw [hremoved]
        have hmiddle : ∀ l₁ l₂ : List Nat, (id :: (l₁ ++ l₂)).Perm (l₁ ++ id :: l₂) := fun _ _ =>
          List.perm_middle.symm
        exact (hmiddle (registering q ⟨_, st⟩) _).trans (hgiven.append_left _)
      · have hquiet : signals p [(.disposed c : Event V ε), .detached q id
            (r.detach id).observers.length] = [] := by
          simp [hq]
        have hnumber : Teardown.number? p (some (.detach q id : Teardown V P σ ε)) = none :=
          if_neg hq
        rw [hnumber] at hgiven
        rw [hquiet]
        exact hgiven.append_left _

/-! ## Who is registered -/

omit [BEq V] in
/-- Taking an entry registers who was queued. -/
theorem Publisher.ids_pop {O : Type} {s s' : Publisher V O} {d : Delivery V O}
    (h : s.pop = some (d, s')) : s'.ids = s.ids := by
  rcases Publisher.pop_cases h with ⟨u, rest, hq, -, rfl⟩ | ⟨r, rest, hq, -, rfl⟩
  · rw [Publisher.ids_eq, Publisher.ids_eq, Publisher.waiting_of_emit hq]
    rfl
  · rw [Publisher.ids_eq, Publisher.ids_eq, Publisher.waiting_of_attach hq]
    show (s.observers ++ [r]).map (·.id) ++ _ = _
    rw [List.map_append, List.append_assoc]
    rfl

/-- An observer is registered or queued from its subscription until it is removed. -/
theorem View.Move.mem_ids {x x' : View V P σ ε} {l : List (Signal V)} (hm : View.Move p x l x')
    (hkept : x'.focus.Calm ∨ x.due.length ≤ x'.due.length) (id : Nat) :
    id ∈ x'.state.ids ↔ (id ∈ x.state.ids ∨ id ∈ subscribed l) ∧ id ∉ removed l := by
  have same : ∀ {ids : List Nat} {l : List (Signal V)}, subscribed l = [] → removed l = [] →
      (id ∈ ids ↔ (id ∈ ids ∨ id ∈ subscribed l) ∧ id ∉ removed l) := by
    intro ids l hs hr
    rw [hs, hr]
    simp
  cases hm with
  | other | busy | call | finish => exact same rfl rfl
  | start hb =>
      obtain ⟨-, rfl⟩ := Publisher.beginDrain_eq_some hb
      exact same rfl rfl
  | @commit s s' due f v hf hc =>
      obtain ⟨hw, hpres, -⟩ := Publisher.numbers_commit hc
      show id ∈ s'.ids ↔ _
      rw [Publisher.ids_eq, hw, hpres]
      exact same rfl rfl
  | @enqueue s due f o hf =>
      show id ∈ (s.enqueue o).ids ↔ (id ∈ s.ids ∨ id ∈ [s.nextId]) ∧ id ∉ []
      rw [Publisher.ids_enqueue, List.mem_append]
      exact (and_iff_left List.not_mem_nil).symm
  | @pop s d s' due v hp =>
      show id ∈ s'.ids ↔ _
      rw [Publisher.ids_pop hp]
      exact same rfl rfl
  | @detach s due f f' i hf hf' =>
      show id ∈ (s.detach i).ids ↔ (id ∈ s.ids ∨ id ∈ []) ∧ id ∉ [i]
      rw [Publisher.ids_eq, Publisher.ids_eq, Publisher.present_detach, Publisher.waiting_detach]
      simp [or_and_right]
  | abandon => exact hkept.elim False.elim fun hle => absurd hle (Nat.not_succ_le_self _)

/-- A publisher counts the registrations that are queued. -/
theorem View.Move.nextId_eq {x x' : View V P σ ε} {l : List (Signal V)} (hm : View.Move p x l x') :
    (subscribed l = [] ∧ x'.state.nextId = x.state.nextId) ∨
      (subscribed l = [x.state.nextId] ∧ x'.state.nextId = x.state.nextId + 1) := by
  cases hm with
  | other | busy | call | finish | detach | abandon => exact Or.inl ⟨rfl, rfl⟩
  | commit hf hc => exact Or.inl ⟨rfl, (Publisher.numbers_commit hc).2.2⟩
  | enqueue => exact Or.inr ⟨rfl, rfl⟩
  | start hb =>
      obtain ⟨-, rfl⟩ := Publisher.beginDrain_eq_some hb
      exact Or.inl ⟨rfl, rfl⟩
  | pop hp =>
      rcases Publisher.pop_cases hp with ⟨u, rest, -, -, rfl⟩ | ⟨r, rest, -, -, rfl⟩ <;>
        exact Or.inl ⟨rfl, rfl⟩

/-- Who is registered or queued, who holds the numbers, and what panics have broken. -/
structure Accounted (p : PublisherRef) (past : List (Moment V P σ ε))
    (s : Publisher V (Observer V P σ ε)) (w : World V P σ ε) (t : Thread V P σ ε) : Prop where
  mem : ∀ id, id ∈ s.ids ↔ id ∉ lost p past ∧ (id ∈ orphans p past ∨ id ∈ w.taken p t)
  nodup : (orphans p past ++ w.taken p t).Nodup
  bound : ∀ id, id ∈ lost p past ∨ id ∈ orphans p past ∨ id ∈ w.taken p t → id < s.nextId

section Accounts

variable {past : List (Moment V P σ ε)} {s' : Publisher V (Observer V P σ ε)} {id : Nat}

omit [BEq V] in
/-- Only what was registered or queued is lost. -/
theorem Intact.mem_of_lost (hint : Intact p s w t) (h : id ∈ Moment.lost p ⟨w, t, es⟩) :
    id ∈ s.ids := by
  rw [Moment.lost, hint.found] at h
  split at h
  · exact List.mem_append_right _ h
  · exact absurd h List.not_mem_nil

/-- An observer is registered or queued from its subscription until it is removed or lost. -/
theorem Intact.mem_ids (hint : Intact p s w t) (hm : Thread.Moves body w t es w' t')
    (hv : View.Move p (t.view p s) (signals p es) (t'.view p s')) (hint' : Intact p s' w' t')
    (id : Nat) : id ∈ s'.ids ↔ (id ∈ s.ids ∨ id ∈ subscribed (signals p es)) ∧
      id ∉ removed (signals p es) ∧ id ∉ Moment.lost p ⟨w, t, es⟩ := by
  by_cases hbreaks : t.Breaks p
  · have hlost : Moment.lost p ⟨w, t, es⟩ = s.waiting := by
      rw [Moment.lost, if_pos hbreaks, hint.found]
      rfl
    have hnodup : (s.present ++ s.waiting).Nodup := hint.lined.nodup
    have hdisjoint := (List.nodup_append.1 hnodup).2.2 id
    obtain ⟨rfl, rfl⟩ := hint.abandons hm hint' hbreaks
    rw [hlost]
    show id ∈ s.present ++ [] ↔ (id ∈ s.present ++ s.waiting ∨ id ∈ []) ∧ id ∉ [] ∧ _
    grind
  · have hlost : Moment.lost p ⟨w, t, es⟩ = [] := if_neg hbreaks
    have hids := hv.mem_ids (hm.kept hbreaks) id
    rw [hlost]
    exact hids.trans (and_congr_right' (and_iff_left List.not_mem_nil).symm)

omit [BEq V] in
/-- A number that is queued is the next one, which nobody has had. -/
theorem Accounted.fresh (h : Accounted p past s w t) {id : Nat} (hid : id = s.nextId) :
    id ∉ lost p past ∧ id ∉ orphans p past ∧ id ∉ w.taken p t := by
  subst hid
  refine ⟨fun hl => ?_, fun ho => ?_, fun ht => ?_⟩
  · exact Nat.lt_irrefl _ (h.bound _ (Or.inl hl))
  · exact Nat.lt_irrefl _ (h.bound _ (Or.inr (Or.inl ho)))
  · exact Nat.lt_irrefl _ (h.bound _ (Or.inr (Or.inr ht)))

/-- No two hold one number, whether it was given up before, is given up now, or is held. -/
theorem Accounted.apart (h : Accounted p past s w t) (hm : Thread.Moves body w t es w' t')
    (hv : View.Move p (t.view p s) (signals p es) (t'.view p s')) :
    (orphans p past ++ (Moment.orphans p ⟨w, t, es⟩ ++ removed (signals p es) ++
      w'.taken p t')).Nodup := by
  refine (hm.tally.append_left _).nodup_iff.2 ?_
  rcases hv.nextId_eq with ⟨he, -⟩ | ⟨he, -⟩
  · rw [he]
    exact h.nodup
  · obtain ⟨-, ho, ht⟩ := h.fresh rfl
    rw [he]
    have hperm : (orphans p past ++ s.nextId :: w.taken p t).Perm
        (s.nextId :: (orphans p past ++ w.taken p t)) := List.perm_middle
    refine hperm.nodup_iff.2 (List.nodup_cons.2 ⟨?_, h.nodup⟩)
    exact fun hmem => (List.mem_append.1 hmem).elim ho ht

/-- Every move keeps account of observers and of the numbers held. -/
theorem Accounted.move (h : Accounted p past s w t) (hint : Intact p s w t)
    (hm : Thread.Moves body w t es w' t')
    (hv : View.Move p (t.view p s) (signals p es) (t'.view p s')) (hint' : Intact p s' w' t') :
    Accounted p (⟨w, t, es⟩ :: past) s' w' t' := by
  have hmem : ∀ id, (id ∈ Moment.orphans p ⟨w, t, es⟩ ∨ id ∈ removed (signals p es) ∨
      id ∈ w'.taken p t') ↔ (id ∈ subscribed (signals p es) ∨ id ∈ w.taken p t) := by
    intro id
    simpa [or_assoc] using (hm.tally (p := p)).mem_iff (a := id)
  have hqueued : ∀ id ∈ subscribed (signals p es), id = s.nextId ∧ id < s'.nextId := by
    intro id hid
    rcases hv.nextId_eq with ⟨hnone, -⟩ | ⟨hone, hnext⟩
    · exact absurd (hnone ▸ hid) List.not_mem_nil
    · obtain rfl := List.mem_singleton.1 (hone ▸ hid)
      exact ⟨rfl, Nat.lt_of_lt_of_eq (Nat.lt_succ_self _) hnext.symm⟩
  have hle : s.nextId ≤ s'.nextId := by
    rcases hv.nextId_eq with ⟨-, he⟩ | ⟨-, he⟩
    · exact Nat.le_of_eq he.symm
    · exact Nat.le_of_lt (Nat.lt_of_lt_of_eq (Nat.lt_succ_self _) he.symm)
  have hapart := h.apart hm hv
  constructor
  case mem =>
    intro id
    -- who is removed has held the number, so nobody else has
    have hremoved : id ∈ removed (signals p es) → id ∉ orphans p past ∧
        id ∉ Moment.orphans p ⟨w, t, es⟩ ∧ id ∉ w'.taken p t' := by
      intro hr
      grind [List.nodup_append]
    have hfresh := fun hid => h.fresh (hqueued id hid).1
    have hbefore := h.mem id
    have hafter := hint.mem_ids hm hv hint' id
    have hlost : id ∈ Moment.lost p ⟨w, t, es⟩ → id ∈ s.ids := hint.mem_of_lost
    have hnumber := hmem id
    show id ∈ s'.ids ↔ id ∉ Moment.lost p ⟨w, t, es⟩ ++ lost p past ∧
      (id ∈ Moment.orphans p ⟨w, t, es⟩ ++ orphans p past ∨ id ∈ w'.taken p t')
    grind
  case nodup =>
    have hsub : (orphans p past ++ (Moment.orphans p ⟨w, t, es⟩ ++ w'.taken p t')).Sublist
        (orphans p past ++ (Moment.orphans p ⟨w, t, es⟩ ++ removed (signals p es) ++
          w'.taken p t')) := by
      refine (List.Sublist.refl _).append (List.Sublist.append ?_ (List.Sublist.refl _))
      exact List.sublist_append_left _ _
    have hperm : (orphans p past ++ Moment.orphans p ⟨w, t, es⟩).Perm
        (Moment.orphans p ⟨w, t, es⟩ ++ orphans p past) := List.perm_append_comm
    refine ((hperm.append_right (w'.taken p t')).nodup_iff).1 ?_
    rw [List.append_assoc]
    exact hapart.sublist hsub
  case bound =>
    have hold : ∀ id, id ∈ lost p past ∨ id ∈ orphans p past ∨ id ∈ w.taken p t →
        id < s'.nextId := fun id hid => Nat.lt_of_lt_of_le (h.bound id hid) hle
    have hnew : ∀ id, id ∈ subscribed (signals p es) ∨ id ∈ w.taken p t → id < s'.nextId := by
      rintro id (hnew | htaken)
      · exact (hqueued id hnew).2
      · exact hold id (Or.inr (Or.inr htaken))
    rintro id (hl | ho | ht)
    · rcases List.mem_append.1 hl with hl | hl
      · have hlt := (List.pairwise_append.1 hint.lined).2.2 id (hint.mem_of_lost hl) _
          (List.mem_singleton_self _)
        exact Nat.lt_of_lt_of_le hlt hle
      · exact hold id (Or.inl hl)
    · rcases List.mem_append.1 ho with ho | ho
      · exact hnew id ((hmem id).1 (Or.inl ho))
      · exact hold id (Or.inr (Or.inl ho))
    · exact hnew id ((hmem id).1 (Or.inr (Or.inr ht)))

end Accounts

/-! ## No panic goes through a registration unless it ends a drain -/

omit [BEq V] in
/-- Whether only monitors are left before a registration with a publisher comes back. -/
inductive Returning (p : PublisherRef) : List (Frame V P σ ε) → Prop where
  | here {id k st} : Returning p (.register p id k :: st)
  | leave {m st} : Returning p st → Returning p (.leave m :: st)

omit [BEq V] in
/-- Whether nothing but its drain runs on top of a registration. -/
def Frames.Sheltered (p : PublisherRef) : List (Frame V P σ ε) → Prop
  | [] => True
  | fr :: st => Sheltered p st ∧
      (Returning p st → (∃ m, fr = .leave m) ∨ ∃ calls, fr = .deliver p calls)

/-- Whether registrations with a publisher come back unless a panic ends a drain of it. -/
structure Thread.Sheltered (p : PublisherRef) (t : Thread V P σ ε) : Prop where
  frames : Frames.Sheltered p t.stack
  focus : Returning p t.stack → t.focus = .drain p ∨ ∃ v, t.focus = .run (.ret v)

section Shelter

variable {f : Focus V P σ ε} {fr : Frame V P σ ε} {st : List (Frame V P σ ε)}

omit [BEq V] in
theorem Returning.of_leaving {O : Type} {s : Publisher V O} (h : Returning p (s.leaving ++ st)) :
    Returning p st :=
  s.leaving_induction (motive := fun st' => Returning p st' → Returning p st)
    (fun _ _ ih => fun | .leave h => ih h) id h

omit [BEq V] in
theorem Frames.Sheltered.leaving {O : Type} (s : Publisher V O) (h : Frames.Sheltered p st) :
    Frames.Sheltered p (s.leaving ++ st) :=
  s.leaving_induction (fun m _ ih => ⟨ih, fun _ => Or.inl ⟨m, rfl⟩⟩) h

omit [BEq V] in
/-- Where no registration waits to come back there is nothing to shelter. -/
theorem Frames.sheltered_of_registering (h : Thread.registering p ⟨f, st⟩ = []) :
    Frames.Sheltered p st ∧ ¬ Returning p st := by
  induction st with
  | nil => exact ⟨trivial, nofun⟩
  | cons fr st ih =>
      rw [Thread.registering_cons, List.append_eq_nil_iff] at h
      obtain ⟨hframes, hnot⟩ := ih h.2
      refine ⟨⟨hframes, fun hr => absurd hr hnot⟩, fun hr => ?_⟩
      cases hr with
      | here =>
          have hself : (if p = p then some _ else none : Option Nat).toList = [] := h.1
          rw [if_pos rfl] at hself
          exact nomatch hself
      | leave hr => exact hnot hr

omit [BEq V] in
/-- Nobody but a drain and a value on its way are on top of a registration. -/
theorem Thread.Sheltered.exposed (h : Thread.Sheltered p ⟨f, st⟩) (hdrain : f ≠ .drain p)
    (hret : ∀ v, f ≠ .run (.ret v)) : ¬ Returning p st := fun hr =>
  (h.focus hr).elim hdrain fun ⟨v, hv⟩ => hret v hv

omit [BEq V] in
/-- A frame that does not return to a registration is put on top. -/
theorem Thread.Sheltered.push (h : Frames.Sheltered p st) (hnot : ¬ Returning p st)
    (hfr : ¬ Returning p (fr :: st)) : Thread.Sheltered p ⟨f, fr :: st⟩ :=
  ⟨⟨h, fun hr => absurd hr hnot⟩, fun hr => absurd hr hfr⟩

omit [BEq V] in
/-- A frame that is neither a drain nor leaves a monitor is taken off. -/
theorem Thread.Sheltered.pop {f' : Focus V P σ ε} (h : Thread.Sheltered p ⟨f, fr :: st⟩)
    (hleave : ∀ m, fr ≠ .leave m) (hdeliver : ∀ calls, fr ≠ .deliver p calls) :
    Thread.Sheltered p ⟨f', st⟩ :=
  ⟨h.frames.1, fun hr => (h.frames.2 hr).elim (fun ⟨m, hm⟩ => absurd hm (hleave m))
    fun ⟨calls, hcalls⟩ => absurd hcalls (hdeliver calls)⟩

/-- Registrations stay sheltered as long as no panic ends a drain. -/
theorem Thread.Sheltered.move (h : t.Sheltered p) (hm : Moves body w t es w' t')
    (hwhole : ¬ t.Breaks p) : t'.Sheltered p := by
  -- a program that performs an operation is not on top of a registration
  have running : ∀ {c : Prog V P σ ε} {st : List (Frame V P σ ε)},
      Thread.Sheltered p ⟨.run c, st⟩ → (∀ v, c ≠ .ret v) → ¬ Returning p st := by
    intro c st h hc
    exact h.exposed nofun fun v hv => hc v (by cases hv; rfl)
  -- nothing is put on the stack
  have goes : ∀ {f f' : Focus V P σ ε} {st : List (Frame V P σ ε)}, Thread.Sheltered p ⟨f, st⟩ →
      ¬ Returning p st → Thread.Sheltered p ⟨f', st⟩ := fun h hnot =>
    ⟨h.frames, fun hr => absurd hr hnot⟩
  have delivers : ∀ {q : PublisherRef} {calls calls' : List (Call V (Observer V P σ ε))}
      {st : List (Frame V P σ ε)}, Frames.Sheltered p (.deliver q calls :: st) →
      Frames.Sheltered p (.deliver q calls' :: st) := by
    intro q calls calls' st h
    refine ⟨h.1, fun hr => Or.inr ?_⟩
    obtain ⟨m, hm⟩ | ⟨calls₁, hcalls⟩ := h.2 hr
    · exact nomatch hm
    · cases hcalls
      exact ⟨_, rfl⟩
  have monitors : ∀ {s : Publisher V (Observer V P σ ε)} {f : Focus V P σ ε} {fr : Frame V P σ ε}
      {st : List (Frame V P σ ε)}, Frames.Sheltered p st → ¬ Returning p st →
      (Returning p (fr :: st) → f = .drain p) → Thread.Sheltered p ⟨f, s.leaving ++ fr :: st⟩ :=
    fun h hnot hf =>
      ⟨Frames.Sheltered.leaving _ ⟨h, fun hr => absurd hr hnot⟩, fun hr => Or.inl (hf hr.of_leaving)⟩
  cases hm with
  | resumed | unharmed | observed | caught | amendedSame | swapped | registered | amended =>
      exact h.pop nofun nofun
  | left | drained => exact ⟨h.frames.1, fun _ => Or.inr ⟨_, rfl⟩⟩
  | called => exact .push (delivers h.frames) nofun nofun
  | popped => exact ⟨delivers h.frames, nofun⟩
  | @contended v c stamp n f d st hc hs =>
      have hnot : ¬ Returning p st := fun hr => (h.frames.2 hr).elim nofun nofun
      exact .push h.frames.1 hnot nofun
  | expelled => exact ⟨h.frames.1, fun hr => absurd (.leave hr) (h.exposed nofun nofun)⟩
  | @abandoned text q calls s st hq =>
      refine ⟨h.frames.1, fun hr => ?_⟩
      obtain ⟨m, hm⟩ | ⟨calls', hcalls⟩ := h.frames.2 hr
      · exact nomatch hm
      · cases hcalls
        exact absurd rfl hwhole
  | @passed text fr st hfr =>
      refine ⟨h.frames.1, fun hr => ?_⟩
      obtain ⟨m, rfl⟩ | ⟨calls', rfl⟩ := h.frames.2 hr
      · exact hfr.elim
      · exact hfr.elim
  | busy => exact ⟨h.frames, fun _ => Or.inr ⟨_, rfl⟩⟩
  | @draining q s s' st =>
      refine ⟨⟨h.frames, fun hr => ?_⟩, nofun⟩
      obtain hq | ⟨v, hv⟩ := h.focus hr
      · cases hq
        exact Or.inr ⟨_, rfl⟩
      · exact nomatch hv
  | panicked | performed | prepared | disposedAgain | detached => exact goes h (running h nofun)
  | entered | attempted | tornDown => exact .push h.frames (running h nofun) nofun
  | @held m b k st =>
      have hbelow : Thread.Sheltered p ⟨.run b, .resume k :: st⟩ :=
        .push h.frames (running h nofun) nofun
      exact .push hbelow.frames nofun fun | .leave hr => nomatch hr
  | @retried c f k d st hc =>
      have hbelow : Thread.Sheltered p ⟨.run (f d.value), .resume k :: st⟩ :=
        .push h.frames (running h nofun) nofun
      exact .push hbelow.frames nofun nofun
  | publishedSame | published => exact monitors h.frames (running h nofun) nofun
  | @amending q f k s st hq =>
      have hbelow : Thread.Sheltered p ⟨.run (f s.current), s.leaving ++ .resume k :: st⟩ :=
        monitors h.frames (running h nofun) nofun
      exact .push hbelow.frames (fun hr => nomatch hr.of_leaving) nofun
  | @attached q keeps o k s st hq =>
      refine monitors h.frames (running h nofun) fun hr => ?_
      cases hr
      rfl

omit [BEq V] in
/-- A sheltered registration is not in the way of a panic. -/
theorem Thread.Sheltered.orphans_eq_nil (h : t.Sheltered p) :
    Moment.orphans p ⟨w, t, es⟩ = [] := by
  obtain ⟨f, st⟩ := t
  cases f with
  | run c => rfl
  | drain q => rfl
  | unwind text =>
      cases st with
      | nil => rfl
      | cons fr st =>
          show (fr.registering? p).toList = []
          cases fr with
          | register q id k =>
              have hq : q ≠ p := by
                rintro rfl
                exact h.exposed nofun nofun .here
              exact congrArg Option.toList (if_neg hq)
          | _ => rfl

end Shelter

/-! ## From the beginning -/

variable {guard : Option LockId} {c₀ : V} {w₀ : World V P σ ε} {t₀ : Thread V P σ ε}
  {past : List (Moment V P σ ε)}

omit [BEq V] in
theorem lost_of_whole (h : ∀ m ∈ past, ¬ m.thread.Breaks p) : lost p past = [] :=
  List.flatMap_eq_nil_iff.2 fun m hm => if_neg (h m hm)

/-- Nobody holds a number of a publisher that has just been made. -/
theorem Born.taken (h : Born body p guard c₀ w t) : t.registering p = [] ∧ w.handles p = [] := by
  obtain @⟨w, w', k, st, hr, hperf⟩ := h
  cases hperf
  have hnumbered := hr.numbered
  have hunknown : ∀ id, ¬ w.Issued ⟨w.publishers.size⟩ id := by
    rintro id ⟨s, hs, -⟩
    exact nomatch (Heap.get?_size w.publishers).symm.trans hs
  constructor
  · refine List.filterMap_eq_nil_iff.2 fun fr hfr => ?_
    cases fr with
    | register q id k =>
        refine if_neg fun hq => ?_
        subst hq
        exact hunknown id (hnumbered.frames _ _ _ hfr)
    | _ => rfl
  · refine List.eq_nil_iff_forall_not_mem.2 fun id hid => ?_
    obtain ⟨i, hi⟩ := World.mem_handles.1 hid
    exact hunknown id (hnumbered.subscriptions _ _ _ hi)

/-- Whenever nothing is delivered and nobody is subscribing, who is registered is who has a
subscription that is not disposed, except for what panics have broken: an observer whose queued
registration a panic threw away is not registered, and one whose registration a panic went through
stays without a subscription. As long as no panic ends a drain there is neither. -/
theorem handles_match (h₀ : Born body p guard c₀ w₀ t₀) (h : Path body w₀ t₀ past w t) :
    ∃ s, w.publisher? p = some s ∧
      (t.Settled p → t.registering p = [] →
        (∀ id, id ∈ s.present ↔
          id ∉ lost p past ∧ (id ∈ orphans p past ∨ ∃ i, w.Detaches p id i)) ∧ s.present.Nodup) ∧
      ((∀ m ∈ past, ¬ m.thread.Breaks p) → lost p past = [] ∧ orphans p past = []) := by
  obtain ⟨hset, hreg⟩ := h₀.regular
  obtain ⟨hregistering, hhandles⟩ := h₀.taken
  have htaken : w₀.taken p t₀ = [] := by rw [World.taken, hregistering, hhandles]; rfl
  let Inv (past : List (Moment V P σ ε)) (s : Publisher V (Observer V P σ ε))
      (w : World V P σ ε) (t : Thread V P σ ε) : Prop :=
    Accounted p past s w t ∧
      ((∀ m ∈ past, ¬ m.thread.Breaks p) → t.Sheltered p ∧ orphans p past = [])
  have hborn : Inv [] (.new guard c₀) w₀ t₀ := by
    obtain ⟨hframes, hnot⟩ := Frames.sheltered_of_registering (f := t₀.focus) hregistering
    refine ⟨⟨fun id => ?_, ?_, ?_⟩, fun _ => ⟨⟨hframes, fun hr => absurd hr hnot⟩, rfl⟩⟩
    · rw [htaken]
      exact ⟨nofun, fun h => h.2.elim nofun nofun⟩
    · rw [htaken]
      exact .nil
    · rw [htaken]
      rintro id (h | h | h) <;> exact nomatch h
  obtain ⟨s, hint, haccounts, hshelter⟩ := h.follow Inv hreg.intact hborn
    (fun past s w t es s' w' t' hinv hint hm hv hint' => by
      refine ⟨hinv.1.move hint hm hv hint', fun hwhole => ?_⟩
      obtain ⟨hsheltered, horphans⟩ := hinv.2 fun m hm => hwhole m (List.mem_cons_of_mem _ hm)
      refine ⟨hsheltered.move hm (hwhole _ List.mem_cons_self), ?_⟩
      show Moment.orphans p ⟨w, t, es⟩ ++ orphans p past = []
      rw [hsheltered.orphans_eq_nil, horphans]
      rfl)
    (fun past s w t c o hinv hend => by
      have hstack : t.stack = (Thread.start c).stack := Thread.stack_of_outcome hend
      have htaken : (Thread.start c).registering p = t.registering p :=
        congrArg (List.filterMap _) hstack.symm
      refine ⟨?_, fun hwhole => ⟨⟨trivial, nofun⟩, (hinv.2 hwhole).2⟩⟩
      have htaken : w.taken p (.start c) = w.taken p t := congrArg (· ++ _) htaken
      exact ⟨htaken ▸ hinv.1.mem, htaken ▸ hinv.1.nodup, htaken ▸ hinv.1.bound⟩)
  refine ⟨s, hint.found, fun hset hnone => ?_, fun hwhole => ?_⟩
  · have hids : s.ids = s.present := by
      rw [Publisher.ids_eq, Publisher.waiting_of_empty (hint.idle hset).2, List.append_nil]
    have htaken : w.taken p t = w.handles p := congrArg (· ++ _) hnone
    refine ⟨fun id => ?_, (List.nodup_append.1 hint.lined.nodup).1⟩
    have hmem := haccounts.mem id
    rwa [hids, htaken, World.mem_handles] at hmem
  · exact ⟨lost_of_whole hwhole, (hshelter hwhole).2⟩

end Tally

/-- A client whose observer answers the value 1 by subscribing another observer and panicking. The
client writes 1, goes on after the panic, and subscribes an observer that panics at once. -/
def forsaking (p : PublisherRef) : Prog Nat Empty Unit Unit :=
  .attach p [] (fun v => if v = 1 then .attach p [] .ret fun _ => .panic "boom" else .ret v) fun _ =>
    .attempt (.publish p 1 (.ret 0)) fun _ =>
      .attempt (.attach p [] (fun _ => .panic "boom") fun _ => .ret 0) fun _ => .ret 0

/-- The second observer has a subscription and is not registered; the third one is registered and
has none. -/
theorem handles_match_forsaking :
    ∃ past w s w', Path nofun w (.start (forsaking ⟨0⟩)) past w' (.start (.ret 0)) ∧
      w'.publisher? ⟨0⟩ = some s ∧ s.present = [0, 2] ∧ w'.handles ⟨0⟩ = [0, 1] ∧
      1 ∈ lost ⟨0⟩ past ∧ 2 ∈ orphans ⟨0⟩ past := by
  let w₀ : World Nat Empty Unit Unit := World.new ()
  let w₁ : World Nat Empty Unit Unit := { w₀ with publishers := .alloc .empty (.new none 0) }
  have h₀ : Born nofun ⟨0⟩ none 0 w₁ (.start (forsaking ⟨0⟩)) :=
    .made ⟨(), .atom (.newPublisher none 0) forsaking, [], .refl⟩ rfl
  obtain ⟨w, s, hmade, hq, hpresent, hhandles⟩ : ∃ (w : World Nat Empty Unit Unit)
      (s : Publisher Nat (Observer Nat Empty Unit Unit)),
      Thread.run nofun (fun _ _ _ => (none : Option Unit)) 50 w₁ (.start (forsaking ⟨0⟩)) [] =
        (w, .start (.ret 0), []) ∧
      w.publisher? ⟨0⟩ = some s ∧ s.present = [0, 2] ∧ w.handles ⟨0⟩ = [0, 1] :=
    ⟨_, _, rfl, rfl, rfl, rfl⟩
  obtain ⟨es, hrun⟩ : ∃ es, Run nofun (fun _ => False) Thread.Any w₁ (.start (forsaking ⟨0⟩)) es w
      (.start (.ret 0)) := Run.of_run hmade
  obtain ⟨past, hpath, -⟩ := hrun.path
  obtain ⟨s', hs', hmatch, -⟩ := handles_match h₀ hpath
  obtain rfl := Option.some.inj (hs'.symm.trans hq)
  obtain ⟨hmem, -⟩ := hmatch (Thread.settled_start ⟨0⟩ _) rfl
  have hheld : ∀ id, (∃ i, w.Detaches ⟨0⟩ id i) ↔ id ∈ [0, 1] := fun id => by
    rw [← World.mem_handles, hhandles]
  have hnone : 1 ∉ s'.present := hpresent ▸ by decide
  have hthird : 2 ∈ s'.present := hpresent ▸ by decide
  refine ⟨past, w₁, s', w, hpath, hs', hpresent, hhandles, ?_, ?_⟩
  · refine Decidable.byContradiction fun hkept => hnone ((hmem 1).2 ⟨hkept, Or.inr ?_⟩)
    exact (hheld 1).2 (by decide)
  · exact ((hmem 2).1 hthird).2.resolve_right fun h => absurd ((hheld 2).1 h) (by decide)

end ReactiveCells
