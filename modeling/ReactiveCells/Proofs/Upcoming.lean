import ReactiveCells.Proofs.Discipline

/-!
# What a queue holds for one observer

A registered observer will be handed every queued change. One that waits in the queue will be
handed the value delivered last before its turn, and then the changes queued behind it. Anybody
else gets nothing. `Publisher.upcoming` is that list, and the lemmas here say what each operation
of a publisher does to it: a commit appends to it, taking an entry moves its head into the calls
due, and nothing else changes it but the observer's own coming and going.

Main statements: `upcoming_commit`, `upcoming_enqueue_self`, `upcoming_detach_ne` and
`handed_pop`.
-/

namespace ReactiveCells

variable {V O : Type}

namespace Pending

/-- What an observer that waits in the queue will be handed, given the value delivered last. -/
def replayed (id : Nat) (last : V) : List (Pending V O) → List V
  | [] => []
  | .emit v :: q => replayed id v q
  | .attach r :: q => if r.id = id then last :: values q else replayed id last q

/-- An observer that does not wait is handed nothing. -/
theorem replayed_of_notMem {id : Nat} {q : List (Pending V O)} (h : id ∉ numbers q) (last : V) :
    replayed id last q = [] := by
  induction q generalizing last with
  | nil => rfl
  | cons a q ih =>
      cases a with
      | emit v => exact ih h v
      | attach r =>
          have hne : r.id ≠ id := fun e => h (e ▸ List.mem_cons_self)
          rw [replayed, if_neg hne]
          exact ih (fun hm => h (List.mem_cons_of_mem _ hm)) last

/-- A change queued last reaches everybody who waits. -/
theorem replayed_emit {id : Nat} {q : List (Pending V O)} (h : id ∈ numbers q) (last v : V) :
    replayed id last (q ++ [.emit v]) = replayed id last q ++ [v] := by
  induction q generalizing last with
  | nil => exact nomatch h
  | cons a q ih =>
      cases a with
      | emit u => exact ih h u
      | attach r =>
          rw [List.cons_append, replayed, replayed]
          by_cases e : r.id = id
          · rw [if_pos e, if_pos e, values, List.filterMap_append]
            rfl
          · rw [if_neg e, if_neg e]
            rcases List.mem_cons.1 h with hid | hid
            · exact absurd hid.symm e
            · exact ih hid last

/-- A registration queued last is of no concern to the others. -/
theorem replayed_attach_ne {id : Nat} {r : Registration O} (h : r.id ≠ id)
    (q : List (Pending V O)) (last : V) :
    replayed id last (q ++ [.attach r]) = replayed id last q := by
  induction q generalizing last with
  | nil =>
      show (if r.id = id then _ else _) = []
      rw [if_neg h]
      rfl
  | cons a q ih =>
      cases a with
      | emit u => exact ih u
      | attach r' =>
          rw [List.cons_append, replayed, replayed, ih]
          by_cases e : r'.id = id
          · rw [if_pos e, if_pos e, values, List.filterMap_append]
            exact congrArg _ (List.append_nil _)
          · rw [if_neg e, if_neg e]

/-- An observer queued last will be handed the last value of all. -/
theorem replayed_attach_self {r : Registration O} {q : List (Pending V O)}
    (h : r.id ∉ numbers q) (last : V) :
    some (replayed r.id last (q ++ [.attach r])) =
      ((last :: values q).getLast?).map ([·]) := by
  induction q generalizing last with
  | nil =>
      rw [List.nil_append, replayed, if_pos rfl]
      rfl
  | cons a q ih =>
      cases a with
      | emit u =>
          rw [show (last :: values (.emit u :: q)) = last :: u :: values q from rfl,
            List.getLast?_cons_cons]
          exact ih h u
      | attach r' =>
          have hne : r'.id ≠ r.id := fun e => h (e ▸ List.mem_cons_self)
          rw [List.cons_append, replayed, if_neg hne]
          exact ih (fun hm => h (List.mem_cons_of_mem _ hm)) last

/-- The removal of one observer is of no concern to the others. -/
theorem replayed_filter {id i : Nat} (h : id ≠ i) (q : List (Pending V O)) (last : V) :
    replayed id last (q.filter (·.id? != some i)) = replayed id last q := by
  induction q generalizing last with
  | nil => rfl
  | cons a q ih =>
      cases a with
      | emit u => exact ih u
      | attach r =>
          have hv : values (q.filter (·.id? != some i)) = values q := by
            have := Publisher.changes_detach (⟨none, last, last, [], q, false, 0⟩ : Publisher V O) i
            exact this
          by_cases e : r.id = i
          · rw [List.filter_cons_of_neg (by simp [id?, e]), replayed,
              if_neg (fun e' => h (e'.symm.trans e))]
            exact ih last
          · rw [List.filter_cons_of_pos (by simp [id?, e]), replayed, replayed, ih, hv]

end Pending

namespace Publisher

variable {s s' : Publisher V O} {id i : Nat}

/-- What an observer will be handed if nothing new happens. -/
def upcoming (s : Publisher V O) (id : Nat) : List V :=
  if id ∈ s.present then s.changes else Pending.replayed id s.delivered s.pending

theorem upcoming_of_present (h : id ∈ s.present) : s.upcoming id = s.changes :=
  if_pos h

theorem upcoming_of_notMem_present (h : id ∉ s.present) :
    s.upcoming id = Pending.replayed id s.delivered s.pending :=
  if_neg h

/-- A stranger is handed nothing. -/
theorem upcoming_of_notMem (h : id ∉ s.ids) : s.upcoming id = [] := by
  have hp : id ∉ s.present := fun hm => h (List.mem_append_left _ hm)
  have hw : id ∉ s.waiting := fun hm => h (List.mem_append_right _ hm)
  rw [upcoming_of_notMem_present hp]
  exact Pending.replayed_of_notMem hw _

/-- A new change will reach every observer registered or queued. -/
theorem upcoming_commit [BEq V] {v : V} (h : s.commit v = some s') (hid : id ∈ s.ids) :
    s'.upcoming id = s.upcoming id ++ [v] := by
  have hpr := (numbers_commit h).2.1
  by_cases hp : id ∈ s.present
  · rw [upcoming_of_present hp, upcoming_of_present (hpr ▸ hp), changes_commit h]
  · have hw : id ∈ s.waiting := (List.mem_append.1 hid).resolve_left hp
    rw [upcoming_of_notMem_present hp, upcoming_of_notMem_present (hpr ▸ hp), commit_eq_some h]
    exact Pending.replayed_emit hw _ _

/-- An observer that subscribes now will be handed the value held now. -/
theorem upcoming_enqueue_self (o : O) (h : s.nextId ∉ s.ids)
    (hc : s.timeline.getLast? = some s.current) :
    (s.enqueue o).upcoming s.nextId = [s.current] := by
  have hp : s.nextId ∉ s.present := fun hm => h (List.mem_append_left _ hm)
  have hw : s.nextId ∉ s.waiting := fun hm => h (List.mem_append_right _ hm)
  have hr := Pending.replayed_attach_self (r := ⟨s.nextId, o⟩) hw s.delivered
  rw [show s.delivered :: Pending.values s.pending = s.timeline from rfl, hc] at hr
  rw [upcoming_of_notMem_present (show s.nextId ∉ (s.enqueue o).present from hp)]
  exact Option.some.inj hr

theorem upcoming_enqueue_ne (o : O) (h : s.nextId ≠ id) :
    (s.enqueue o).upcoming id = s.upcoming id := by
  have hc := changes_enqueue s o
  by_cases hp : id ∈ s.present
  · rw [upcoming_of_present hp, upcoming_of_present (show id ∈ (s.enqueue o).present from hp), hc]
  · rw [upcoming_of_notMem_present hp,
      upcoming_of_notMem_present (show id ∉ (s.enqueue o).present from hp)]
    exact Pending.replayed_attach_ne (r := ⟨s.nextId, o⟩) h _ _

/-- The removal of one observer is of no concern to the others. -/
theorem upcoming_detach_ne (h : id ≠ i) : (s.detach i).upcoming id = s.upcoming id := by
  have hm : id ∈ (s.detach i).present ↔ id ∈ s.present := by
    rw [present_detach, List.mem_filter]
    simp [h]
  by_cases hp : id ∈ s.present
  · rw [upcoming_of_present hp, upcoming_of_present (hm.2 hp), changes_detach]
  · rw [upcoming_of_notMem_present hp, upcoming_of_notMem_present (fun e => hp (hm.1 e))]
    exact Pending.replayed_filter h _ _

end Publisher

/-- The values that calls hand to one observer. -/
def handed (id : Nat) (calls : List (Call V O)) : List V :=
  calls.filterMap fun c => if c.id = id then some c.value else none

theorem handed_of_notMem {id : Nat} {calls : List (Call V O)} (h : id ∉ calls.map (·.id)) :
    handed id calls = [] := by
  induction calls with
  | nil => rfl
  | cons c calls ih =>
      have hne : c.id ≠ id := fun e => h (e ▸ List.mem_cons_self)
      rw [handed, List.filterMap_cons, if_neg hne]
      exact ih fun hm => h (List.mem_cons_of_mem _ hm)

theorem handed_append (id : Nat) (calls calls' : List (Call V O)) :
    handed id (calls ++ calls') = handed id calls ++ handed id calls' :=
  List.filterMap_append

/-- A round hands its value to every registered observer once. -/
theorem handed_round {s : Publisher V O} {id : Nat} (hn : s.present.Nodup) (v : V)
    (h : id ∈ s.present) : handed id (s.round v) = [v] := by
  have main : ∀ os : List (Registration O), (os.map (·.id)).Nodup → id ∈ os.map (·.id) →
      handed id (os.map fun r => ⟨r.id, v, r.observer⟩) = [v] := by
    intro os
    induction os with
    | nil => intro _ hid; exact nomatch hid
    | cons r os ih =>
        intro hos hid
        obtain ⟨hr, hos⟩ := List.nodup_cons.1 hos
        rw [List.map_cons, handed, List.filterMap_cons]
        by_cases e : r.id = id
        · subst e
          rw [if_pos rfl]
          have hnone : handed r.id (os.map fun r => (⟨r.id, v, r.observer⟩ : Call V O)) = [] := by
            apply handed_of_notMem
            rw [List.map_map]
            exact hr
          exact congrArg (v :: ·) hnone
        · rw [if_neg e]
          rcases List.mem_cons.1 hid with h' | h'
          · exact absurd h'.symm e
          · exact ih hos h'
  exact main s.observers hn h

/-- Taking an entry moves the head of what each observer will be handed into the calls due. -/
theorem handed_pop {s s' : Publisher V O} {d : Delivery V O} (h : s.pop = some (d, s'))
    (hn : s.ids.Nodup) (id : Nat) : handed id d.calls ++ s'.upcoming id = s.upcoming id := by
  have hpn : s.present.Nodup := (List.nodup_append.1 hn).1
  rcases Publisher.pop_cases h with ⟨v, rest, hq, rfl, hs⟩ | ⟨r, rest, hq, rfl, hs⟩
  · -- a change: whoever is registered is handed it, and whoever waits is not
    have hpr : s'.present = s.present := by rw [hs]; rfl
    show handed id (s.round v) ++ _ = _
    by_cases hp : id ∈ s.present
    · rw [handed_round hpn v hp, Publisher.upcoming_of_present hp,
        Publisher.upcoming_of_present (hpr ▸ hp), Publisher.changes_of_emit hq, hs]
      rfl
    · have hnone : handed id (s.round v) = [] := by
        apply handed_of_notMem
        rw [Publisher.map_id_round]
        exact hp
      rw [hnone, Publisher.upcoming_of_notMem_present hp,
        Publisher.upcoming_of_notMem_present (hpr ▸ hp), hq, hs]
      rfl
  · -- a registration: its observer alone is handed the value delivered last
    have hpr : s'.present = s.present ++ [r.id] := by
      rw [hs]
      exact List.map_append
    have hr : r.id ∉ s.present := by
      intro hm
      refine (List.nodup_append.1 hn).2.2 _ hm r.id ?_ rfl
      show r.id ∈ s.waiting
      rw [Publisher.waiting_of_attach hq]
      exact List.mem_cons_self
    show handed id [⟨r.id, s.delivered, r.observer⟩] ++ _ = _
    by_cases e : r.id = id
    · subst e
      have hp' : r.id ∈ s'.present := by
        rw [hpr]
        exact List.mem_append_right _ (List.mem_singleton_self _)
      rw [Publisher.upcoming_of_present hp', Publisher.upcoming_of_notMem_present hr, hq, hs,
        Pending.replayed, if_pos rfl, handed, List.filterMap_cons, if_pos rfl]
      rfl
    · have hnone : handed id [(⟨r.id, s.delivered, r.observer⟩ : Call V O)] = [] :=
        handed_of_notMem fun hm => e (List.mem_singleton.1 hm).symm
      rw [hnone]
      by_cases hp : id ∈ s.present
      · have hp' : id ∈ s'.present := by
          rw [hpr]
          exact List.mem_append_left _ hp
        rw [Publisher.upcoming_of_present hp, Publisher.upcoming_of_present hp',
          Publisher.changes_of_attach hq, hs]
        rfl
      · have hp' : id ∉ s'.present := by
          rw [hpr, List.mem_append, List.mem_singleton]
          rintro (hm | hm)
          · exact hp hm
          · exact e hm.symm
        rw [Publisher.upcoming_of_notMem_present hp, Publisher.upcoming_of_notMem_present hp', hq,
          hs, Pending.replayed, if_neg e]
        rfl

end ReactiveCells
