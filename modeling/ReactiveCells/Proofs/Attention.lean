import ReactiveCells.Proofs.Life

/-!
# Attention — what an observer has yet to hear

A registered observer is called with the value held sooner or later, so whatever it does about a
value it does in the end about the value held. `View.Attended` says this at every moment: the value
held is as it should be already, or a change is queued, or an observer with the reaction in question
has yet to be called. It stops being so only when that observer is called with the value held, and
then the reaction is what runs next.

Main statements: `Move.registered` (only disposal takes an observer away), `Attended.move` and
`Attended.settled`.
-/

namespace ReactiveCells

variable {V P σ ε : Type}

/-! ## Registrations -/

/-- The registration that waits in a queue entry. -/
def Pending.registration? {O : Type} : Pending V O → Option (Registration O)
  | .emit _ => none
  | .attach r => some r

/-- The registrations queued. -/
def Publisher.arrivals {O : Type} (s : Publisher V O) : List (Registration O) :=
  s.pending.filterMap Pending.registration?

/-- The registrations made and queued. -/
def Publisher.registrations {O : Type} (s : Publisher V O) : List (Registration O) :=
  s.observers ++ s.arrivals

section Registrations

variable {O : Type} {s s' : Publisher V O}

section Head

variable {v : V} {r : Registration O} {rest : List (Pending V O)}

theorem Publisher.arrivals_of_emit (h : s.pending = .emit v :: rest) :
    s.arrivals = rest.filterMap Pending.registration? := by
  rw [arrivals, h]
  rfl

theorem Publisher.arrivals_of_attach (h : s.pending = .attach r :: rest) :
    s.arrivals = r :: rest.filterMap Pending.registration? := by
  rw [arrivals, h]
  rfl

theorem Publisher.arrivals_of_empty (h : s.pending = []) : s.arrivals = [] := by
  rw [arrivals, h]
  rfl

theorem Publisher.registrations_of_empty (h : s.pending = []) : s.registrations = s.observers := by
  rw [registrations, arrivals_of_empty h, List.append_nil]

end Head

theorem Publisher.arrivals_commit [BEq V] {v : V} (h : s.commit v = some s') :
    s'.arrivals = s.arrivals := by
  obtain rfl := commit_eq_some h
  rw [arrivals, List.filterMap_append]
  exact List.append_nil _

theorem Publisher.registrations_commit [BEq V] {v : V} (h : s.commit v = some s') :
    s'.registrations = s.registrations := by
  have harr := arrivals_commit h
  obtain rfl := commit_eq_some h
  rw [registrations, harr]
  rfl

theorem Publisher.arrivals_enqueue (s : Publisher V O) (o : O) :
    (s.enqueue o).arrivals = s.arrivals ++ [⟨s.nextId, o⟩] :=
  List.filterMap_append

theorem Publisher.registrations_enqueue (s : Publisher V O) (o : O) :
    (s.enqueue o).registrations = s.registrations ++ [⟨s.nextId, o⟩] := by
  rw [registrations, registrations, List.append_assoc]
  exact congrArg _ (arrivals_enqueue s o)

theorem Publisher.registrations_pop {d : Delivery V O} (h : s.pop = some (d, s')) :
    s'.registrations = s.registrations := by
  rcases pop_cases h with ⟨v, rest, hq, -, rfl⟩ | ⟨r, rest, hq, -, rfl⟩
  · rw [registrations, registrations, arrivals_of_emit hq]
    rfl
  · rw [registrations, registrations, arrivals_of_attach hq]
    exact List.append_assoc _ _ _

theorem Publisher.arrivals_detach (s : Publisher V O) (id : Nat) :
    (s.detach id).arrivals = s.arrivals.filter (·.id != id) := by
  show (s.pending.filter _).filterMap _ = (s.pending.filterMap _).filter _
  induction s.pending with
  | nil => rfl
  | cons a q ih => cases a <;> grind [Pending.id?, Pending.registration?]

theorem Publisher.registrations_detach (s : Publisher V O) (id : Nat) :
    (s.detach id).registrations = s.registrations.filter (·.id != id) := by
  rw [registrations, registrations, List.filter_append, arrivals_detach]
  rfl

end Registrations

/-- Only disposal takes an observer out of a publisher. -/
theorem View.Move.registered [BEq V] {p : PublisherRef} {x x' : View V P σ ε} {l : List (Signal V)}
    {r : Registration (Observer V P σ ε)} (hm : Move p x l x') (hcalm : x'.focus.Calm)
    (hr : r ∈ x.state.registrations) (hl : .detached r.id ∉ l) :
    r ∈ x'.state.registrations := by
  cases hm with
  | other | busy | call | finish => exact hr
  | start hb =>
      obtain ⟨-, rfl⟩ := Publisher.beginDrain_eq_some hb
      exact hr
  | commit hf hc =>
      rw [Publisher.registrations_commit hc]
      exact hr
  | @enqueue s due f o hf =>
      show r ∈ (s.enqueue o).registrations
      rw [Publisher.registrations_enqueue]
      exact List.mem_append_left _ hr
  | pop hp =>
      rw [Publisher.registrations_pop hp]
      exact hr
  | @detach s due f f' id hf hf' =>
      show r ∈ (s.detach id).registrations
      rw [Publisher.registrations_detach, List.mem_filter]
      refine ⟨hr, ?_⟩
      have hne : r.id ≠ id := fun e => hl (e ▸ List.mem_singleton_self _)
      simpa using hne
  | abandon => exact hcalm.elim

/-- Only a commit changes the value held. -/
theorem View.Move.current_eq [BEq V] {p : PublisherRef} {x x' : View V P σ ε} {l : List (Signal V)}
    (hm : Move p x l x') (hl : ∀ v, .committed v ∉ l) :
    x'.state.current = x.state.current := by
  cases hm with
  | commit => exact absurd List.mem_cons_self (hl _)
  | start hb =>
      obtain ⟨-, rfl⟩ := Publisher.beginDrain_eq_some hb
      rfl
  | pop hp => rcases Publisher.pop_cases hp with ⟨u, rest, -, -, rfl⟩ | ⟨r, rest, -, -, rfl⟩ <;> rfl
  | other | enqueue | busy | call | finish | detach | abandon => rfl

/-! ## Attention -/

namespace View

variable {p : PublisherRef} {ok : V → Prop} {react : Routine V P σ ε} {x x' : View V P σ ε}
  {l : List (Signal V)}

/-- Whether an observer with a given reaction is among those that are called. -/
def Watched (react : Routine V P σ ε) (x : View V P σ ε) : Prop :=
  ∃ r ∈ x.state.observers, r.observer.react = react

/-- Whether the value held is as it should be or has yet to be handed to an observer with a given
reaction. -/
inductive Attended (ok : V → Prop) (react : Routine V P σ ε) (x : View V P σ ε) : Prop where
  | accepted : ok x.state.current → Attended ok react x
  | queued : x.state.changes ≠ [] → Attended ok react x
  | due (c : Call V (Observer V P σ ε)) : c ∈ x.calls → c.observer.react = react →
      Attended ok react x

/-- Whether the calls due for a reaction hand over the value held, unless a newer one is queued. -/
def Fresh (react : Routine V P σ ε) (x : View V P σ ε) : Prop :=
  x.state.changes = [] → ∀ c ∈ x.calls, c.observer.react = react → c.value = x.state.current

theorem Sound.fresh (h : Sound x) : Fresh react x := by
  intro hnone c hc _
  have hlast := h.current
  rw [Publisher.timeline_eq, hnone] at hlast
  exact (h.handed c hc).trans (Option.some.inj hlast)

theorem Attended.same (h : Attended ok react x) (hcur : x'.state.current = x.state.current)
    (hch : x'.state.changes = x.state.changes) (hcalls : ∀ c ∈ x.calls, c ∈ x'.calls) :
    Attended ok react x' := by
  cases h with
  | accepted hok => exact .accepted (hcur ▸ hok)
  | queued hq => exact .queued (hch ▸ hq)
  | due c hc hreact => exact .due c (hcalls c hc) hreact

theorem Attended.imp {ok' : V → Prop} (h : Attended ok react x) (himp : ∀ v, ok v → ok' v) :
    Attended ok' react x := by
  cases h with
  | accepted hok => exact .accepted (himp _ hok)
  | queued hq => exact .queued hq
  | due c hc hreact => exact .due c hc hreact

/-- Attention is kept from move to move, or the observer is called with the value held. -/
theorem Attended.move [BEq V] (h : Watched react x → Attended ok react x) (hm : Move p x l x')
    (ho : Orderly p x) (hfresh : Fresh react x) (hcalm : x'.focus.Calm) (hw : Watched react x') :
    Attended ok react x' ∨ (x'.due ≠ [] ∧ x'.focus = .run (react x'.state.current)) := by
  cases hm with
  | other | busy | finish => exact Or.inl ((h hw).same rfl rfl fun _ hc => hc)
  | start hb =>
      obtain ⟨-, rfl⟩ := Publisher.beginDrain_eq_some hb
      exact Or.inl ((h hw).same rfl rfl fun _ hc => hc)
  | commit hf hc => exact Or.inl (.queued (Publisher.changes_commit_ne_nil hc))
  | enqueue o hf =>
      exact Or.inl ((h hw).same rfl (Publisher.changes_enqueue _ o) fun _ hc => hc)
  | @call s c calls due v =>
      cases h hw with
      | accepted hok => exact Or.inl (.accepted hok)
      | queued hq => exact Or.inl (.queued hq)
      | due c' hc' hreact =>
          -- a call for the reaction is made now, or stays due
          rcases List.mem_cons.1 hc' with rfl | hlater
          · by_cases hch : s.changes = []
            · have hval : c'.value = s.current := hfresh hch c' List.mem_cons_self hreact
              refine Or.inr ⟨nofun, ?_⟩
              show Focus.run (c'.observer.react c'.value) = _
              rw [hreact, hval]
            · exact Or.inl (.queued hch)
          · exact Or.inl (.due c' hlater hreact)
  | @pop s d s' due v hp =>
      obtain ⟨-, rfl⟩ := ho.only rfl
      obtain ⟨r, hr, hreact⟩ := hw
      rcases Publisher.pop_cases hp with ⟨u, rest, hq, rfl, rfl⟩ | ⟨r', rest, hq, rfl, rfl⟩
      · -- a round calls all registered observers
        refine Or.inl (.due ⟨r.id, u, r.observer⟩ ?_ hreact)
        exact List.mem_append_left _ (List.mem_map_of_mem hr)
      · -- a replay calls only the observer that is new
        rcases List.mem_append.1 hr with hold | hnew
        · have hch := Publisher.changes_of_attach hq
          exact Or.inl ((h ⟨r, hold, hreact⟩).same rfl hch.symm nofun)
        · obtain rfl := List.mem_singleton.1 hnew
          exact Or.inl (.due _ List.mem_cons_self hreact)
  | @detach s due g g' id hf hf' =>
      obtain ⟨r, hr, hreact⟩ := hw
      have hold : Watched react ⟨s, due, g⟩ := ⟨r, (List.mem_filter.1 hr).1, hreact⟩
      exact Or.inl ((h hold).same rfl (Publisher.changes_detach s id) fun _ hc => hc)
  | abandon => exact hcalm.elim

/-- Whenever no drain is in progress the value held is as it should be. -/
theorem Attended.settled {s : Publisher V (Observer V P σ ε)} {t : Thread V P σ ε}
    (h : Attended ok react (t.view p s)) (ho : Orderly p (t.view p s)) (hset : t.Settled p) :
    ok s.current := by
  cases h with
  | accepted hok => exact hok
  | queued hq =>
      exact absurd (Publisher.changes_of_empty (ho.idle hset.due hset.focus).2) hq
  | due c hc =>
      rw [calls_of_settled hset] at hc
      exact nomatch hc

end View

end ReactiveCells
