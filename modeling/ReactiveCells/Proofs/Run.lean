import ReactiveCells.Proofs.Moves

/-!
# Runs — what happens over many moves

A run is what an outside client sees: a thread moves until it has ended, then the client starts
another program in the world that is left, and so on. `Run` keeps the events of all moves in
order. It has two parameters: `starts` says which programs the client starts, and `ok` is what
every thread of the run satisfies; runs without panics are those with `ok` being `Thread.Calm`.

Main statements: `Run.trans` (runs compose), `CalmRun.over` (a run does not look below the stack it
started on) and `Run.of_run` (what the machine runs is a run).
-/

namespace ReactiveCells

variable {V P σ ε : Type} [BEq V]

/-- Whether no panic is under way. -/
def Focus.Calm : Focus V P σ ε → Prop
  | .run _ | .drain _ => True
  | .unwind _ => False

/-- Whether no panic is under way. -/
def Thread.Calm (t : Thread V P σ ε) : Prop := t.focus.Calm

/-- Any thread at all. -/
def Thread.Any (_ : Thread V P σ ε) : Prop := True

/-- What leads from one state to another, with the events on the way. -/
inductive Run (body : P → Prog V P σ ε) (starts : Prog V P σ ε → Prop)
    (ok : Thread V P σ ε → Prop) (w₀ : World V P σ ε) (t₀ : Thread V P σ ε) :
    List (Event V ε) → World V P σ ε → Thread V P σ ε → Prop where
  | refl : Run body starts ok w₀ t₀ [] w₀ t₀
  | step {es es' : List (Event V ε)} {w w' : World V P σ ε} {t t' : Thread V P σ ε} :
      Run body starts ok w₀ t₀ es w t → Thread.step body w t = some (w', t', es') → ok t' →
      Run body starts ok w₀ t₀ (es ++ es') w' t'
  /-- The thread has ended and the client starts a program. -/
  | next {es : List (Event V ε)} {w : World V P σ ε} {t : Thread V P σ ε} {o : Outcome V}
      {c : Prog V P σ ε} :
      Run body starts ok w₀ t₀ es w t → t.outcome? = some o → starts c → ok (.start c) →
      Run body starts ok w₀ t₀ es w (.start c)

/-- A run of one thread in which nothing panics. -/
abbrev CalmRun (body : P → Prog V P σ ε) := Run body (fun _ => False) Thread.Calm

/-- A run of one thread, panics included. -/
abbrev AnyRun (body : P → Prog V P σ ε) := Run body (fun _ => False) Thread.Any

/-- A state that some client can bring about, panics included. -/
def Reachable (body : P → Prog V P σ ε) (w : World V P σ ε) (t : Thread V P σ ε) : Prop :=
  ∃ store c es, Run body (fun _ => True) Thread.Any (World.new store) (.start c) es w t

namespace Run

variable {body : P → Prog V P σ ε} {starts : Prog V P σ ε → Prop} {ok : Thread V P σ ε → Prop}
  {w₀ w w' : World V P σ ε} {t₀ t t' : Thread V P σ ε} {es es' : List (Event V ε)}

/-- Runs compose. -/
theorem trans (h : Run body starts ok w₀ t₀ es w t) (h' : Run body starts ok w t es' w' t') :
    Run body starts ok w₀ t₀ (es ++ es') w' t' := by
  induction h' with
  | refl => rw [List.append_nil]; exact h
  | step _ hstep hok ih => rw [← List.append_assoc]; exact .step ih hstep hok
  | next _ hend hc hok ih => exact .next ih hend hc hok

/-- One move is a run. -/
theorem single (h : Thread.step body w t = some (w', t', es)) (hok : ok t') :
    Run body starts ok w t es w' t' :=
  .step .refl h hok

/-- A move in front of a run. -/
theorem cons (h : Thread.step body w₀ t₀ = some (w, t, es)) (hok : ok t)
    (h' : Run body starts ok w t es' w' t') : Run body starts ok w₀ t₀ (es ++ es') w' t' :=
  (single h hok).trans h'

/-- A run that satisfies more, by a client that starts less. -/
theorem mono {starts' : Prog V P σ ε → Prop} {ok' : Thread V P σ ε → Prop}
    (h : Run body starts ok w₀ t₀ es w t) (hs : ∀ c, starts c → starts' c)
    (hok : ∀ t, ok t → ok' t) : Run body starts' ok' w₀ t₀ es w t := by
  induction h with
  | refl => exact .refl
  | step _ hstep ht ih => exact .step ih hstep (hok _ ht)
  | next _ hend hc ht ih => exact .next ih hend (hs _ hc) (hok _ ht)

end Run

/-- A calm run of one thread does not look below the stack it started on. -/
theorem CalmRun.over {body : P → Prog V P σ ε} {w w' : World V P σ ε} {t t' : Thread V P σ ε}
    {es : List (Event V ε)} (h : CalmRun body w t es w' t') (rest : List (Frame V P σ ε)) :
    CalmRun body w (t.over rest) es w' (t'.over rest) := by
  induction h with
  | refl => exact .refl
  | step _ hstep hok ih =>
      have hm := (Thread.moves_iff.2 hstep).over rest
      exact .step ih (Thread.moves_iff.1 hm) hok
  | next _ _ hc _ _ => exact hc.elim

theorem CalmRun.any {body : P → Prog V P σ ε} {w w' : World V P σ ε} {t t' : Thread V P σ ε}
    {es : List (Event V ε)} (h : CalmRun body w t es w' t') : AnyRun body w t es w' t' :=
  h.mono (fun _ hc => hc) fun _ _ => trivial

/-- A run of one thread begins with a move, unless nothing moves in it. -/
theorem Run.first {body : P → Prog V P σ ε} {ok : Thread V P σ ε → Prop} {w w' : World V P σ ε}
    {t t' : Thread V P σ ε} {es : List (Event V ε)}
    (h : Run body (fun _ => False) ok w t es w' t') :
    (es = [] ∧ w' = w ∧ t' = t) ∨
      ∃ w₁ t₁ es₁ es₂, Thread.step body w t = some (w₁, t₁, es₁) ∧ ok t₁ ∧ es = es₁ ++ es₂ ∧
        Run body (fun _ => False) ok w₁ t₁ es₂ w' t' := by
  induction h with
  | refl => exact Or.inl ⟨rfl, rfl, rfl⟩
  | step _ hstep hok ih =>
      rcases ih with ⟨rfl, rfl, rfl⟩ | ⟨w₁, t₁, es₁, es₂, hfirst, hok₁, rfl, hrest⟩
      · exact Or.inr ⟨_, _, _, [], hstep, hok, (List.append_nil _).symm, .refl⟩
      · exact Or.inr ⟨w₁, t₁, es₁, _, hfirst, hok₁, List.append_assoc .., .step hrest hstep hok⟩
  | next _ _ hc _ _ => exact hc.elim

namespace AnyRun

variable {body : P → Prog V P σ ε} {w w' w₀ : World V P σ ε} {t t' t₀ : Thread V P σ ε}
  {es es' : List (Event V ε)}

/-- A thread that comes to where it does not move has been wherever else it comes to. -/
theorem rest (h : AnyRun body w₀ t₀ es w t) (h' : AnyRun body w₀ t₀ es' w' t')
    (hend : Thread.step body w' t' = none) :
    ∃ es₂, es' = es ++ es₂ ∧ AnyRun body w t es₂ w' t' := by
  induction h with
  | refl => exact ⟨es', rfl, h'⟩
  | step _ hstep _ ih =>
      obtain ⟨es₂, rfl, hafter⟩ := ih
      rcases hafter.first with ⟨rfl, rfl, rfl⟩ | ⟨w₁, t₁, es₁, es₃, hfirst, -, rfl, hrest⟩
      · exact nomatch hend.symm.trans hstep
      · obtain ⟨rfl, rfl, rfl⟩ := Option.some.inj (hfirst.symm.trans hstep)
        exact ⟨es₃, (List.append_assoc ..).symm, hrest⟩
  | next _ _ hc _ _ => exact hc.elim

/-- A thread comes to one end only. -/
theorem unique (h : AnyRun body w₀ t₀ es w t) (hend : Thread.step body w t = none)
    (h' : AnyRun body w₀ t₀ es' w' t') (hend' : Thread.step body w' t' = none) :
    es' = es ∧ w' = w ∧ t' = t := by
  obtain ⟨es₂, rfl, hrest⟩ := h.rest h' hend'
  rcases hrest.first with ⟨rfl, rfl, rfl⟩ | ⟨w₁, t₁, es₁, es₃, hfirst, -⟩
  · exact ⟨List.append_nil es, rfl, rfl⟩
  · exact nomatch hend.symm.trans hfirst

end AnyRun

/-- The state and the events that a number of moves lead to, if none of them panics. -/
def Thread.advance (body : P → Prog V P σ ε) :
    Nat → World V P σ ε → Thread V P σ ε → Option (Moved V P σ ε)
  | 0, w, t => some (w, t, [])
  | n + 1, w, t =>
      match Thread.step body w t with
      | some (_, ⟨.unwind _, _⟩, _) | none => none
      | some (w', t', es) =>
          (Thread.advance body n w' t').map fun (w'', t'', es') => (w'', t'', es ++ es')

/-- A number of moves is a run. -/
theorem Run.of_advance {body : P → Prog V P σ ε} {starts : Prog V P σ ε → Prop} {n : Nat}
    {w w' : World V P σ ε} {t t' : Thread V P σ ε} {es : List (Event V ε)}
    (h : Thread.advance body n w t = some (w', t', es)) :
    Run body starts Thread.Calm w t es w' t' := by
  induction n generalizing w t es with
  | zero =>
      cases h
      exact .refl
  | succ n ih =>
      unfold Thread.advance at h
      split at h
      · exact nomatch h
      · exact nomatch h
      · next w₁ t₁ es₁ hcalm hstep =>
          obtain ⟨⟨w₂, t₂, es₂⟩, hrest, heq⟩ := Option.map_eq_some_iff.1 h
          cases heq
          refine .cons hstep ?_ (ih hrest)
          cases t₁ with
          | mk f st =>
              cases f with
              | run c => trivial
              | drain p => trivial
              | unwind text => exact hcalm text st rfl

/-- What the machine runs is a run. -/
theorem Run.of_run {α : Type} {body : P → Prog V P σ ε} {starts : Prog V P σ ε → Prop}
    {watch : World V P σ ε → Thread V P σ ε → Event V ε → Option α} {fuel : Nat}
    {w w' : World V P σ ε} {t t' : Thread V P σ ε} {past past' : List α}
    (h : Thread.run body watch fuel w t past = (w', t', past')) :
    ∃ es, Run body starts Thread.Any w t es w' t' := by
  induction fuel generalizing w t past with
  | zero =>
      cases h
      exact ⟨[], .refl⟩
  | succ fuel ih =>
      unfold Thread.run at h
      split at h
      · cases h
        exact ⟨[], .refl⟩
      · next w₁ t₁ es₁ hstep =>
          obtain ⟨es, hrun⟩ := ih h
          exact ⟨es₁ ++ es, .cons hstep trivial hrun⟩

end ReactiveCells
