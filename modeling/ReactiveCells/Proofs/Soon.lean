import ReactiveCells.Proofs.Life

/-!
# Soon — states that are on their way somewhere

An operation that is written in several steps breaks an invariant at its first step and restores it
at its last one. As long as no foreign program runs in between, the machine goes from the one to
the other without a choice. `Soon` says that a state does: it satisfies an invariant or will, after
a number of moves. So an invariant of whole operations holds soon in every state of a run, and in
the last one, where nothing moves any more, it holds now.

Main statements: `Soon.clients` and `Soon.ended`, `Moves.under` (what runs on top of a frame does
not know it), and `Calmly.regular` (every publisher of a world without panics is as it should be).
-/

namespace ReactiveCells

variable {V P σ ε : Type} [BEq V] {body : P → Prog V P σ ε}

/-- Whether a state satisfies an invariant now or after some moves; an invariant may look at all
events so far. -/
inductive Soon (body : P → Prog V P σ ε)
    (Inv : List (Event V ε) → World V P σ ε → Thread V P σ ε → Prop) :
    List (Event V ε) → World V P σ ε → Thread V P σ ε → Prop where
  | now {es w t} : Inv es w t → Soon body Inv es w t
  | later {es es' w w' t t'} : Thread.step body w t = some (w', t', es') →
      Soon body Inv (es ++ es') w' t' → Soon body Inv es w t

/-- A thread that has ended does not move. -/
theorem Thread.step_of_outcome {w : World V P σ ε} {t : Thread V P σ ε} {o : Outcome V}
    (h : t.outcome? = some o) : Thread.step body w t = none := by
  rcases Thread.outcome_cases h with ⟨v, rfl⟩ | ⟨text, rfl⟩ <;> rfl

section Soon

variable {Inv : List (Event V ε) → World V P σ ε → Thread V P σ ε → Prop}
  {ok : Thread V P σ ε → Prop} {w w' w₀ : World V P σ ε} {t t' t₀ : Thread V P σ ε}
  {es es' : List (Event V ε)}

/-- A move on the way. -/
theorem Soon.after (hm : Thread.Moves body w t es' w' t') (h : Soon body Inv (es ++ es') w' t') :
    Soon body Inv es w t :=
  .later hm.step h

/-- A run leads soon to where it ends. -/
theorem Soon.of_run (h : CalmRun body w t es' w' t') (hend : Soon body Inv (es ++ es') w' t') :
    Soon body Inv es w t := by
  induction h with
  | refl => exact (List.append_nil es) ▸ hend
  | step _ hstep _ ih =>
      rw [← List.append_assoc] at hend
      exact ih (.later hstep hend)
  | next _ _ hc => exact hc.elim

/-- In a state from which nothing moves an invariant that holds soon holds. -/
theorem Soon.ended (h : Soon body Inv es w t) (hend : Thread.step body w t = none) :
    Inv es w t := by
  cases h with
  | now h => exact h
  | later hstep => exact nomatch hend.symm.trans hstep

/-- An invariant that every move restores soon, and that clients find when they start a program,
holds soon in every state of a run. -/
theorem Soon.clients {starts : Prog V P σ ε → Prop} (h₀ : Soon body Inv [] w₀ t₀) (hok₀ : ok t₀)
    (h : Run body starts ok w₀ t₀ es w t)
    (hmove : ∀ es w t es' w' t', Inv es w t → ok t → Thread.Moves body w t es' w' t' → ok t' →
      Soon body Inv (es ++ es') w' t')
    (hnext : ∀ es w t o c, Inv es w t → ok t → t.outcome? = some o → starts c → ok (.start c) →
      Soon body Inv es w (.start c)) : Soon body Inv es w t ∧ ok t := by
  induction h with
  | refl => exact ⟨h₀, hok₀⟩
  | @step es es' w w' t t' _ hstep hok ih =>
      obtain ⟨hsoon, hokt⟩ := ih
      refine ⟨?_, hok⟩
      cases hsoon with
      | now h => exact hmove _ _ _ _ _ _ h hokt (Thread.moves_iff.2 hstep) hok
      | later hstep' hlater =>
          -- the machine has one move only, and it is the one that was foreseen
          cases hstep'.symm.trans hstep
          exact hlater
  | next _ hend hc hok ih =>
      obtain ⟨hsoon, hokt⟩ := ih
      exact ⟨hnext _ _ _ _ _ (hsoon.ended (Thread.step_of_outcome hend)) hokt hend hc hok, hok⟩

/-- An invariant that every move restores soon holds soon in every state of a run of one thread. -/
theorem Soon.run (h₀ : Soon body Inv [] w₀ t₀) (hok₀ : ok t₀)
    (h : Run body (fun _ => False) ok w₀ t₀ es w t)
    (hmove : ∀ es w t es' w' t', Inv es w t → ok t → Thread.Moves body w t es' w' t' → ok t' →
      Soon body Inv (es ++ es') w' t') : Soon body Inv es w t ∧ ok t :=
  Soon.clients h₀ hok₀ h hmove fun _ _ _ _ _ _ _ _ hc _ => hc.elim

/-- A thread comes to one end only. -/
theorem Run.unique (h : CalmRun body w₀ t₀ es w t) (hend : Thread.step body w t = none)
    (h' : Run body (fun _ => False) ok w₀ t₀ es' w' t') (hend' : Thread.step body w' t' = none)
    (hok : ok t₀) : es' = es ∧ w' = w ∧ t' = t := by
  have hsoon : Soon body (fun es₁ w₁ t₁ => es₁ = es ∧ w₁ = w ∧ t₁ = t) [] w₀ t₀ :=
    .of_run h (.now ⟨rfl, rfl, rfl⟩)
  refine (Soon.run hsoon hok h' ?_).1.ended hend'
  rintro _ _ _ _ _ _ ⟨rfl, rfl, rfl⟩ _ hm _
  exact nomatch hend.symm.trans hm.step

end Soon

/-! ## Runs that are checked state by state -/

/-- The state and the events that a number of moves lead to, if every thread on the way passes a
check. -/
def Thread.proceed (body : P → Prog V P σ ε) (check : Thread V P σ ε → Bool) :
    Nat → World V P σ ε → Thread V P σ ε → Option (Moved V P σ ε)
  | 0, w, t => some (w, t, [])
  | n + 1, w, t =>
      match Thread.step body w t with
      | none => none
      | some (w', t', es) =>
          if check t' then
            (Thread.proceed body check n w' t').map fun (w'', t'', es') => (w'', t'', es ++ es')
          else none

/-- Moves that pass a check make a run of what the check stands for. -/
theorem Run.of_proceed {starts : Prog V P σ ε → Prop} {ok : Thread V P σ ε → Prop}
    {check : Thread V P σ ε → Bool} (hcheck : ∀ t, check t = true → ok t) {n : Nat}
    {w w' : World V P σ ε} {t t' : Thread V P σ ε} {es : List (Event V ε)}
    (h : Thread.proceed body check n w t = some (w', t', es)) :
    Run body starts ok w t es w' t' := by
  induction n generalizing w t es with
  | zero =>
      cases h
      exact .refl
  | succ n ih =>
      unfold Thread.proceed at h
      split at h
      · exact nomatch h
      · next w₁ t₁ es₁ hstep =>
          split at h
          · next hpass =>
              obtain ⟨⟨w₂, t₂, es₂⟩, hrest, heq⟩ := Option.map_eq_some_iff.1 h
              cases heq
              exact .cons hstep (hcheck t₁ hpass) (ih hrest)
          · exact nomatch h

/-! ## What runs on top of a frame -/

namespace Thread

variable {w w' : World V P σ ε} {t t' : Thread V P σ ε} {es : List (Event V ε)}

omit [BEq V] in
@[simp] theorem over_nil (t : Thread V P σ ε) : t.over [] = t := by
  rw [Thread.over, List.append_nil]

omit [BEq V] in
/-- A frame without calls does not matter to what is due. -/
theorem due_over_cons (t : Thread V P σ ε) {p : PublisherRef} {fr : Frame V P σ ε}
    (h : fr.calls? p = none) (st : List (Frame V P σ ε)) :
    (t.over (fr :: st)).due p = (t.over st).due p := by
  rw [Thread.over, Thread.over, due_append, due_append, due_cons_of_calls? h]

/-- A move of what is on top of a longer stack does not look below, unless the top has ended. -/
theorem Moves.under {rest : List (Frame V P σ ε)} (h : Moves body w (t.over rest) es w' t') :
    (∃ t₁, t' = t₁.over rest ∧ Moves body w t es w' t₁) ∨ ∃ o, t.outcome? = some o := by
  have top : ∀ {f : Focus V P σ ε} {u : List (Frame V P σ ε)},
      Moves body w t es w' ⟨f, u⟩ →
      ∃ t₁ : Thread V P σ ε, ⟨f, u ++ rest⟩ = t₁.over rest ∧ Moves body w t es w' t₁ :=
    fun hm => ⟨_, rfl, hm⟩
  obtain ⟨f, _ | ⟨fr, st⟩⟩ := t
  · -- there is no frame on top, so only what looks at no frame can move
    cases h with
    | resumed | unharmed | left | called | drained | popped | observed | amendedSame | amended
    | registered | swapped | contended => exact Or.inr ⟨_, rfl⟩
    | caught | expelled | abandoned | passed => exact Or.inr ⟨_, rfl⟩
    | busy hp hb => exact Or.inl (top (u := []) (.busy hp hb))
    | draining hp hb => exact Or.inl (top (u := [_]) (.draining hp hb))
    | panicked => exact Or.inl (top (u := []) .panicked)
    | performed ha => exact Or.inl (top (u := []) (.performed ha))
    | entered => exact Or.inl (top (u := [_]) .entered)
    | attempted => exact Or.inl (top (u := [_]) .attempted)
    | held => exact Or.inl (top (u := [_, _]) .held)
    | retried hc => exact Or.inl (top (u := [_, _]) (.retried hc))
    | publishedSame hp hc =>
        refine Or.inl ⟨_, ?_, .publishedSame hp hc⟩
        simp [Thread.over]
    | published hp hc =>
        refine Or.inl ⟨_, ?_, .published hp hc⟩
        simp [Thread.over]
    | amending hp =>
        refine Or.inl ⟨_, ?_, .amending hp⟩
        simp [Thread.over]
    | attached hp =>
        refine Or.inl ⟨_, ?_, .attached hp⟩
        simp [Thread.over]
    | prepared => exact Or.inl (top (u := []) .prepared)
    | disposedAgain hs => exact Or.inl (top (u := []) (.disposedAgain hs))
    | tornDown hs => exact Or.inl (top (u := [_]) (.tornDown hs))
    | detached hs hp => exact Or.inl (top (u := []) (.detached hs hp))
  · refine Or.inl ?_
    cases h with
    -- the frame on top is the only one that a move looks at
    | resumed => exact top .resumed
    | unharmed => exact top .unharmed
    | left => exact top .left
    | called => exact top (u := _ :: _ :: st) .called
    | drained hp hs => exact top (.drained hp hs)
    | popped hp hs => exact top (u := _ :: st) (.popped hp hs)
    | observed => exact top .observed
    | amendedSame hp hs => exact top (.amendedSame hp hs)
    | amended hp hs => exact top (.amended hp hs)
    | registered => exact top .registered
    | swapped hc hs => exact top (.swapped hc hs)
    | contended hc hs => exact top (u := _ :: st) (.contended hc hs)
    | caught => exact top .caught
    | expelled => exact top .expelled
    | abandoned hp => exact top (.abandoned hp)
    | passed hfr => exact top (.passed hfr)
    | busy hp hb => exact top (u := fr :: st) (.busy hp hb)
    | draining hp hb => exact top (u := _ :: fr :: st) (.draining hp hb)
    | panicked => exact top (u := fr :: st) .panicked
    | performed ha => exact top (u := fr :: st) (.performed ha)
    | entered => exact top (u := _ :: fr :: st) .entered
    | attempted => exact top (u := _ :: fr :: st) .attempted
    | held => exact top (u := _ :: _ :: fr :: st) .held
    | retried hc => exact top (u := _ :: _ :: fr :: st) (.retried hc)
    | publishedSame hp hc =>
        refine ⟨_, ?_, .publishedSame hp hc⟩
        simp [Thread.over]
    | published hp hc =>
        refine ⟨_, ?_, .published hp hc⟩
        simp [Thread.over]
    | amending hp =>
        refine ⟨_, ?_, .amending hp⟩
        simp [Thread.over]
    | attached hp =>
        refine ⟨_, ?_, .attached hp⟩
        simp [Thread.over]
    | prepared => exact top (u := fr :: st) .prepared
    | disposedAgain hs => exact top (u := fr :: st) (.disposedAgain hs)
    | tornDown hs => exact top (u := _ :: fr :: st) (.tornDown hs)
    | detached hs hp => exact top (u := fr :: st) (.detached hs hp)

omit [BEq V] in
/-- A thread without panics that has ended has a value. -/
theorem Calm.ret_of_outcome {o : Outcome V} (hcalm : t.Calm) (h : t.outcome? = some o) :
    ∃ v, t = ⟨.run (.ret v), []⟩ := by
  rcases Thread.outcome_cases h with hret | ⟨text, rfl⟩
  · exact hret
  · exact hcalm.elim

/-- What is on top of a longer stack moves, or it has come back with a value. -/
theorem Moves.above {rest : List (Frame V P σ ε)} (h : Moves body w (t.over rest) es w' t')
    (hcalm : t.Calm) :
    (∃ t₁, t' = t₁.over rest ∧ Moves body w t es w' t₁) ∨
      ∃ v, t = ⟨.run (.ret v), []⟩ ∧ Moves body w ⟨.run (.ret v), rest⟩ es w' t' := by
  rcases h.under with hup | ⟨o, ho⟩
  · exact Or.inl hup
  · obtain ⟨v, rfl⟩ := hcalm.ret_of_outcome ho
    exact Or.inr ⟨v, rfl, h⟩

end Thread

omit [BEq V] in
/-- A publisher is as it should be also if a frame without calls is left out. -/
theorem Regular.without {p : PublisherRef} {q : Publisher V (Observer V P σ ε)}
    {w : World V P σ ε} {t : Thread V P σ ε} {fr : Frame V P σ ε} {st : List (Frame V P σ ε)}
    (h : Regular p q w (t.over (fr :: st))) (hfr : fr.calls? p = none) :
    Regular p q w (t.over st) := by
  have hview : (t.over (fr :: st)).view p q = (t.over st).view p q := by
    rw [Thread.view, t.due_over_cons hfr st]
    rfl
  exact ⟨h.found, hview ▸ h.orderly, hview ▸ h.sound⟩

/-! ## Worlds without panics -/

/-- A state that some client can bring about without a panic. -/
def Calmly (body : P → Prog V P σ ε) (w : World V P σ ε) (t : Thread V P σ ε) : Prop :=
  ∃ store c es, Run body (fun _ => True) Thread.Calm (World.new store) (.start c) es w t

section Calmly

variable {w w' : World V P σ ε} {t t' : Thread V P σ ε} {es : List (Event V ε)}
  {starts : Prog V P σ ε → Prop}

theorem Calmly.reachable (h : Calmly body w t) : Reachable body w t := by
  obtain ⟨store, c, es, hrun⟩ := h
  exact ⟨store, c, es, hrun.mono (fun _ _ => trivial) fun _ _ => trivial⟩

/-- A state that is brought about without a panic can be left without one. -/
theorem Calmly.run (h : Calmly body w t) (hrun : Run body starts Thread.Calm w t es w' t') :
    Calmly body w' t' := by
  obtain ⟨store, c, es₀, hrun₀⟩ := h
  exact ⟨store, c, _, hrun₀.trans (hrun.mono (fun _ _ => trivial) fun _ h => h)⟩

/-- A client can start a program when a call has come back. -/
theorem Calmly.start {o : Outcome V} (h : Calmly body w t) (ho : t.outcome? = some o)
    (c : Prog V P σ ε) : Calmly body w (.start c) :=
  h.run (.next .refl ho trivial trivial : Run body (fun _ => True) Thread.Calm w t [] w (.start c))

theorem Calmly.step (h : Calmly body w t) (hm : Thread.Moves body w t es w' t')
    (hcalm : t'.Calm) : Calmly body w' t' :=
  h.run (.single hm.step hcalm : Run body (fun _ => False) Thread.Calm w t es w' t')

/-- In a world without panics every publisher is as it should be. -/
theorem Calmly.regular {p : PublisherRef} {s : Publisher V (Observer V P σ ε)}
    (h : Calmly body w t) (hs : w.publisher? p = some s) : Regular p s w t := by
  obtain ⟨store, c, es, hrun⟩ := h
  refine hrun.life (fun s w t => Regular p s w t) (fun _ _ _ _ => regular_new) ?_ ?_ hs
  · intro s w t es w' t' h hm hcalm
    obtain ⟨s', h', -⟩ := h.move hm hcalm
    exact ⟨s', h'.found, h'⟩
  · exact fun s w t o c h ho => (h.next ho c).2

end Calmly

end ReactiveCells
