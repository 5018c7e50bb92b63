import ReactiveCells.Proofs.Discipline

/-!
# The life of a publisher

The discipline of a publisher is kept from move to move. So it can be followed from any state in
which a publisher is as it should be (`Intact`), and in runs without panics from the moment in
which it is made (`Born`, `Regular`).

Main statements: `Run.life` (induction over what happens to any publisher of a world),
`Reachable.intact` (whatever clients do, every publisher is as it should be), `Intact.run` (a run
leaves it so) and `Born.life` (induction over what happens since one publisher was made).
-/

namespace ReactiveCells

variable {V P σ ε : Type}

/-- A write to a publisher makes the value written the one held, now or before, and changes no
other publisher. -/
theorem Thread.Moves.publish [BEq V] [LawfulBEq V] {body : P → Prog V P σ ε} {p : PublisherRef}
    {v : V} {k : Prog V P σ ε} {w w' : World V P σ ε} {t' : Thread V P σ ε}
    {st : List (Frame V P σ ε)} {es : List (Event V ε)} {s : Publisher V (Observer V P σ ε)}
    (hm : Moves body w ⟨.run (.publish p v k), st⟩ es w' t') (hp : w.publisher? p = some s) :
    ∃ s', w'.publisher? p = some s' ∧ s'.current = v ∧ (s' = s ∨ s'.changes ≠ []) ∧
      .resume (fun _ => k) ∈ t'.stack ∧ ∀ q, p ≠ q → w'.publisher? q = w.publisher? q := by
  cases hm with
  | publishedSame hr hc =>
      obtain rfl := Option.some.inj (hp.symm.trans hr)
      refine ⟨s, (World.publisher?_enterAll _).trans hp, ?_, Or.inl rfl, ?_, ?_⟩
      · exact eq_of_beq ((Publisher.commit_eq_none_iff s v).1 hc)
      · exact List.mem_append_right _ List.mem_cons_self
      · intro q _
        exact World.publisher?_enterAll _
  | @published _ _ _ r s' _ hr hc =>
      obtain rfl := Option.some.inj (hp.symm.trans hr)
      have hthere := (World.publisher?_enterAll s.monitors).trans hp
      refine ⟨s', World.publisher?_setPublisher_self hthere, (Publisher.timeline_commit hc).2,
        Or.inr (Publisher.changes_commit_ne_nil hc), ?_, ?_⟩
      · exact List.mem_append_right _ List.mem_cons_self
      · intro q hq
        exact (World.publisher?_setPublisher_ne hq).trans (World.publisher?_enterAll _)

section Life

variable [BEq V] {body : P → Prog V P σ ε} {starts : Prog V P σ ε → Prop} {w₀ w : World V P σ ε}
  {t₀ t : Thread V P σ ε} {es : List (Event V ε)} {guard : Option LockId} {c₀ : V}

/-- A publisher as every thread finds it. -/
structure Intact (p : PublisherRef) (s : Publisher V (Observer V P σ ε)) (w : World V P σ ε)
    (t : Thread V P σ ε) : Prop where
  found : w.publisher? p = some s
  orderly : View.Orderly p (t.view p s)
  lined : View.Lined (t.view p s)

omit [BEq V] in
/-- Whenever no drain is in progress the queue is empty. -/
theorem Intact.idle {p : PublisherRef} {s : Publisher V (Observer V P σ ε)} (h : Intact p s w t)
    (hset : t.Settled p) : s.draining = false ∧ s.pending = [] :=
  h.orderly.idle hset.due hset.focus

omit [BEq V] in
/-- A drain in progress is marked as such. -/
theorem Intact.draining {p : PublisherRef} {s : Publisher V (Observer V P σ ε)} {f : Focus V P σ ε}
    {calls : List (Call V (Observer V P σ ε))} {st : List (Frame V P σ ε)}
    (h : Intact p s w ⟨f, .deliver p calls :: st⟩) : s.draining = true :=
  (h.orderly.only (Thread.due_cons_deliver_self f calls st)).1

theorem Intact.move {p : PublisherRef} {s : Publisher V (Observer V P σ ε)} {w' : World V P σ ε}
    {t' : Thread V P σ ε} (h : Intact p s w t) (hm : Thread.Moves body w t es w' t') :
    ∃ s', Intact p s' w' t' ∧ View.Move p (t.view p s) (signals p es) (t'.view p s') := by
  obtain ⟨s', hs', hv⟩ := hm.view h.found
  exact ⟨s', ⟨hs', h.orderly.move hv, h.lined.move hv⟩, hv⟩

/-- A thread leaves a publisher as it should be. -/
theorem Intact.run {p : PublisherRef} {s : Publisher V (Observer V P σ ε)} {w' : World V P σ ε}
    {t' : Thread V P σ ε} (h : Intact p s w t) (hrun : CalmRun body w t es w' t') :
    ∃ s', Intact p s' w' t' := by
  induction hrun with
  | refl => exact ⟨s, h⟩
  | step _ hstep _ ih =>
      obtain ⟨s₁, h₁⟩ := ih
      obtain ⟨s', h', -⟩ := h₁.move (Thread.moves_iff.2 hstep)
      exact ⟨s', h'⟩
  | next _ _ hc => exact hc.elim

omit [BEq V] in
/-- A client that starts a program finds a publisher as the last program left it. -/
theorem Intact.next {p : PublisherRef} {s : Publisher V (Observer V P σ ε)} {o : Outcome V}
    (h : Intact p s w t) (ht : t.outcome? = some o) (c : Prog V P σ ε) :
    Intact p s w (.start c) := by
  have hset : t.Settled p := Thread.settled_of_outcome ht
  have hd : (Thread.start c).due p = t.due p := hset.due.symm
  refine ⟨h.found, ⟨?_, ?_⟩, h.lined⟩
  · show ((Thread.start c).due p).length = _
    rw [hd]
    exact h.orderly.drains
  · exact Or.inl (h.idle hset).2

/-- A publisher as a thread without panics finds it. -/
structure Regular (p : PublisherRef) (s : Publisher V (Observer V P σ ε)) (w : World V P σ ε)
    (t : Thread V P σ ε) : Prop where
  found : w.publisher? p = some s
  orderly : View.Orderly p (t.view p s)
  sound : View.Sound (t.view p s)

omit [BEq V] in
theorem Regular.intact {p : PublisherRef} {s : Publisher V (Observer V P σ ε)}
    (h : Regular p s w t) : Intact p s w t :=
  ⟨h.found, h.orderly, h.sound.lined⟩

theorem Regular.move {p : PublisherRef} {s : Publisher V (Observer V P σ ε)}
    {w' : World V P σ ε} {t' : Thread V P σ ε} (h : Regular p s w t)
    (hm : Thread.Moves body w t es w' t') (hcalm : t'.Calm) :
    ∃ s', Regular p s' w' t' ∧ View.Move p (t.view p s) (signals p es) (t'.view p s') := by
  obtain ⟨s', hs', hv⟩ := hm.view h.found
  exact ⟨s', ⟨hs', h.orderly.move hv, h.sound.move h.orderly hv hcalm⟩, hv⟩

omit [BEq V] in
/-- A publisher that has just been made. -/
theorem regular_new {p : PublisherRef} (hp : w.publisher? p = some (.new guard c₀))
    (ht : t.Settled p) : Regular p (.new guard c₀) w t := by
  refine ⟨hp, ?_, ?_⟩
  · rw [Thread.view, ht.due]
    exact View.orderly_new guard c₀ _
  · rw [Thread.view, ht.due]
    exact View.sound_new guard c₀ _

omit [BEq V] in
theorem Regular.next {p : PublisherRef} {s : Publisher V (Observer V P σ ε)} {o : Outcome V}
    (h : Regular p s w t) (ht : t.outcome? = some o) (c : Prog V P σ ε) :
    t.Settled p ∧ Regular p s w (.start c) := by
  have hset : t.Settled p := Thread.settled_of_outcome ht
  have hd : (Thread.start c).due p = t.due p := hset.due.symm
  refine ⟨hset, h.found, (h.intact.next ht c).orderly, ?_⟩
  have hs := h.sound
  rw [Thread.view, hd]
  exact ⟨hs.current, hs.lined, hs.handed, hs.inLine⟩

/-- What holds of a publisher when it is made, is kept by every move and does not depend on the
program that a client starts holds of every publisher there is. -/
theorem Run.life {ok : Thread V P σ ε → Prop} {store : σ} {c : Prog V P σ ε} {p : PublisherRef}
    {s : Publisher V (Observer V P σ ε)}
    (Inv : Publisher V (Observer V P σ ε) → World V P σ ε → Thread V P σ ε → Prop)
    (h : Run body starts ok (World.new store) (.start c) es w t)
    (made : ∀ guard v w t, w.publisher? p = some (.new guard v) → t.Settled p →
      Inv (.new guard v) w t)
    (move : ∀ s w t es w' t', Inv s w t → Thread.Moves body w t es w' t' → ok t' →
      ∃ s', w'.publisher? p = some s' ∧ Inv s' w' t')
    (next : ∀ s w t o c, Inv s w t → t.outcome? = some o → Inv s w (.start c))
    (hs : w.publisher? p = some s) : Inv s w t := by
  induction h generalizing s with
  | refl => exact nomatch hs
  | @step es es' w w' t t' hprev hstep hok ih =>
      have hm := Thread.moves_iff.2 hstep
      -- a publisher that was there is moved along, one that was not has just been made
      cases hp : w.publisher? p with
      | some s₁ =>
          obtain ⟨s', hs', hinv⟩ := move _ _ _ _ _ _ (ih hp) hm hok
          obtain rfl := Option.some.inj (hs.symm.trans hs')
          exact hinv
      | none =>
          have hreach : Reachable body w t :=
            ⟨store, c, es, hprev.mono (fun _ _ => trivial) fun _ _ => trivial⟩
          obtain ⟨-, hset', hnone | ⟨guard, v, hnew⟩⟩ := hm.unknown hp (hreach.unknown hp)
          · exact nomatch hs.symm.trans hnone
          · obtain rfl := Option.some.inj (hs.symm.trans hnew)
            exact made guard v _ _ hnew hset'
  | next _ hend _ _ ih => exact next _ _ _ _ _ (ih hs) hend

/-- Whatever clients do, panics included, they leave all publishers as they should be. -/
theorem Reachable.intact {p : PublisherRef} {s : Publisher V (Observer V P σ ε)}
    (h : Reachable body w t) (hs : w.publisher? p = some s) : Intact p s w t := by
  obtain ⟨store, c, es, hrun⟩ := h
  refine hrun.life (fun s w t => Intact p s w t) ?_ ?_ ?_ hs
  · exact fun guard v w t hnew hset => (regular_new hnew hset).intact
  · intro s w t es w' t' h hm _
    obtain ⟨s', h', -⟩ := h.move hm
    exact ⟨s', h'.found, h'⟩
  · exact fun s w t o c h ho => h.next ho c

/-- A state in which a publisher has just been made, whatever went on before. -/
inductive Born (body : P → Prog V P σ ε) (p : PublisherRef) (guard : Option LockId) (c₀ : V) :
    World V P σ ε → Thread V P σ ε → Prop where
  | made {w w' : World V P σ ε} {k : PublisherRef → Prog V P σ ε} {st : List (Frame V P σ ε)} :
      Reachable body w ⟨.run (.atom (.newPublisher guard c₀) k), st⟩ →
      w.perform (.newPublisher guard c₀) = some (p, w', []) →
      Born body p guard c₀ w' ⟨.run (k p), st⟩

/-- A publisher that has just been made is as it should be, and nobody knows it yet. -/
theorem Born.regular {p : PublisherRef} (h : Born body p guard c₀ w t) :
    t.Settled p ∧ Regular p (.new guard c₀) w t := by
  obtain @⟨w, w', k, st, hr, hperf⟩ := h
  cases hperf
  have hset : Thread.Settled ⟨w.publishers.size⟩ ⟨.run (k ⟨w.publishers.size⟩), st⟩ :=
    ⟨nofun, (hr.unknown (Heap.get?_size w.publishers)).due⟩
  exact ⟨hset, regular_new (Heap.get?_alloc_self _ _) hset⟩

theorem Born.calm {p : PublisherRef} (h : Born body p guard c₀ w t) : t.Calm := by
  cases h
  trivial

/-- What holds of a publisher when it is made, is kept by every move and does not depend on the
program that a client starts holds as long as nothing panics. -/
theorem Born.life {p : PublisherRef} (Inv : List (Event V ε) → Publisher V (Observer V P σ ε) →
      World V P σ ε → Thread V P σ ε → Prop)
    (h₀ : Born body p guard c₀ w₀ t₀) (h : Run body starts Thread.Calm w₀ t₀ es w t)
    (born : t₀.Settled p → Inv [] (.new guard c₀) w₀ t₀)
    (move : ∀ es s w t es' s' w' t', Inv es s w t → Regular p s w t →
      Thread.Moves body w t es' w' t' →
      View.Move p (t.view p s) (signals p es') (t'.view p s') → Regular p s' w' t' → t'.Calm →
      Inv (es ++ es') s' w' t')
    (next : ∀ es s w t c, Inv es s w t → t.Settled p → Inv es s w (.start c)) :
    ∃ s, Regular p s w t ∧ Inv es s w t := by
  obtain ⟨hset, hreg⟩ := h₀.regular
  induction h with
  | refl => exact ⟨_, hreg, born hset⟩
  | step _ hstep hcalm ih =>
      obtain ⟨s, hreg, hinv⟩ := ih
      have hm := Thread.moves_iff.2 hstep
      obtain ⟨s', hreg', hv⟩ := hreg.move hm hcalm
      exact ⟨s', hreg', move _ _ _ _ _ _ _ _ hinv hreg hm hv hreg' hcalm⟩
  | @next _ _ _ _ c _ hend _ _ ih =>
      obtain ⟨s, hreg, hinv⟩ := ih
      obtain ⟨hset, hreg'⟩ := hreg.next hend c
      exact ⟨s, hreg', next _ _ _ _ c hinv hset⟩

/-- As long as nothing panics, the publisher is there and is as it should be. -/
theorem Born.found {p : PublisherRef} (h₀ : Born body p guard c₀ w₀ t₀)
    (h : Run body starts Thread.Calm w₀ t₀ es w t) : ∃ s, Regular p s w t := by
  obtain ⟨s, hreg, -⟩ := h₀.life (fun _ _ _ _ => True) h (fun _ => trivial)
    (fun _ _ _ _ _ _ _ _ _ _ _ _ _ _ => trivial) (fun _ _ _ _ _ _ _ => trivial)
  exact ⟨s, hreg⟩

end Life

end ReactiveCells
