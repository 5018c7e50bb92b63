import ReactiveCells.Proofs.Crowd
import ReactiveCells.Proofs.Keeping
import ReactiveCells.Proofs.Retrying

/-!
# Teardowns — run once, and none forgotten

A subscription loses its teardown before that runs, so whatever the teardown does, and whatever
other threads do meanwhile, nobody finds it a second time. A registry works the same way: it loses
all it holds before the first of these subscriptions is disposed. What teardowns register meanwhile
goes into the registry that was left empty, and what they dispose is passed over when its turn
comes.

So a call that disposes all of a registry falls into turns, one for each subscription taken out
(`InTurn`), and the registry is what has been put into it since somebody last took everything
(`Registry.since`).

Main statements: `Crowd.Run.disposes_once`, `Registry.Emptied.of_course` (what a call of
`disposeAll` that comes back has done), `Registry.disposeAll_hosted` (it does so wherever it is
called) and `teardowns_run_once`.
-/

namespace ReactiveCells

variable {ι V P σ ε : Type}

/-! ## Every teardown is taken once -/

/-- The subscription whose teardown an event tells of. -/
def Event.disposal? : Event V ε → Option SubscriptionRef
  | .disposed s => some s
  | _ => none

/-- The subscriptions whose teardowns were taken, in order. -/
def disposals (es : List (Event V ε)) : List SubscriptionRef :=
  es.filterMap Event.disposal?

theorem disposals_append (es es' : List (Event V ε)) :
    disposals (es ++ es') = disposals es ++ disposals es' :=
  List.filterMap_append

section Disposals

variable [BEq V] {body : P → Prog V P σ ε} {starts : Prog V P σ ε → Prop}
  {ok : Thread V P σ ε → Prop} {w w' : World V P σ ε} {t t' : Thread V P σ ε}
  {es : List (Event V ε)} {s : SubscriptionRef} {d : Teardown V P σ ε}

theorem World.perform_disposals {a : Atom V σ ε} {x : a.Answer}
    (h : w.perform a = some (x, w', es)) : disposals es = [] := by
  rcases (World.performed h).events with rfl | ⟨e, rfl⟩ | ⟨m, rfl⟩ <;> rfl

/-- A move takes the teardown of a subscription that still has it and is disposed from then on, or
takes none. -/
theorem Thread.Moves.disposal (hm : Moves body w t es w' t') :
    disposals es = [] ∨ ∃ s d, disposals es = [s] ∧
      w.subscriptions.get? s.index = some (some d) ∧
      w'.subscriptions.get? s.index = some none := by
  cases hm with
  | tornDown hs => exact Or.inr ⟨_, _, rfl, hs, Heap.get?_set_self _ _ _ _ hs⟩
  | detached hs => exact Or.inr ⟨_, _, rfl, hs, Heap.get?_set_self _ _ _ _ hs⟩
  | performed ha => exact Or.inl (World.perform_disposals ha)
  | @popped _ _ _ d => cases d <;> exact Or.inl rfl
  | _ => exact Or.inl rfl

/-- Nobody but a move that takes its teardown disposes a subscription. -/
theorem Thread.Moves.disposes (hm : Moves body w t es w' t')
    (hs : w.subscriptions.get? s.index = some (some d))
    (hs' : w'.subscriptions.get? s.index = some none) : s ∈ disposals es := by
  by_cases ht : ∃ s' k, t.focus = .run (.dispose s' k) ∧ s'.index = s.index
  · obtain ⟨f, st⟩ := t
    obtain ⟨⟨i⟩, k, rfl, rfl⟩ := ht
    cases hm with
    | disposedAgain hs₁ => exact nomatch hs.symm.trans hs₁
    | tornDown | detached => exact List.mem_cons_self
  · have hkept := hm.subscription_kept hs fun s' k hf hi => ht ⟨s', k, hf, hi⟩
    exact nomatch hkept.symm.trans hs'

/-- A subscription keeps its teardown until that is taken. -/
theorem Run.disposes (h : Run body starts ok w t es w' t')
    (hs : w.subscriptions.get? s.index = some (some d)) :
    w'.subscriptions.get? s.index = some (some d) ∨
      (w'.subscriptions.get? s.index = some none ∧ s ∈ disposals es) := by
  induction h with
  | refl => exact Or.inl hs
  | step _ hstep _ ih =>
      rw [disposals_append]
      have hm := Thread.moves_iff.2 hstep
      rcases ih with hkept | ⟨hnone, hmem⟩
      · rcases hm.subscription hkept with hstill | hnow
        · exact Or.inl hstill
        · exact Or.inr ⟨hnow, List.mem_append_right _ (hm.disposes hkept hnow)⟩
      · exact Or.inr ⟨or_self_iff.1 (hm.subscription hnone), List.mem_append_left _ hmem⟩
  | next _ _ _ _ ih => exact ih

/-- However threads take turns, panics included, no teardown is taken twice, and the subscription is
disposed from the moment in which it is taken. -/
theorem Crowd.Run.disposes_once [DecidableEq ι] {c₀ c : Crowd ι V P σ ε}
    (h : Crowd.Run body starts ok c₀ es c) :
    (disposals es).Nodup ∧
      ∀ s ∈ disposals es, c.world.subscriptions.get? s.index = some none := by
  induction h with
  | refl => exact ⟨List.nodup_nil, nofun⟩
  | next _ _ _ ih => exact ih
  | @step es es' c c' i _ _ hstep ih =>
      obtain ⟨hnodup, hgone⟩ := ih
      cases hstep with | @mk w t hfree hm
      rw [disposals_append]
      have hstill : ∀ s ∈ disposals es, w.subscriptions.get? s.index = some none := fun s hs =>
        or_self_iff.1 (hm.subscription (hgone s hs))
      -- a teardown that is taken was there, so its subscription had not been disposed
      rcases hm.disposal with hnone | ⟨s, d, hone, hbefore, hafter⟩
      · rw [hnone, List.append_nil]
        exact ⟨hnodup, hstill⟩
      · rw [hone]
        constructor
        · refine List.nodup_append.2 ⟨hnodup, List.nodup_singleton s, ?_⟩
          rintro s' hs' _ hmem rfl
          obtain rfl := List.mem_singleton.1 hmem
          exact nomatch (hgone _ hs').symm.trans hbefore
        · intro s' hs'
          rcases List.mem_append.1 hs' with hold | hmem
          · exact hstill s' hold
          · obtain rfl := List.mem_singleton.1 hmem
            exact hafter

end Disposals

/-! ## One after the other -/

section InTurn

variable [BEq V] {body : P → Prog V P σ ε} {w w' w₁ : World V P σ ε} {u : Thread V P σ ε}
  {es : List (Event V ε)} {ss : List SubscriptionRef} {v x : V}

/-- Whether subscriptions are disposed one after the other, each in its turn: the teardown of one
that still has it runs to its end before the next one is disposed. -/
inductive InTurn (body : P → Prog V P σ ε) :
    World V P σ ε → List SubscriptionRef → List (Event V ε) → World V P σ ε → Prop where
  | done {w : World V P σ ε} : InTurn body w [] [] w
  /-- A subscription that is disposed already is passed over. -/
  | passed {w w' : World V P σ ε} {s : SubscriptionRef} {ss : List SubscriptionRef}
      {es : List (Event V ε)} :
      w.subscriptions.get? s.index = some none → InTurn body w ss es w' →
      InTurn body w (s :: ss) es w'
  /-- A teardown runs and finds its subscription disposed. -/
  | ran {w w₁ w' : World V P σ ε} {s : SubscriptionRef} {ss : List SubscriptionRef}
      {c : Prog V P σ ε} {v : V} {es₁ es : List (Event V ε)} :
      w.subscriptions.get? s.index = some (some (.run c)) →
      AnyRun body { w with subscriptions := w.subscriptions.set s.index none } (.start c) es₁ w₁
        ⟨.run (.ret v), []⟩ →
      InTurn body w₁ ss es w' → InTurn body w (s :: ss) (.disposed s :: (es₁ ++ es)) w'
  /-- An observer is removed. -/
  | removed {w w' : World V P σ ε} {s : SubscriptionRef} {ss : List SubscriptionRef}
      {p : PublisherRef} {id : Nat} {q : Publisher V (Observer V P σ ε)}
      {es : List (Event V ε)} :
      w.subscriptions.get? s.index = some (some (.detach p id)) → w.publisher? p = some q →
      InTurn body
        ({ w with subscriptions := w.subscriptions.set s.index none }.setPublisher p (q.detach id))
        ss es w' →
      InTurn body w (s :: ss)
        (.disposed s :: .detached p id (q.detach id).observers.length :: es) w'

/-- A program that was called has come back where its caller has. -/
theorem Run.came_back {c : Prog V P σ ε} {k : V → Prog V P σ ε}
    (h : AnyRun body w ⟨.run c, [.resume k]⟩ es w' ⟨.run (.ret x), []⟩) :
    ∃ es₁ es₂ w₁ v, es = es₁ ++ es₂ ∧ AnyRun body w (.start c) es₁ w₁ ⟨.run (.ret v), []⟩ ∧
      AnyRun body w₁ (.start (k v)) es₂ w' ⟨.run (.ret x), []⟩ := by
  rw [← Prog.bind_ret c] at h
  obtain ⟨es₁, es₂, w₁, t, o, rfl, hc, ho, hrest⟩ := h.passed (o := .returned x) rfl
  rcases Thread.outcome_cases ho with ⟨v, rfl⟩ | ⟨text, rfl⟩
  · cases ho
    rcases hrest.first with ⟨-, -, hend⟩ | ⟨w₂, t₂, es₃, es₄, hstep, -, rfl, hafter⟩
    · exact nomatch hend
    · cases hstep
      exact ⟨es₁, es₄, w₁, v, rfl, hc, hafter⟩
  · cases ho
    obtain ⟨st', hend, -⟩ := hrest.unwinds (by rintro fr hfr k rfl; simp at hfr)
    exact nomatch hend

/-- Disposing subscriptions is disposing each in its turn. -/
theorem InTurn.of_run
    (h : AnyRun body w (.start ((Registry.disposeEach ss).thenRet v)) es w' ⟨.run (.ret x), []⟩) :
    InTurn body w ss es w' := by
  induction ss generalizing w es with
  | nil =>
      rcases h.first with ⟨rfl, rfl, -⟩ | ⟨w₁, t₁, es₁, es₂, hstep, -⟩
      · exact .done
      · exact nomatch hstep
  | cons s ss ih =>
      rcases h.first with ⟨-, -, hend⟩ | ⟨w₁, t₁, es₁, es₂, hstep, -, rfl, hrest⟩
      · exact nomatch hend
      · have hm : Thread.Moves body w
            ⟨.run (.dispose s ((Registry.disposeEach ss).thenRet v)), []⟩ es₁ w₁ t₁ :=
          Thread.moves_iff.2 hstep
        cases hm with
        | disposedAgain hs => exact .passed hs (ih hrest)
        | tornDown hs =>
            obtain ⟨es₃, es₄, w₂, y, rfl, hc, hafter⟩ := hrest.came_back
            show InTurn body w (s :: ss) (.disposed s :: (es₃ ++ es₄)) w'
            exact .ran hs hc (ih hafter)
        | detached hs hq => exact .removed hs hq (ih hrest)

omit [BEq V] in
/-- When a subscription is disposed, it is from then on, and so are those that were before. -/
theorem World.spent {s s' : SubscriptionRef} {d : Option (Teardown V P σ ε)}
    (hs : w.subscriptions.get? s.index = some d)
    (hs' : s' = s ∨ w.subscriptions.get? s'.index = some none) :
    (w.subscriptions.set s.index none).get? s'.index = some none := by
  by_cases hi : s.index = s'.index
  · rw [← hi]
    exact Heap.get?_set_self _ _ _ _ hs
  · rw [Heap.get?_set_ne _ _ _ _ hi]
    exact hs'.resolve_left fun he => hi (congrArg _ he.symm)

/-- Whatever teardowns do to one another, in the end all subscriptions are disposed. -/
theorem InTurn.disposed (h : InTurn body w ss es w') (s : SubscriptionRef)
    (hs : s ∈ ss ∨ w.subscriptions.get? s.index = some none) :
    w'.subscriptions.get? s.index = some none := by
  induction h with
  | done => exact hs.resolve_left List.not_mem_nil
  | passed hgone _ ih =>
      rcases hs.imp_left List.mem_cons.1 with (rfl | hs) | hs
      · exact ih (Or.inr hgone)
      · exact ih (Or.inl hs)
      · exact ih (Or.inr hs)
  | ran hthere hc _ ih =>
      rcases hs.imp_left List.mem_cons.1 with (rfl | hs) | hs
      · exact ih (Or.inr (hc.disposed (World.spent hthere (Or.inl rfl))))
      · exact ih (Or.inl hs)
      · exact ih (Or.inr (hc.disposed (World.spent hthere (Or.inr hs))))
  | removed hthere _ _ ih =>
      rcases hs.imp_left List.mem_cons.1 with (rfl | hs) | hs
      · exact ih (Or.inr (World.spent hthere (Or.inl rfl)))
      · exact ih (Or.inl hs)
      · exact ih (Or.inr (World.spent hthere (Or.inr hs)))

end InTurn

/-! ## What is left in a registry -/

namespace Registry

/-- What is done to a registry. -/
inductive Use where
  | register (s : SubscriptionRef)
  /-- All that is in it is taken out. -/
  | take
deriving DecidableEq

/-- The subscription that is put in. -/
def Use.registered? : Use → Option SubscriptionRef
  | .register s => some s
  | .take => none

/-- What is in a registry after it was used. -/
def Use.apply : Use → List SubscriptionRef → List SubscriptionRef
  | .register s, ss => ss ++ [s]
  | .take, _ => []

/-- The subscriptions put into a registry since everything was taken out for the last time, in order
of registration. The latest use comes first. -/
def since (uses : List Use) : List SubscriptionRef :=
  ((uses.takeWhile (· ≠ .take)).filterMap Use.registered?).reverse

/-- Once everything was taken out what is in a registry is what was put in since. -/
theorem foldr_apply {uses : List Use} (h : .take ∈ uses) (ss : List SubscriptionRef) :
    uses.foldr Use.apply ss = since uses := by
  induction uses with
  | nil => exact nomatch h
  | cons use uses ih =>
      cases use with
      | take => rfl
      | register s =>
          have hrest : Use.take ∈ uses := (List.mem_cons.1 h).resolve_left nofun
          show uses.foldr Use.apply ss ++ [s] = since (.register s :: uses)
          rw [ih hrest]
          simp [since, Use.registered?]

/-- How the moves of a thread use a registry, if they do so by registering, by asking for its size,
and by disposing all of it. The latest comes first in both lists. -/
inductive Uses (r : BagRef) : List (Moment V P σ ε) → List Use → Prop where
  | nil : Uses r [] []
  | other {m : Moment V P σ ε} {past : List (Moment V P σ ε)} {uses : List Use} :
      (∀ f k st, m.thread ≠ ⟨.run (.atom (.bag r f) k), st⟩) → Uses r past uses →
      Uses r (m :: past) uses
  | size {m : Moment V P σ ε} {past : List (Moment V P σ ε)} {uses : List Use}
      {k : Nat → Prog V P σ ε} {st : List (Frame V P σ ε)} :
      m.thread = ⟨.run (size r k), st⟩ → Uses r past uses → Uses r (m :: past) uses
  | register {m : Moment V P σ ε} {past : List (Moment V P σ ε)} {uses : List Use}
      {s : SubscriptionRef} {k : Unit → Prog V P σ ε} {st : List (Frame V P σ ε)} :
      m.thread = ⟨.run (register r s k), st⟩ → Uses r past uses →
      Uses r (m :: past) (.register s :: uses)
  | disposeAll {m : Moment V P σ ε} {past : List (Moment V P σ ε)} {uses : List Use}
      {k : Unit → Prog V P σ ε} {st : List (Frame V P σ ε)} :
      m.thread = ⟨.run (disposeAll r k), st⟩ → Uses r past uses →
      Uses r (m :: past) (.take :: uses)

section Kept

variable [BEq V] {body : P → Prog V P σ ε} {w w' : World V P σ ε} {t t' u : Thread V P σ ε}
  {past : List (Moment V P σ ε)} {uses : List Use} {es : List (Event V ε)} {r : BagRef}
  {ss : List SubscriptionRef} {k : Unit → Prog V P σ ε} {st : List (Frame V P σ ε)} {v x : V}

/-- Whoever uses a registry finds it as the uses so far have left it. -/
theorem Uses.bag? (h : Uses r past uses) (hc : Course body w t past w' t')
    (hss : w.bags.get? r.index = some ss) :
    w'.bags.get? r.index = some (uses.foldr Use.apply ss) := by
  induction hc generalizing uses with
  | refl =>
      cases h
      exact hss
  | @step past es w' w'' t' t'' _ hm ih =>
      -- a move that works on the registry changes what is in it as the operation says
      have used : ∀ {uses : List Use} {f : List SubscriptionRef → List SubscriptionRef} {k st},
          w'.bags.get? r.index = some (uses.foldr Use.apply ss) →
          t' = ⟨.run (.atom (.bag r f) k), st⟩ →
          w''.bags.get? r.index = some (f (uses.foldr Use.apply ss)) := by
        rintro uses f k st hbefore rfl
        cases hm with
        | performed ha =>
            obtain ⟨-, rfl, -⟩ := Option.some.inj ((World.perform_bag hbefore f).symm.trans ha)
            exact Heap.get?_set_self _ _ _ _ hbefore
      cases h with
      | other hno huses => exact hm.bag_eq (ih huses) fun f k hf => hno f k t'.stack (hf ▸ rfl)
      | size ht huses => exact used (ih huses) ht
      | register ht huses => exact used (ih huses) ht
      | disposeAll ht huses => exact used (ih huses) ht

omit [BEq V] in
/-- Different operations on a registry are different programs. -/
theorem bag_inj {f g : List SubscriptionRef → List SubscriptionRef}
    {k₁ k₂ : List SubscriptionRef → Prog V P σ ε} {st₁ st₂ : List (Frame V P σ ε)}
    (h : (⟨.run (.atom (.bag r f) k₁), st₁⟩ : Thread V P σ ε) = ⟨.run (.atom (.bag r g) k₂), st₂⟩) :
    f = g := by
  cases h
  rfl

/-- A thread that begins by disposing all of a registry takes everything out. -/
theorem Uses.take_mem (h : Uses r past uses)
    (hc : Course body w ⟨.run (Registry.disposeAll r k), st⟩ past w' t') (hne : past ≠ []) :
    .take ∈ uses := by
  induction hc generalizing uses with
  | refl => exact absurd rfl hne
  | @step past es w' w'' t' t'' hc _ ih =>
      have hlater : ∀ {uses}, Uses r past uses → past ≠ [] → .take ∈ uses := ih
      by_cases hfirst : past = []
      · subst hfirst
        cases hc
        cases h with
        | other hno => exact absurd rfl (hno _ _ _)
        | size ht =>
            have hsame : [] = [(⟨0⟩ : SubscriptionRef)] := congrFun (bag_inj ht) [⟨0⟩]
            exact nomatch hsame
        | @register _ _ _ s _ _ ht =>
            have hsame : [] = [s] := congrFun (bag_inj ht) []
            exact nomatch hsame
        | disposeAll => exact List.mem_cons_self
      · cases h with
        | other _ huses => exact hlater huses hfirst
        | size _ huses => exact hlater huses hfirst
        | register _ huses => exact List.mem_cons_of_mem _ (hlater huses hfirst)
        | disposeAll => exact List.mem_cons_self

/-- What a call of `disposeAll` has done when it comes back to a registry that held `ss`. -/
structure Emptied (body : P → Prog V P σ ε) (r : BagRef) (ss : List SubscriptionRef)
    (w : World V P σ ε) (past : List (Moment V P σ ε)) (w' : World V P σ ε) : Prop where
  /-- All that was in the registry is disposed. -/
  disposed : ∀ s ∈ ss, w'.perform (.isDisposed s) = some (true, w', [])
  /-- All teardowns that had not been taken before were taken. -/
  torn : ∀ s ∈ ss, w.perform (.isDisposed s) = some (false, w, []) → s ∈ disposals (told past)
  /-- They ran in order of registration, but for those that were taken by others. -/
  inTurn : ∃ es, told past = .message (.disposing ss.length) :: es ∧
    InTurn body { w with bags := w.bags.set r.index [] } ss es w'
  /-- What was registered meanwhile and not taken out again is in the registry. -/
  kept : ∀ uses, Uses r past uses → w'.bags.get? r.index = some (since uses)

/-- A call of `disposeAll` that comes back has emptied the registry. -/
theorem Emptied.of_course (hss : w.bags.get? r.index = some ss)
    (h : Course body w (.start ((disposeAll r).thenRet v)) past w' ⟨.run (.ret x), []⟩) :
    Emptied body r ss w past w' := by
  have hinTurn : ∃ es, told past = .message (.disposing ss.length) :: es ∧
      InTurn body { w with bags := w.bags.set r.index [] } ss es w' := by
    rcases h.run.first with ⟨-, -, hend⟩ | ⟨w₁, t₁, es₁, es₂, htake, -, htold, hrest⟩
    · exact nomatch hend
    have hm₁ : Thread.Moves body w ⟨.run (.atom (.bag r fun _ => []) _), []⟩ es₁ w₁ t₁ :=
      Thread.moves_iff.2 htake
    cases hm₁ with | performed ha
    obtain ⟨rfl, rfl, rfl⟩ := Option.some.inj ((World.perform_bag hss _).symm.trans ha)
    rcases hrest.first with ⟨-, -, hend⟩ | ⟨w₂, t₂, es₃, es₄, hreport, -, rfl, hdispose⟩
    · exact nomatch hend
    cases hreport
    exact ⟨es₄, htold, .of_run hdispose⟩
  obtain ⟨es, htold, hturns⟩ := hinTurn
  have hgone : ∀ s ∈ ss, w'.subscriptions.get? s.index = some none := fun s hs =>
    hturns.disposed s (Or.inl hs)
  refine ⟨fun s hs => ?_, fun s hs hthere => ?_, ⟨es, htold, hturns⟩, fun uses huses => ?_⟩
  · exact congrArg (Option.map _) (hgone s hs)
  · obtain ⟨d, hd, hanswer⟩ := Option.map_eq_some_iff.1 hthere
    cases d with
    | none => exact nomatch congrArg Prod.fst hanswer
    | some d =>
        rcases h.run.disposes hd with hkept | ⟨-, hmem⟩
        · exact nomatch hkept.symm.trans (hgone s hs)
        · exact hmem
  · have hne : past ≠ [] := by
      rintro rfl
      exact nomatch htold
    rw [huses.bag? h hss, foldr_apply (huses.take_mem h hne)]

/-! ## Wherever it is called -/

omit [BEq V] in
theorem disposeEach_eq (ss : List SubscriptionRef) (k : Unit → Prog V P σ ε) (v : V) :
    disposeEach ss k = ((disposeEach ss).thenRet v).bind fun _ => k () := by
  induction ss with
  | nil => rfl
  | cons s ss ih => exact congrArg (Prog.dispose s) ih

omit [BEq V] in
/-- Calling `disposeAll` and going on is going on after a call of its own. -/
theorem disposeAll_eq (r : BagRef) (k : Unit → Prog V P σ ε) (v : V) :
    disposeAll r k = ((disposeAll r).thenRet v).bind fun _ => k () :=
  congrArg (Prog.atom _) (funext fun taken =>
    congrArg (Prog.atom _) (funext fun _ => disposeEach_eq taken k v))

/-- A thread that has called `disposeAll` is in the middle of what the call does on its own, or has
been through it: it has panicked as the call does on its own, or has gone on. -/
theorem disposeAll_hosted (v : V) (h : AnyRun body w ⟨.run (disposeAll r k), st⟩ es w' u) :
    (∃ t, AnyRun body w (.start ((disposeAll r).thenRet v)) es w' t ∧ t.outcome? = none ∧
      Hosts (fun _ => k ()) st t u) ∨
    ∃ past es₂ w₁ t o, es = told past ++ es₂ ∧
      Course body w (.start ((disposeAll r).thenRet v)) past w₁ t ∧ t.outcome? = some o ∧
      AnyRun body w₁ (o.into (fun _ => k ()) st) es₂ w' u := by
  rw [disposeAll_eq r k v] at h
  rcases h.hosted with hinside | ⟨es₁, es₂, w₁, t, o, rfl, hcall, ho, hrest⟩
  · exact Or.inl hinside
  · obtain ⟨past, hcourse, rfl⟩ := hcall.course
    exact Or.inr ⟨past, es₂, w₁, t, o, rfl, hcourse, ho, hrest⟩

end Kept

end Registry

section Main

variable [BEq V] {body : P → Prog V P σ ε} {starts : Prog V P σ ε → Prop}
  {ok : Thread V P σ ε → Prop} {es : List (Event V ε)}

/-- However threads take turns, and whatever they and the teardowns do, panics included, no teardown
is taken twice, and from the moment in which it is taken its subscription says that it is disposed.
A call that disposes all of a registry and comes back has emptied the registry: all subscriptions
that were in it are disposed, their teardowns have run in turn unless others ran them before, and
the registry holds what was registered meanwhile and not taken out again. And a thread that makes
such a call among other things does what the call does on its own before it goes on. -/
theorem teardowns_run_once [DecidableEq ι] {c₀ c : Crowd ι V P σ ε}
    (h : Crowd.Run body starts ok c₀ es c) :
    ((disposals es).Nodup ∧
      ∀ s ∈ disposals es, c.world.perform (.isDisposed s) = some (true, c.world, [])) ∧
    (∀ (r : BagRef) (ss : List SubscriptionRef) (w w' : World V P σ ε)
      (past : List (Moment V P σ ε)) (v x : V), w.bags.get? r.index = some ss →
      Course body w (.start ((Registry.disposeAll r).thenRet v)) past w' ⟨.run (.ret x), []⟩ →
      Registry.Emptied body r ss w past w') ∧
    ∀ (r : BagRef) (k : Unit → Prog V P σ ε) (st : List (Frame V P σ ε)) (w w' : World V P σ ε)
      (es : List (Event V ε)) (u : Thread V P σ ε) (v : V),
      AnyRun body w ⟨.run (Registry.disposeAll r k), st⟩ es w' u →
      (∃ t, AnyRun body w (.start ((Registry.disposeAll r).thenRet v)) es w' t ∧
        t.outcome? = none ∧ Hosts (fun _ => k ()) st t u) ∨
      ∃ past es₂ w₁ t o, es = told past ++ es₂ ∧
        Course body w (.start ((Registry.disposeAll r).thenRet v)) past w₁ t ∧
        t.outcome? = some o ∧ AnyRun body w₁ (o.into (fun _ => k ()) st) es₂ w' u := by
  obtain ⟨hnodup, hgone⟩ := h.disposes_once
  refine ⟨⟨hnodup, fun s hs => congrArg (Option.map _) (hgone s hs)⟩, ?_, ?_⟩
  · intro r ss w w' past v x hss hcourse
    exact .of_course hss hcourse
  · intro r k st w w' es u v hrun
    exact Registry.disposeAll_hosted v hrun

end Main

/-- A registry that holds two subscriptions is emptied. The teardown of the first one disposes the
second one and registers a third: both teardowns have run once, and the registry holds the third
subscription. -/
theorem teardowns_run_once_rearming :
    ∃ (w w' : World Nat Empty Unit Unit) (past : List (Moment Nat Empty Unit Unit)),
      w.bags.get? 0 = some [⟨0⟩, ⟨1⟩] ∧
      Course nofun w (.start ((Registry.disposeAll ⟨0⟩).thenRet 0)) past w' ⟨.run (.ret 0), []⟩ ∧
      (disposals (told past)).Nodup ∧ ⟨0⟩ ∈ disposals (told past) ∧ ⟨1⟩ ∈ disposals (told past) ∧
      w'.perform (.isDisposed ⟨1⟩) = some (true, w', []) ∧ w'.bags.get? 0 = some [⟨2⟩] := by
  let rearm : Prog Nat Empty Unit Unit :=
    .dispose ⟨1⟩ (Registry.register ⟨0⟩ ⟨2⟩ fun _ => .ret 0)
  let world (first second : Option (Teardown Nat Empty Unit Unit)) (bag : List SubscriptionRef) :
      World Nat Empty Unit Unit :=
    { World.new () with
      subscriptions := ⟨[first, second, some (.run (.ret 0))]⟩
      bags := ⟨[bag]⟩ }
  let second : Option (Teardown Nat Empty Unit Unit) := some (.run (.ret 0))
  let w := world (some (.run rearm)) second [⟨0⟩, ⟨1⟩]
  let w' := world none none [⟨2⟩]
  obtain ⟨past, hcourse, huses⟩ : ∃ past,
      Course nofun w (.start ((Registry.disposeAll ⟨0⟩).thenRet 0)) past w' ⟨.run (.ret 0), []⟩ ∧
      Registry.Uses ⟨0⟩ past [.register ⟨2⟩, .take] := by
    let t₀ : Thread Nat Empty Unit Unit := .start ((Registry.disposeAll ⟨0⟩).thenRet 0)
    let w₁ := world (some (.run rearm)) second []
    let w₂ := world none second []
    let w₃ := world none none []
    have h₁ : Course nofun w t₀ _ w₁ ⟨.run (.atom (.report (.disposing 2)) _), []⟩ :=
      .step .refl (Thread.moves_iff.2 rfl)
    have h₂ : Course nofun w t₀ _ w₁ _ := h₁.step (Thread.moves_iff.2 rfl)
    have h₃ : Course nofun w t₀ _ w₂ ⟨.run (.dispose ⟨1⟩ _), [_]⟩ :=
      h₂.step (Thread.moves_iff.2 rfl)
    have h₄ : Course nofun w t₀ _ w₃ _ := h₃.step (Thread.moves_iff.2 rfl)
    have h₅ : Course nofun w t₀ _ w₃ _ := h₄.step (Thread.moves_iff.2 rfl)
    have h₆ : Course nofun w t₀ _ w' _ := h₅.step (Thread.moves_iff.2 rfl)
    have h₇ : Course nofun w t₀ _ w' _ := h₆.step (Thread.moves_iff.2 rfl)
    have h₈ : Course nofun w t₀ _ w' _ := h₇.step (Thread.moves_iff.2 rfl)
    exact ⟨_, h₈, .other nofun (.other nofun (.register rfl (.other nofun (.other nofun
      (.other nofun (.other nofun (.disposeAll rfl .nil)))))))⟩
  obtain ⟨⟨hnodup, -⟩, hemptied, -⟩ := teardowns_run_once hcourse.run.alone
  have h := hemptied ⟨0⟩ [⟨0⟩, ⟨1⟩] w w' past 0 0 rfl hcourse
  exact ⟨w, w', past, rfl, hcourse, hnodup, h.torn ⟨0⟩ (by decide) rfl, h.torn ⟨1⟩ (by decide) rfl,
    h.disposed ⟨1⟩ (by decide), h.kept _ huses⟩

end ReactiveCells
