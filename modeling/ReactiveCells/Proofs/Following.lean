import ReactiveCells.Proofs.Conservation
import ReactiveCells.Proofs.Recipes

/-!
# Following — a derived value and its sources, move by move

What comes through on one side of a derived value is dealt with at once: from the call of the
observer to the write of the derived value nothing else runs. In between two such calls
the derived value holds what its rule makes of what came through last (`Linked`), and every side on
which it is still subscribed knows the value its source holds or has yet to be called with it
(`Following`).

Nobody else reaches the parts that the derived value has for itself, and nobody but its disposal
takes its observers away. So every move of a client leads to such a state again, at once or after
the reaction that it calls.

The events of a run tell which values the derived value heard of (`Recipe.heard`). It commits
what its rule makes of them, and nothing else (`Recipe.Echoes`).

Main statement: `Following.move`.
-/

namespace ReactiveCells

variable {V P σ ε : Type} [BEq V]

/-- A source that has been subscribed to, with the subscription once there is one and the value that
came through last. -/
structure Fed (δ : Recipe V) (s : Side) (F : Feed V) (held : Option SubscriptionRef) (val : V)
    (w : World V P σ ε) (t : Thread V P σ ε) : Prop
    extends Enrolled (δ.root s) F.id (δ.react s F) held w t where
  primed : w.Blank F.gates ∨ ∃ v, w.Kept val F.gates v

/-- A derived value in between two reactions, whatever is run next. -/
structure Linked (δ : Recipe V) (T : Terms V P σ ε) (S : Scope)
    (feeds : Side → Option (Feed V)) (held : Side → Option SubscriptionRef) (vals : Side → V)
    (w : World V P σ ε) (t : Thread V P σ ε) : Prop where
  wired : δ.Wired feeds
  roots : ∀ s ∈ δ.rule.sides, .publish (δ.root s) ∈ S
  world : w.Within (δ.terms T) (δ.Reacts feeds) (δ.hidden feeds)
  base : S ⊆ w.scope (δ.hidden feeds)
  stack : ∀ fr ∈ t.stack, fr.Within (δ.terms T) (δ.Reacts feeds) (w.scope (δ.hidden feeds))
  value : ∃ q, w.publisher? δ.value = some q ∧ q.current = δ.rule.result vals
  noted : δ.rule.Noted w vals
  slot : ∃ ss, w.bags.get? δ.sources.index = some ss ∧ ss.Nodup ∧ ∀ x ∈ ss, ∃ s, held s = some x
  fed : ∀ {s F}, feeds s = some F → Fed δ s F (held s) (vals s) w t
  known : ∀ {s x}, held s = some x → ∃ F, feeds s = some F

/-- Whether what a side knows is what its source holds, or the side has yet to be called. -/
def Recipe.Attentive (δ : Recipe V) (s : Side) (F : Feed V) (val : V) (w : World V P σ ε)
    (t : Thread V P σ ε) : Prop :=
  ∀ q, w.publisher? (δ.root s) = some q → View.Watched (δ.react s F) (t.view (δ.root s) q) →
    (t.view (δ.root s) q).Attended (w.Kept val F.gates) (δ.react s F)

/-! ## What events tell -/

/-- The side to which an observer of a publisher belongs. -/
def Recipe.side? (δ : Recipe V) (feeds : Side → Option (Feed V)) (p : PublisherRef) (id : Nat) :
    Option Side :=
  [Side.left, .right].find? fun s => (feeds s).any fun F => decide (δ.root s = p ∧ F.id = id)

/-- The value that an event hands to a derived value, with the side that it comes from. -/
def Recipe.heard? (δ : Recipe V) (feeds : Side → Option (Feed V)) :
    Event V ε → Option (Side × V)
  | .called p id v => (δ.side? feeds p id).map fun s => (s, v)
  | .committed .. | .queued .. | .detached .. | .note _ | .message _ | .disposed _ => none

/-- The values that events hand to a derived value, in order. -/
def Recipe.heard (δ : Recipe V) (feeds : Side → Option (Feed V)) (es : List (Event V ε)) :
    List (Side × V) :=
  es.filterMap (δ.heard? feeds)

/-- What the events of some moves tell of a derived value: nothing, or that it heard of a value on
one side and committed the result if that is new. -/
inductive Recipe.Echoes (δ : Recipe V) (feeds : Side → Option (Feed V)) (vals : Side → V)
    (es : List (Event V ε)) : (Side → V) → Prop where
  | quiet : δ.heard feeds es = [] → commits (signals δ.value es) = [] → Echoes δ feeds vals es vals
  | dealt {s : Side} {v : V} {vals' : Side → V} : δ.heard feeds es = [(s, v)] →
      vals' = Function.update vals s (δ.view s v) →
      (commits (signals δ.value es) = [] ∧ δ.rule.result vals = δ.rule.result vals') ∨
        (commits (signals δ.value es) = [δ.rule.result vals'] ∧
          δ.rule.result vals ≠ δ.rule.result vals') → Echoes δ feeds vals es vals'

/-! ## States in between -/

/-- A derived value in between two reactions. -/
structure Following (δ : Recipe V) (T : Terms V P σ ε) (S : Scope)
    (feeds : Side → Option (Feed V)) (held : Side → Option SubscriptionRef) (vals : Side → V)
    (w : World V P σ ε) (t : Thread V P σ ε) : Prop
    extends Linked δ T S feeds held vals w t where
  focus : t.focus.Within (δ.terms T) (w.scope (δ.hidden feeds))
  attentive : ∀ {s F}, feeds s = some F → δ.Attentive s F (vals s) w t
  numbered : ∀ {s F q}, feeds s = some F → w.publisher? (δ.root s) = some q →
    (t.view (δ.root s) q).Knows F.id (δ.react s F)

section Moving

variable {δ : Recipe V} {T : Terms V P σ ε} {S : Scope} {feeds : Side → Option (Feed V)}
  {held : Side → Option SubscriptionRef} {vals vals' : Side → V} {body : P → Prog V P σ ε}
  {w w' : World V P σ ε} {t t' : Thread V P σ ε} {es : List (Event V ε)} {s : Side} {F : Feed V}

/-! ## What is up to little -/

/-- Nobody is subscribed on a side without a source. -/
theorem Linked.unheld (h : Linked δ T S feeds held vals w t) (hnew : feeds s = none) :
    held s = none := by
  refine Option.eq_none_iff_forall_ne_some.2 fun x hx => ?_
  obtain ⟨F, hF⟩ := h.known hx
  exact nomatch hnew.symm.trans hF

/-- What is known of a source is up to its publisher, the subscriptions, the frames that wait for
its registration and the gates. -/
theorem Fed.same {x : Option SubscriptionRef} {val val' : V} (h : Fed δ s F x val w t)
    (hprimed : w'.Blank F.gates ∨ ∃ v, w'.Kept val' F.gates v)
    (hroot : w'.publisher? (δ.root s) = w.publisher? (δ.root s))
    (hsubs : w'.subscriptions = w.subscriptions)
    (hstack : ∀ k, .register (δ.root s) F.id k ∈ t'.stack → .register (δ.root s) F.id k ∈ t.stack) :
    Fed δ s F x val' w' t' :=
  ⟨h.toEnrolled.same hroot hsubs hstack, hprimed⟩

/-- What a side has yet to hear is up to its publisher, its gates and the calls due. -/
theorem Recipe.Attentive.same {val : V} (h : δ.Attentive s F val w t)
    (hroot : w'.publisher? (δ.root s) = w.publisher? (δ.root s))
    (hmemos : ∀ g ∈ F.gates, w'.memos.get? g.last.index = w.memos.get? g.last.index)
    (hdue : t'.due (δ.root s) = t.due (δ.root s)) : δ.Attentive s F val w' t' := by
  intro q hq hw
  have hatt := (h q (hroot.symm.trans hq) hw).imp fun u hu => hu.same hmemos
  refine hatt.same rfl rfl fun c hc => ?_
  rw [View.calls, Thread.view, hdue]
  exact hc

/-! ## Who is heard -/

omit [BEq V] in
/-- Who belongs to a side is its observer. -/
theorem Recipe.of_side? {p : PublisherRef} {id : Nat} (h : δ.side? feeds p id = some s) :
    ∃ F, feeds s = some F ∧ δ.root s = p ∧ F.id = id := by
  have hany := List.find?_some h
  cases hF : feeds s with
  | none =>
      rw [hF] at hany
      exact nomatch hany
  | some F =>
      rw [hF] at hany
      exact ⟨F, rfl, of_decide_eq_true hany⟩

omit [BEq V] in
/-- The observer of a side belongs to that side. -/
theorem Recipe.Wired.side?_eq (h : δ.Wired feeds) (hF : feeds s = some F) :
    δ.side? feeds (δ.root s) F.id = some s := by
  have hown : (feeds s).any (fun F' => decide (δ.root s = δ.root s ∧ F'.id = F.id)) = true := by
    rw [hF]
    exact decide_eq_true ⟨rfl, rfl⟩
  obtain ⟨s', hs'⟩ : ∃ s', δ.side? feeds (δ.root s) F.id = some s' := by
    refine Option.isSome_iff_exists.1 (List.find?_isSome.2 ⟨s, ?_, hown⟩)
    cases s
    · exact List.mem_cons_self
    · exact List.mem_cons_of_mem _ List.mem_cons_self
  obtain ⟨F', hF', hroot, hid⟩ := Recipe.of_side? hs'
  by_cases hs : s' = s
  · exact hs ▸ hs'
  · exact absurd hid (h.ids hF' hF hs hroot)

omit [BEq V] in
theorem Recipe.heard_append (es es' : List (Event V ε)) :
    δ.heard feeds (es ++ es') = δ.heard feeds es ++ δ.heard feeds es' :=
  List.filterMap_append

omit [BEq V] in
/-- A derived value hears of nothing where none of its observers is called. -/
theorem Recipe.heard_eq_nil {es : List (Event V ε)}
    (h : ∀ s F v, feeds s = some F → .called F.id v ∉ signals (δ.root s) es) :
    δ.heard feeds es = [] := by
  refine List.filterMap_eq_nil_iff.2 fun e he => ?_
  cases e with
  | called p id v =>
      refine Option.map_eq_none_iff.2 (Option.eq_none_iff_forall_ne_some.2 fun s hs => ?_)
      obtain ⟨F, hF, rfl, rfl⟩ := Recipe.of_side? hs
      exact h s F v hF (List.mem_filterMap.2 ⟨_, he, if_pos rfl⟩)
  | _ => rfl

/-! ## What moves leave alone -/

/-- Only disposal takes the observer of a source away. -/
theorem Fed.move {x : Option SubscriptionRef} {val : V} (h : Fed δ s F x val w t)
    (hm : Thread.Moves body w t es w' t') (hcalm : t'.Calm)
    (hmemos : ∀ g ∈ F.gates, w'.memos.get? g.last.index = w.memos.get? g.last.index) :
    Fed δ s F x val w' t' :=
  ⟨h.toEnrolled.move hm hcalm, World.Kept.primed_same h.primed hmemos⟩

/-- The publishers below the sources are there, and none is that of the derived value. -/
theorem Linked.root (h : Linked δ T S feeds held vals w t) (hs : s ∈ δ.rule.sides) :
    (∃ q, w.publisher? (δ.root s) = some q) ∧ δ.root s ≠ δ.value := by
  obtain ⟨hmade, hhidden⟩ := h.base (h.roots s hs)
  refine ⟨⟨_, List.getElem?_eq_getElem hmade⟩, fun he => hhidden ?_⟩
  rw [he]
  exact .publish

omit [BEq V] in
/-- A client uses nothing that is hidden. -/
theorem Linked.not_mem_head (hf : t.focus.Within (δ.terms T) (w.scope (δ.hidden feeds)))
    (hplain : ∀ c K, t.focus = .run c → ¬ δ.Disposes c K) {c : Prog V P σ ε}
    (hc : t.focus = .run c) {u : Use} (hu : δ.Hidden feeds u) : u ∉ c.head := by
  rw [hc] at hf
  exact fun hmem => (Prog.Within.head_subset hf (fun K => hplain c K hc) hmem).2 hu

/-- A move of a client leaves the shared lists of a derived value alone. -/
theorem Linked.memo_eq (h : Linked δ T S feeds held vals w t)
    (hf : t.focus.Within (δ.terms T) (w.scope (δ.hidden feeds)))
    (hm : Thread.Moves body w t es w' t') {m : MemoRef} (hu : δ.Hidden feeds (.memo m)) :
    w'.memos.get? m.index = w.memos.get? m.index := by
  refine hm.hidden_memo_eq h.world hf hu fun f k K _ hK => ?_
  have hdisposes : δ.Disposes (.atom (.memo m f) k) K := hK
  generalize hatom : Prog.atom (.memo m f) k = c at hdisposes
  cases hdisposes with
  | dispose k => exact nomatch hatom

/-- Nobody else writes the derived value. -/
theorem Linked.not_writes (h : Linked δ T S feeds held vals w t)
    (hf : t.focus.Within (δ.terms T) (w.scope (δ.hidden feeds)))
    (hplain : ∀ c K, t.focus = .run c → ¬ δ.Disposes c K)
    (hm : Thread.Moves body w t es w' t') (v : V) : .committed v ∉ signals δ.value es := by
  intro hv
  cases hm.writes hv with
  | publish k st => exact Linked.not_mem_head hf hplain rfl .publish rfl
  | commit st => exact (h.stack _ List.mem_cons_self).2 .amend

/-- A move of a client that does not dispose a derived value leaves it alone. -/
theorem Linked.move (h : Linked δ T S feeds held vals w t)
    (hbodies : ∀ c, (body c).Within (δ.terms T) S)
    (hf : t.focus.Within (δ.terms T) (w.scope (δ.hidden feeds)))
    (hplain : ∀ c K, t.focus = .run c → ¬ δ.Disposes c K)
    (hm : Thread.Moves body w t es w' t') (hcalm : t'.Calm) :
    Linked δ T S feeds held vals w' t' ∧
      (t'.focus.Within (δ.terms T) (w'.scope (δ.hidden feeds)) ∨
        Thread.Calls (δ.Reacts feeds) t t') := by
  obtain ⟨hgrow, hworld, hstack, hfocus⟩ := hm.within (fun c => (hbodies c).mono h.base) h.world
    (fun _ fr hfr => h.stack fr (List.mem_of_mem_head? hfr)) hf hplain
  have hmemo := fun m (hu : δ.Hidden feeds (.memo m)) => h.memo_eq hf hm hu
  refine ⟨⟨h.wired, h.roots, hworld, h.base.trans hgrow.scope, ?_, ?_, ?_, ?_, ?_, h.known⟩, hfocus⟩
  · intro fr hfr
    rcases hstack fr hfr with hold | hnew
    · exact (h.stack fr hold).mono hgrow.scope
    · exact hnew
  · obtain ⟨q, hq, hcur⟩ := h.value
    obtain ⟨q', hq', hv⟩ := hm.view hq
    exact ⟨q', hq', (hv.current_eq (h.not_writes hf hplain hm)).trans hcur⟩
  · exact h.noted.same fun m hmem => hmemo m (.note hmem)
  · obtain ⟨ss, hss, hrest⟩ := h.slot
    refine ⟨ss, hm.bag_eq hss fun f k hc => ?_, hrest⟩
    exact Linked.not_mem_head hf hplain hc .bag rfl
  · exact fun hF => (h.fed hF).move hm hcalm fun g hg => hmemo g.last (.gate hF hg)

/-! ## Disposing a derived value -/

omit [BEq V] in
theorem disposeEach_within {T : Terms V P σ ε} {S : Scope} {k : Prog V P σ ε} (hk : k.Within T S)
    (ss : List SubscriptionRef) : Prog.Within T S (Registry.disposeEach ss fun _ => k) := by
  induction ss with
  | nil => exact hk
  | cons s ss ih => exact .dispose ih

omit [BEq V] in
/-- Whoever may use the bag of a derived value may dispose it. -/
theorem Derived.Disposes.within {d : Derived} {T : Terms V P σ ε} {S : Scope} {c : Prog V P σ ε}
    {K : Set (Prog V P σ ε)} (h : d.Disposes c K) (hbag : .bag d.sources ∈ S)
    (hK : ∀ k ∈ K, k.Within T S) : c.Within T S := by
  cases h with
  | dispose k =>
      have hneeds : (Atom.bag d.sources (fun _ => []) : Atom V σ ε).needs ⊆ S :=
        Set.singleton_subset_iff.2 hbag
      refine .atom nofun hneeds fun (ss : List SubscriptionRef) => ?_
      refine .atom nofun (Set.empty_subset _) fun _ => ?_
      exact (disposeEach_within (hK k rfl) ss).mono
        (Set.subset_union_left.trans Set.subset_union_left)

/-- What is hidden from clients is there nevertheless. -/
theorem Linked.hidden_subset (h : Linked δ T S feeds held vals w t) :
    δ.hidden feeds ⊆ w.scope ∅ := fun u hu =>
  ⟨h.world.made u hu, Set.notMem_empty u⟩

theorem Linked.scope_subset (h : Linked δ T S feeds held vals w t) : S ⊆ w.scope ∅ := fun u hu =>
  ⟨(h.base hu).1, Set.notMem_empty u⟩

/-- A client needs nothing but what there is. -/
theorem Linked.plain (h : Linked δ T S feeds held vals w t) {c : Prog V P σ ε}
    (hc : c.Within (δ.terms T) S) : c.Within T.plain (w.scope ∅) := by
  refine hc.recast h.scope_subset fun c K R hdisposes hR hK => ?_
  exact hdisposes.within (hR (h.hidden_subset .bag)) hK

/-- A world in which a derived value is followed keeps to what there is. -/
theorem Linked.exposed (h : Linked δ T S feeds held vals w t) :
    w.Within T.plain (fun _ _ => False) ∅ := by
  refine World.Within.expose h.world (fun c K R hc hR hK => ?_) ?_
  · exact hc.within (hR (h.hidden_subset .bag)) hK
  · rintro q react v ⟨s, F, hF, rfl, rfl⟩
    exact Recipe.react_within hF h.hidden_subset v

omit [BEq V] in
/-- A program of a client disposes the derived value, or is no such operation. -/
theorem Linked.disposes_or {c : Prog V P σ ε}
    (hc : c.Within (δ.terms T) (w.scope (δ.hidden feeds))) :
    (∃ k, c = δ.dispose (fun _ => k) ∧ k.Within (δ.terms T) (w.scope (δ.hidden feeds))) ∨
      ∀ K, ¬ δ.Disposes c K := by
  by_cases hop : ∃ K, δ.Disposes c K
  · obtain ⟨K, ⟨k⟩⟩ := hop
    refine Or.inl ?_
    generalize hatom : δ.dispose (fun _ => k) = c at hc
    cases hc with
    | atom _ hneeds _ =>
        cases hatom
        exact absurd (.bag : δ.Hidden feeds (.bag δ.sources)) (hneeds rfl).2
    | special hK hin =>
        cases hK with
        | dispose k' => exact ⟨k', rfl, hin k' rfl⟩
    | _ => exact nomatch hatom
  · exact Or.inr fun K hK => hop ⟨K, hK⟩

/-- Disposing a derived value empties its bag. -/
theorem Linked.empty {k : Prog V P σ ε} {st : List (Frame V P σ ε)}
    (h : Linked δ T S feeds held vals w ⟨.run (δ.dispose fun _ => k), st⟩)
    (hk : k.Within (δ.terms T) (w.scope (δ.hidden feeds)))
    (hm : Thread.Moves body w ⟨.run (δ.dispose fun _ => k), st⟩ es w' t') (hcalm : t'.Calm) :
    Linked δ T S feeds held vals w' t' ∧
      t'.focus.Within (δ.terms T) (w'.scope (δ.hidden feeds)) := by
  have hfed := fun {s F} (hF : feeds s = some F) hmemos => (h.fed hF).move hm hcalm hmemos
  obtain ⟨ss, hss, -, -⟩ := h.slot
  cases hm with
  | performed ha =>
      have hworld := h.world.performBag ha
      have hgrow := World.grows_perform ha
      obtain ⟨ss', hss', ha⟩ := Option.map_eq_some_iff.1 ha
      cases ha
      obtain rfl := Option.some.inj (hss.symm.trans hss')
      refine ⟨⟨h.wired, h.roots, hworld, h.base.trans hgrow.scope, ?_, h.value, h.noted, ?_, ?_,
        h.known⟩, ?_⟩
      · exact fun fr hfr => (h.stack fr hfr).mono hgrow.scope
      · exact ⟨[], Heap.get?_set_self _ _ _ _ hss, List.nodup_nil, nofun⟩
      · exact fun hF => hfed hF fun _ _ => rfl
      · refine .atom nofun (Set.empty_subset _) fun _ => ?_
        exact ((disposeEach_within hk ss).mono hgrow.scope).mono Set.subset_union_left

/-! ## What a reaction does -/

/-- What has changed after a value was dealt with on one side. -/
structure Recipe.Dealt (δ : Recipe V) (s : Side) (F : Feed V) (v : V) (vals vals' : Side → V)
    (w w' : World V P σ ε) : Prop where
  beside : w.Beside δ.value (δ.rule.notes ++ F.gates.map (·.last)) w'
  others : ∀ s', s' ≠ s → vals' s' = vals s'
  kept : w'.Kept (vals' s) F.gates v
  value : ∃ q, w'.publisher? δ.value = some q ∧ q.current = δ.rule.result vals'
  noted : δ.rule.Noted w' vals'

/-- What a derived value tells when it has dealt with a value: the result if that is new. -/
def Recipe.Tells (δ : Recipe V) (vals vals' : Side → V) (es : List (Event V ε)) : Prop :=
  (es = [] ∧ δ.rule.result vals = δ.rule.result vals') ∨
    (es = [.committed δ.value (δ.rule.result vals')] ∧ δ.rule.result vals ≠ δ.rule.result vals')

/-- A reaction deals with its value without a break. -/
theorem Linked.react_run [LawfulBEq V] (body : P → Prog V P σ ε)
    (h : Linked δ T S feeds held vals w t) (hF : feeds s = some F) (v : V)
    (st : List (Frame V P σ ε)) :
    ∃ es w' vals' f upper, CalmRun body w ⟨.run (δ.react s F v), st⟩ es w' ⟨f, upper ++ st⟩ ∧
      f.Idle ∧ (∀ fr ∈ upper, fr.Idle) ∧ δ.Dealt s F v vals vals' w w' ∧
      δ.Tells vals vals' es := by
  obtain ⟨w₁, hbeside, hpubs, hend⟩ := gated_run body (h.wired.nodup hF) (h.fed hF).primed δ.value
    (δ.sink s) v (fun _ => .ret v) st
  have hbeside' := hbeside.mono (List.subset_append_right δ.rule.notes _)
  obtain ⟨q, hq, hcur⟩ := h.value
  have hq₁ : w₁.publisher? δ.value = some q := (congrArg (Heap.get? · _) hpubs).trans hq
  have hnoted : δ.rule.Noted w₁ vals := by
    refine h.noted.same fun m hm => hbeside.memos m fun hmem => ?_
    obtain ⟨g, hg, rfl⟩ := List.mem_map.1 hmem
    exact h.wired.notes hF hg hm
  -- a gate drops the value, or it reaches the sink
  rcases hend with ⟨hkept, hrun⟩ | ⟨hkept, hrun⟩
  · exact ⟨_, w₁, vals, _, [], hrun, .ret v, nofun, ⟨hbeside', fun _ _ => rfl, hkept,
      ⟨q, hq₁, hcur⟩, hnoted⟩, Or.inl ⟨rfl, rfl⟩⟩
  · obtain ⟨es, w', f, hsink, hidle, hbeside₂, hvalue, hnoted', htells⟩ :=
      Recipe.sink_run body hq₁ hnoted (h.wired.sided hF) (Gate.through F.gates v)
        (fun _ => .ret v) st
    rw [Publisher.Tells, hcur] at htells
    refine ⟨es, w', Function.update vals s (Gate.through F.gates v), f,
      q.leaving ++ [.resume fun _ => .ret v], ?_, hidle, ?_, ⟨?_, ?_, ?_, hvalue, hnoted'⟩, htells⟩
    · rw [List.append_assoc]
      exact hrun.trans hsink
    · intro fr hfr
      rcases List.mem_append.1 hfr with hleave | hresume
      · exact Frame.idle_of_mem_leaving hleave
      · rw [List.mem_singleton.1 hresume]
        exact .resume v
    · exact hbeside'.trans (hbeside₂.mono (List.subset_append_left _ _))
    · exact fun s' hs' => Function.update_of_ne hs' _ _
    · rw [Function.update_self]
      refine hkept.same fun g hg => hbeside₂.memos g.last (h.wired.notes hF hg)

/-- After a reaction the derived value is in between two reactions again. -/
theorem Linked.dealt (h : Linked δ T S feeds held vals w t) (hF : feeds s = some F) {v : V}
    (hd : δ.Dealt s F v vals vals' w w') {f : Focus V P σ ε} {upper : List (Frame V P σ ε)}
    (hupper : ∀ fr ∈ upper, fr.Idle) :
    Linked δ T S feeds held vals' w' ⟨f, upper ++ t.stack⟩ := by
  have hgrow := hd.beside.grows
  refine ⟨h.wired, h.roots, hd.beside.within _ _ _ h.world, h.base.trans hgrow.scope, ?_, hd.value,
    hd.noted, ?_, ?_, h.known⟩
  · intro fr hfr
    rcases List.mem_append.1 hfr with hnew | hold
    · exact (hupper fr hnew).within
    · exact (h.stack fr hold).mono hgrow.scope
  · rw [hd.beside.bags]
    exact h.slot
  · intro s' F' hF'
    have hroot : w'.publisher? (δ.root s') = w.publisher? (δ.root s') :=
      hd.beside.publishers _ (h.root (h.wired.sided hF')).2
    refine (h.fed hF').same ?_ hroot hd.beside.subscriptions fun k hk => ?_
    · by_cases hs : s' = s
      · subst hs
        obtain rfl := Option.some.inj (hF.symm.trans hF')
        exact Or.inr ⟨v, hd.kept⟩
      · have hmemos := fun g hg => hd.beside.memos _ (h.wired.apart_of_ne hF hF' hs g hg)
        rw [hd.others s' hs]
        exact World.Kept.primed_same (h.fed hF').primed hmemos
    · rcases List.mem_append.1 hk with hnew | hold
      · exact nomatch hupper _ hnew
      · exact hold

/-! ## What the sides know -/

omit [BEq V] in
/-- Frames that go on with nothing have no calls due. -/
theorem Thread.due_idle (p : PublisherRef) (f f' : Focus V P σ ε) {upper : List (Frame V P σ ε)}
    (hupper : ∀ fr ∈ upper, fr.Idle) (st : List (Frame V P σ ε)) :
    Thread.due p ⟨f, upper ++ st⟩ = Thread.due p ⟨f', st⟩ := by
  rw [Thread.due_append, Thread.due_eq_nil fun fr hfr => (hupper fr hfr).calls? p]
  rfl

/-- A side stays attentive from move to move, or its reaction is called with the value that its
source holds. -/
theorem Recipe.Attentive.move {val : V} (h : δ.Attentive s F val w t)
    {q : Publisher V (Observer V P σ ε)} (hreg : Regular (δ.root s) q w t)
    (hm : Thread.Moves body w t es w' t') (hcalm : t'.Calm)
    (hmemos : ∀ g ∈ F.gates, w'.memos.get? g.last.index = w.memos.get? g.last.index) :
    δ.Attentive s F val w' t' ∨
      ∃ q, w'.publisher? (δ.root s) = some q ∧ t'.focus = .run (δ.react s F q.current) := by
  obtain ⟨q', hq', hv⟩ := hm.view hreg.found
  -- a reaction that is registered no more has nothing to attend to
  by_cases hw : View.Watched (δ.react s F) (t'.view (δ.root s) q')
  · rcases View.Attended.move (h q hreg.found) hv hreg.orderly hreg.sound.fresh hcalm hw with
      hatt | ⟨-, hf⟩
    · refine Or.inl fun r hr _ => ?_
      obtain rfl := Option.some.inj (hq'.symm.trans hr)
      exact hatt.imp fun u hu => hu.same hmemos
    · exact Or.inr ⟨q', hq', hf⟩
  · refine Or.inl fun r hr hw' => ?_
    obtain rfl := Option.some.inj (hq'.symm.trans hr)
    exact absurd hw' hw

theorem Following.attentive_move (h : Following δ T S feeds held vals w t)
    (hreg : ∀ p q, w.publisher? p = some q → Regular p q w t)
    (hm : Thread.Moves body w t es w' t') (hcalm : t'.Calm) (hF : feeds s = some F) :
    δ.Attentive s F (vals s) w' t' ∨
      ∃ q, w'.publisher? (δ.root s) = some q ∧ t'.focus = .run (δ.react s F q.current) := by
  obtain ⟨⟨q, hq⟩, -⟩ := h.root (h.wired.sided hF)
  exact (h.attentive hF).move (hreg _ q hq) hm hcalm fun g hg =>
    h.memo_eq h.focus hm (.gate hF hg)

/-- No client attaches a reaction. -/
theorem Following.numbered_move (h : Following δ T S feeds held vals w t)
    (hm : Thread.Moves body w t es w' t') {q' : Publisher V (Observer V P σ ε)}
    (hF : feeds s = some F) (hq' : w'.publisher? (δ.root s) = some q') :
    (t'.view (δ.root s) q').Knows F.id (δ.react s F) := by
  obtain ⟨⟨q, hq⟩, -⟩ := h.root (h.wired.sided hF)
  refine (h.numbered hF hq).move hm hq hq' fun keeps k he => ?_
  have hf := h.focus
  rw [he] at hf
  cases hf with
  | attach _ ho _ => exact Recipe.react_not_within hF q.current (ho q.current)
  | special hK => exact nomatch hK

/-- A move after which a client goes on hands the derived value nothing. -/
theorem Following.unheard (h : Following δ T S feeds held vals w t)
    (hm : Thread.Moves body w t es w' t')
    (hfocus : t'.focus.Within (δ.terms T) (w'.scope (δ.hidden feeds))) : δ.heard feeds es = [] := by
  refine Recipe.heard_eq_nil fun s F v hF hcalled => ?_
  obtain ⟨⟨q, hq⟩, -⟩ := h.root (h.wired.sided hF)
  obtain ⟨q', -, hv⟩ := hm.view hq
  have hf : t'.focus = .run (δ.react s F v) := (h.numbered hF hq).called hv hcalled
  rw [hf] at hfocus
  exact Recipe.react_not_within hF v hfocus

/-- If a client goes on, every side is attentive. -/
theorem Following.goes_on (h : Following δ T S feeds held vals w t)
    (hreg : ∀ p q, w.publisher? p = some q → Regular p q w t)
    (hm : Thread.Moves body w t es w' t') (hcalm : t'.Calm)
    (hlinked : Linked δ T S feeds held vals w' t')
    (hfocus : t'.focus.Within (δ.terms T) (w'.scope (δ.hidden feeds))) :
    Following δ T S feeds held vals w' t' := by
  refine ⟨hlinked, hfocus, fun {s F} hF => ?_, fun hF hq => h.numbered_move hm hF hq⟩
  refine (h.attentive_move hreg hm hcalm hF).resolve_right ?_
  rintro ⟨q, -, hf⟩
  rw [hf] at hfocus
  exact Recipe.react_not_within hF _ hfocus

/-- After a reaction every side is attentive again. -/
theorem Linked.attentive_dealt (h : Linked δ T S feeds held vals w t) (hF : feeds s = some F)
    {v : V} (hd : δ.Dealt s F v vals vals' w w') {f : Focus V P σ ε}
    {upper : List (Frame V P σ ε)} (hupper : ∀ fr ∈ upper, fr.Idle)
    (hothers : ∀ {s' F'}, feeds s' = some F' → s' ≠ s → δ.Attentive s' F' (vals s') w t)
    (hlatest : ∀ q, w.publisher? (δ.root s) = some q → q.changes = [] → v = q.current)
    {s' : Side} {F' : Feed V} (hF' : feeds s' = some F') :
    δ.Attentive s' F' (vals' s') w' ⟨f, upper ++ t.stack⟩ := by
  have hroot : w'.publisher? (δ.root s') = w.publisher? (δ.root s') :=
    hd.beside.publishers _ (h.root (h.wired.sided hF')).2
  by_cases hs : s' = s
  · subst hs
    obtain rfl := Option.some.inj (hF.symm.trans hF')
    intro q hq _
    by_cases hch : q.changes = []
    · exact .accepted (hlatest q (hroot.symm.trans hq) hch ▸ hd.kept)
    · exact .queued hch
  · rw [hd.others s' hs]
    exact (hothers hF' hs).same hroot
      (fun g hg => hd.beside.memos _ (h.wired.apart_of_ne hF hF' hs g hg))
      (Thread.due_idle (δ.root s') f t.focus hupper t.stack)

/-! ## From move to move -/

/-- The call of an observer changes nothing in the world. -/
theorem Thread.Moves.of_called {p : PublisherRef} {u : V} {c : Call V (Observer V P σ ε)}
    {calls : List (Call V (Observer V P σ ε))} {st : List (Frame V P σ ε)}
    (hm : Moves body w ⟨.run (.ret u), .deliver p (c :: calls) :: st⟩ es w' t') :
    w' = w ∧ es = [.called p c.id c.value] := by
  cases hm
  exact ⟨rfl, rfl⟩

/-- Whoever is to be called with the reaction of a side has its number. -/
theorem Following.id_of_react {u : V} {c : Call V (Observer V P σ ε)}
    {calls : List (Call V (Observer V P σ ε))} {st : List (Frame V P σ ε)}
    (h : Following δ T S feeds held vals w
      ⟨.run (.ret u), .deliver (δ.root s) (c :: calls) :: st⟩)
    (hF : feeds s = some F) (hreact : c.observer.react = δ.react s F) : c.id = F.id := by
  obtain ⟨⟨q, hq⟩, -⟩ := h.root (h.wired.sided hF)
  refine ((h.numbered hF hq).calls c ?_).2 hreact
  rw [View.calls, Thread.view, Thread.due_cons_deliver_self]
  exact List.mem_cons_self

omit [BEq V] in
/-- An observer is called with the value held, unless a newer one is queued. -/
theorem Regular.latest {p : PublisherRef} {q : Publisher V (Observer V P σ ε)} {u : V}
    {c : Call V (Observer V P σ ε)} {calls : List (Call V (Observer V P σ ε))}
    {st : List (Frame V P σ ε)}
    (h : Regular p q w ⟨.run (.ret u), .deliver p (c :: calls) :: st⟩) (hch : q.changes = []) :
    c.value = q.current := by
  refine h.sound.fresh hch c ?_ rfl
  rw [View.calls, Thread.view, Thread.due_cons_deliver_self]
  exact List.mem_cons_self

omit [BEq V] in
/-- What a derived value hears of and tells when a reaction is called. -/
theorem Recipe.Echoes.of_called {c : Call V (Observer V P σ ε)} {es' : List (Event V ε)}
    (hw : δ.Wired feeds) (hF : feeds s = some F) (hid : c.id = F.id)
    (hothers : ∀ s', s' ≠ s → vals' s' = vals s') (hval : vals' s = δ.view s c.value)
    (htells : δ.Tells vals vals' es') :
    δ.Echoes feeds vals ([.called (δ.root s) c.id c.value] ++ es') vals' := by
  have hone : δ.heard feeds [(.called (δ.root s) c.id c.value : Event V ε)] = [(s, c.value)] := by
    rw [Recipe.heard, List.filterMap_cons, Recipe.heard?, hid, hw.side?_eq hF]
    rfl
  have hupdate : vals' = Function.update vals s (δ.view s c.value) := by
    refine funext fun s' => ?_
    by_cases hs : s' = s
    · subst hs
      rw [Function.update_self, hval]
    · rw [Function.update_of_ne hs, hothers s' hs]
  have hquiet : commits (signals δ.value [(.called (δ.root s) c.id c.value : Event V ε)]) = [] := by
    by_cases hroot : δ.root s = δ.value <;> simp [commits, hroot,
      Signal.commit?]
  have hheard : δ.heard feeds es' = [] := by
    rcases htells with ⟨rfl, -⟩ | ⟨rfl, -⟩ <;> rfl
  refine .dealt (s := s) (v := c.value) ?_ hupdate ?_
  · rw [Recipe.heard_append, hone, hheard]
    rfl
  · rw [signals_append, commits_append, hquiet, List.nil_append]
    rcases htells with ⟨rfl, hsame⟩ | ⟨rfl, hne⟩
    · exact Or.inl ⟨rfl, hsame⟩
    · refine Or.inr ⟨?_, hne⟩
      simp [commits, Signal.commit?]

/-- Reactions leave alone who belongs to a side. -/
theorem Linked.numbered_dealt (h : Linked δ T S feeds held vals w t) {v : V}
    (hd : δ.Dealt s F v vals vals' w w') {f : Focus V P σ ε} {upper : List (Frame V P σ ε)}
    (hupper : ∀ fr ∈ upper, fr.Idle)
    (hnumbered : ∀ {s' F' q}, feeds s' = some F' → w.publisher? (δ.root s') = some q →
      (t.view (δ.root s') q).Knows F'.id (δ.react s' F'))
    {s' : Side} {F' : Feed V} {q : Publisher V (Observer V P σ ε)} (hF' : feeds s' = some F')
    (hq : w'.publisher? (δ.root s') = some q) :
    (Thread.view (δ.root s') q ⟨f, upper ++ t.stack⟩).Knows F'.id (δ.react s' F') := by
  have hroot : w'.publisher? (δ.root s') = w.publisher? (δ.root s') :=
    hd.beside.publishers _ (h.root (h.wired.sided hF')).2
  refine (hnumbered hF' (hroot.symm.trans hq)).same rfl fun c hc => ?_
  rw [View.calls, Thread.view, Thread.due_idle (δ.root s') f t.focus hupper t.stack] at hc
  exact hc

/-- Once a reaction has been called, it leads to a state in between two reactions. -/
theorem Following.react [LawfulBEq V] {t₁' : Thread V P σ ε} {st : List (Frame V P σ ε)}
    (h : Following δ T S feeds held vals w t)
    (hreg : ∀ p q, w.publisher? p = some q → Regular p q w t)
    (hm : Thread.Moves body w t es w' (t₁'.over st)) (hcalm : t₁'.Calm)
    (hlinked : Linked δ T S feeds held vals w' (t₁'.over st))
    (hcalls : Thread.Calls (δ.Reacts feeds) t (t₁'.over st)) :
    ∃ es' w'' t₁'' vals', CalmRun body w' t₁' es' w'' t₁'' ∧
      Following δ T S feeds held vals' w'' (t₁''.over st) ∧
      δ.Echoes feeds vals (es ++ es') vals' := by
  have hattentive := fun {s F} (hF : feeds s = some F) => h.attentive_move hreg hm hcalm hF
  obtain ⟨u, q, c, calls, st', rfl, ⟨s, F, hF, rfl, hreact⟩, hf⟩ := hcalls
  have hnumbered : ∀ {s F q}, feeds s = some F → w'.publisher? (δ.root s) = some q →
      ((t₁'.over st).view (δ.root s) q).Knows F.id (δ.react s F) := fun hF hq =>
    h.numbered_move hm hF hq
  obtain ⟨rfl, hes⟩ := hm.of_called
  have hid : c.id = F.id := h.id_of_react hF hreact
  rw [hreact] at hf
  obtain ⟨f₁, stk⟩ := t₁'
  obtain rfl : f₁ = .run (δ.react s F c.value) := hf
  obtain ⟨es', w'', vals', f, upper, hrun, hidle, hupper, hdealt, htells⟩ :=
    hlinked.react_run body hF c.value stk
  have hover : (Thread.over ⟨f, upper ++ stk⟩ st : Thread V P σ ε) = ⟨f, upper ++ (stk ++ st)⟩ := by
    rw [Thread.over, List.append_assoc]
  have hval : vals' s = δ.view s c.value :=
    hdealt.kept.through_eq.symm.trans (congrFun (h.wired.view hF) _)
  refine ⟨es', w'', ⟨f, upper ++ stk⟩, vals', hrun, ?_,
    hes ▸ .of_called h.wired hF hid hdealt.others hval htells⟩
  rw [hover]
  refine ⟨hlinked.dealt hF hdealt hupper, hidle.within,
    hlinked.attentive_dealt hF hdealt hupper ?_ ?_,
    hlinked.numbered_dealt hdealt hupper hnumbered⟩
  · intro s' F' hF' hne
    refine (hattentive hF').resolve_right ?_
    rintro ⟨q, -, hf'⟩
    exact Recipe.react_ne h.wired hF hF' hne.symm _ _ (Focus.run.inj hf')
  · exact fun q hq hch => (hreg _ q hq).latest hch

/-- A move leads to a state in between two reactions, at once or after the reaction that it
calls. The frames at the bottom of the stack may be left out. -/
theorem Following.move [LawfulBEq V] {t₁ t₁' : Thread V P σ ε} {st : List (Frame V P σ ε)}
    (h : Following δ T S feeds held vals w (t₁.over st))
    (hbodies : ∀ c, (body c).Within (δ.terms T) S)
    (hreg : ∀ p q, w.publisher? p = some q → Regular p q w (t₁.over st))
    (hm : Thread.Moves body w t₁ es w' t₁') (hcalm : t₁'.Calm) :
    ∃ es' w'' t₁'' vals', CalmRun body w' t₁' es' w'' t₁'' ∧
      Following δ T S feeds held vals' w'' (t₁''.over st) ∧
      δ.Echoes feeds vals (es ++ es') vals' := by
  have hover := hm.over st
  have hgoes : Linked δ T S feeds held vals w' (t₁'.over st) →
      t₁'.focus.Within (δ.terms T) (w'.scope (δ.hidden feeds)) →
      (∀ v, .committed v ∉ signals δ.value es) →
      ∃ es' w'' t₁'' vals', CalmRun body w' t₁' es' w'' t₁'' ∧
        Following δ T S feeds held vals' w'' (t₁''.over st) ∧
        δ.Echoes feeds vals (es ++ es') vals' := fun hlinked hfocus hsilent =>
    ⟨[], w', t₁', vals, .refl, h.goes_on hreg hover hcalm hlinked hfocus,
      (List.append_nil es).symm ▸ .quiet (h.unheard hover hfocus) (commits_eq_nil hsilent)⟩
  by_cases hplain : ∀ c K, t₁.focus = .run c → ¬ δ.Disposes c K
  · obtain ⟨hlinked, hfocus | hcalls⟩ := h.toLinked.move hbodies h.focus hplain hover hcalm
    · exact hgoes hlinked hfocus (h.not_writes h.focus hplain hover)
    · exact h.react hreg hover hcalm hlinked hcalls
  · -- the derived value is disposed
    obtain ⟨c, K, hc, hK⟩ : ∃ c K, t₁.focus = .run c ∧ δ.Disposes c K := by
      by_contra hno
      exact hplain fun c K hc hK => hno ⟨c, K, hc, hK⟩
    obtain ⟨f, stk⟩ := t₁
    obtain rfl : f = .run c := hc
    rcases Linked.disposes_or h.focus with ⟨k, rfl, hk⟩ | hno
    · obtain ⟨hlinked, hfocus⟩ := Linked.empty h.toLinked hk hover hcalm
      refine hgoes hlinked hfocus fun v => ?_
      cases hm with
      | performed ha =>
          rw [signals_perform _ ha]
          exact List.not_mem_nil
    · exact absurd hK (hno K)

end Moving

end ReactiveCells
