import ReactiveCells.Proofs.Echoing
import ReactiveCells.Proofs.Recording

/-!
# Agreeing — derived values and views emit the same

A derived value computes the images of a source at once and has a publisher, a queue and a check
for changes of its own. A view converts for every observer anew and keeps what it passed on last.
Whoever follows the one or the other is told the same: the images of what the source delivers,
without those equal to the one before.

For the view that is what its gate does. The derived value is told of all that comes through from
its source, drops an image that it holds (`Following.images`), and queues the others for its own
observers, which get all of them (`Recorder.Attached.streams`). To attach a recorder leaves
everybody else alone (`Following.attaches_two`), so it does not matter which of two comes first.

Main statement: `derived_and_view_agree`.
-/

namespace ReactiveCells

variable {V P σ ε : Type}

/-! ## Clients that look at records -/

/-- The terms on which a derived value is used and shared lists are looked at. -/
abbrev Derived.watched (d : Derived) (T : Terms V P σ ε) (ms : List MemoRef) : Terms V P σ ε :=
  T.allowing fun c K => d.Disposes c K ∨ ∃ m ∈ ms, Looking m c K

section Watched

variable {d : Derived} {T : Terms V P σ ε} {S S' : Scope} {ms : List MemoRef} {c : Prog V P σ ε}

theorem Prog.Within.watch (h : c.Within (d.terms T) S) (ms : List MemoRef) :
    c.Within (d.watched T ms) S :=
  h.recast subset_rfl fun _ _ _ hc _ hK => .special (Or.inl hc) hK

/-- What is not special any more has to be in scope. -/
theorem Prog.Within.unwatch {special : Prog V P σ ε → Set (Prog V P σ ε) → Prop}
    (h : c.Within (d.watched T ms) S) (hS : S ⊆ S')
    (hd : (∀ c K, d.Disposes c K → special c K) ∨ .bag d.sources ∈ S')
    (hms : ∀ m ∈ ms, (∀ c K, Looking m c K → special c K) ∨ .memo m ∈ S') :
    c.Within (T.allowing special) S' := by
  refine h.recast hS fun c K R hc hR hK => ?_
  rcases hc with hdisposes | ⟨m, hm, hlooking⟩
  · rcases hd with hd | hbag
    · exact .special (hd c K hdisposes) hK
    · exact hdisposes.within (hR hbag) hK
  · rcases hms m hm with hm | hmemo
    · exact .special (hm c K hlooking) hK
    · exact hlooking.within (hR hmemo) hK

end Watched

/-- Whether a recorder gets, from a world on in which nothing is being delivered, what a tower
delivers that shows `g` of a publisher and `x` at first: whatever is run without a panic, whenever
a call of a client has come back and the recorder was not detached. -/
def Recorder.Streams [BEq V] (r : Recorder) (body : P → Prog V P σ ε) (T : Terms V P σ ε)
    (S : Scope) (p : PublisherRef) (g : V → V) (x : V) (w : World V P σ ε) : Prop :=
  ∀ (starts : Prog V P σ ε → Prop) c es w' u, c.Within T S → (∀ c, starts c → c.Within T S) →
    Run body starts Thread.Calm w (.start c) es w' ⟨.run (.ret u), []⟩ →
    w'.subscriptions.get? r.subscription.index ≠ some none →
    w'.memos.get? r.recorded.index = some (delivered p g x es)

section Agreeing

variable [BEq V] [LawfulBEq V] {body : P → Prog V P σ ε} {starts : Prog V P σ ε → Prop}
  {T : Terms V P σ ε} {S S' : Scope} {w w' : World V P σ ε} {es : List (Event V ε)} {u u' : V}
  {d : Derived} {ms : List MemoRef} {c : Prog V P σ ε}

/-- A recorder gets what its tower delivers, if clients use nothing but what the derived value and
the recorder allow. -/
theorem Recorder.Attached.streams {r : Recorder} {l : Listener V P σ ε} {v : V}
    (h : r.Attached l T S' w ⟨.run (.ret u), []⟩ [v]) (hcalm : Calmly body w ⟨.run (.ret u), []⟩)
    (hv : ∃ s, w.publisher? l.root = some s ∧ s.current = v)
    (hbodies : ∀ c, (body c).Within (d.watched T ms) S) (hS : S ⊆ w.scope l.hidden)
    (hbag : .bag d.sources ∈ w.scope l.hidden)
    (hms : ∀ m ∈ ms, m = r.recorded ∨ .memo m ∈ w.scope l.hidden) :
    r.Streams body (d.watched T ms) S l.root l.shows (l.shows v) w := by
  obtain ⟨s, hs, rfl⟩ := hv
  intro starts c es w' u' hc hstarts hrun hkept
  have hin : ∀ c : Prog V P σ ε, c.Within (d.watched T ms) S →
      c.Within (l.terms T) (w.scope l.hidden) := by
    intro c hc
    refine hc.unwatch hS (Or.inr hbag) fun m hm => ?_
    refine (hms m hm).imp_left fun he c K hlooking => ?_
    rw [h.record, ← he]
    exact hlooking
  exact (h.widen.next rfl (hin c hc)).stream (hcalm.start rfl c) (Thread.settled_start _ _) hs
    (fun c => hin _ (hbodies c)) (fun c hc => hin c (hstarts c hc)) hrun rfl hkept

/-! ## What a derived value emits -/

section Images

variable {δ : Recipe V} {feeds : Side → Option (Feed V)} {held : Side → Option SubscriptionRef}
  {vals : Side → V} {f : V → V} {s q : Publisher V (Observer V P σ ε)}

/-- From one moment in which nothing is being delivered to another one, a derived value that follows
one source emits the images of what that delivers. -/
theorem Following.images (h : Following δ T S feeds held vals w ⟨.run (.ret u), []⟩)
    (hrule : δ.rule = .image f) (hcalm : Calmly body w ⟨.run (.ret u), []⟩)
    (hbodies : ∀ c, (body c).Within (δ.terms T) S) (hc : c.Within (δ.terms T) S)
    (hstarts : ∀ c, starts c → c.Within (δ.terms T) S)
    (hrun : Run body starts Thread.Calm w (.start c) es w' ⟨.run (.ret u'), []⟩)
    (hlive : δ.Live 1 w') (hs : w.publisher? δ.value = some s)
    (hq : w.publisher? (δ.root .left) = some q) :
    s.current :: commits (signals δ.value es) = unrepeated
      ((delivered (δ.root .left) (δ.view .left) (δ.view .left q.current) es).map f) := by
  have hcalm' := hcalm.start (o := .returned u) rfl c
  obtain ⟨vals', h', hechoed⟩ := (h.next hc).run hcalm' trivial hbodies hstarts hrun
  -- it is subscribed to its source all the time
  have hleft : Side.left ∈ δ.rule.sides := by
    rw [hrule]
    exact List.mem_singleton_self _
  have hlive' : δ.Live δ.rule.sides.length w' := by
    rw [hrule]
    exact hlive
  obtain ⟨F, x, hF, hx, hkept⟩ := h'.held_of_live hlive' hleft
  have hnone : feeds .right = none := by
    refine Option.eq_none_iff_forall_ne_some.2 fun F' hF' => ?_
    have hright := h.wired.sided hF'
    rw [hrule] at hright
    exact nomatch List.mem_singleton.1 hright
  have henrolled : Enrolled (δ.root .left) F.id (δ.react .left F) (some x) w (.start c) :=
    hx ▸ ((h.next hc).fed hF).toEnrolled
  have hreceived := henrolled.received_eq hcalm' (Thread.settled_start _ _) hrun ⟨nofun, rfl⟩ hkept
  -- so it knows what its source holds at first, and is told of what that commits
  obtain ⟨q', hq', hval⟩ := h.knows_of_held hcalm hx fun hno => hkept (hrun.disposed hno)
  obtain rfl := Option.some.inj (hq.symm.trans hq')
  obtain ⟨s', hs', hcur⟩ := h.value
  obtain rfl := Option.some.inj (hs.symm.trans hs')
  have htold := hechoed.told
  rw [← hcur, Recipe.heard_image hF hnone, hreceived, Recipe.results_image hrule, hval] at htold
  rw [htold, delivered, unrepeated_map_unrepeated]

end Images

/-! ## Attaching recorders -/

section Attaching

variable {δ : Recipe V} {feeds : Side → Option (Feed V)} {held : Side → Option SubscriptionRef}
  {vals : Side → V} {m m₁ m₂ : Node (Routine V P σ ε) .reactive} {q q₁ q₂ : PublisherRef}
  {j j₁ j₂ : V → V} {s s₁ s₂ : Publisher V (Observer V P σ ε)}

/-- A recorder that is attached leaves a derived value as it is. -/
theorem Following.attaches (h : Following δ T S feeds held vals w ⟨.run (.ret u), []⟩)
    (hcalm : Calmly body w ⟨.run (.ret u), []⟩) (hbodies : ∀ c, (body c).Within (δ.terms T) S)
    (hm : m.Shows q j) (hq : .read q ∈ S) (hs : w.publisher? q = some s) :
    ∃ (r : Recorder) (l : Listener V P σ ε) (es : List (Event V ε)) (w' : World V P σ ε)
      (vals' : Side → V),
      (∀ k, CalmRun body w (.start (Recorder.attach m.subscribe k)) es w' (.start (k r))) ∧
      (l.root = q ∧ l.shows = j) ∧ r.Joined l T s.current u w es w' ∧
      Following δ T S feeds held vals' w' ⟨.run (.ret u), []⟩ := by
  obtain ⟨r, l, es, w', hrun, hl, hjoined⟩ :=
    hm.attaches hcalm hs h.exposed fun c => h.plain (hbodies c)
  have hwithin : (Recorder.attach m.subscribe fun _ => .ret u).Within (δ.terms T) S :=
    Recorder.attach_within hm hq fun _ => .ret u
  obtain ⟨vals', h', -⟩ := (h.next hwithin).run (hcalm.start rfl _) trivial hbodies
    (fun _ hno => hno.elim) (hrun fun _ => .ret u)
  exact ⟨r, l, es, w', vals', hrun, hl, hjoined, h'⟩

/-- A recorder that is attached elsewhere leaves another one as it is, which does not know of it. -/
theorem Recorder.Joined.spares {r₁ r₂ : Recorder} {l₁ l₂ : Listener V P σ ε} {v : V}
    {past : List V} (h : r₂.Joined l₂ T v u w es w') (hm : m.Shows l₂.root j)
    (hrun : CalmRun body w (.start (Recorder.attach m.subscribe fun _ => .ret u)) es w'
      ⟨.run (.ret u), []⟩)
    (h₁ : r₁.Attached l₁ T S w ⟨.run (.ret u), []⟩ past) (hne : l₁.root ≠ l₂.root)
    (hbodies : ∀ c, (body c).Within (l₁.terms T) S) (hread : .read l₂.root ∈ S) :
    r₁.Attached l₁ T S w' ⟨.run (.ret u), []⟩ past ∧ .memo r₂.recorded ∈ w'.scope l₁.hidden := by
  have hwithin : (Recorder.attach m.subscribe fun _ => .ret u).Within (l₁.terms T) S :=
    Recorder.attach_within hm hread fun _ => .ret u
  have hafter := (h₁.next rfl hwithin).run hbodies (fun _ hno => hno.elim) hrun
  rw [h.alone l₁.root hne] at hafter
  exact ⟨(List.append_nil past) ▸ hafter, h.attached.made _ h.attached.recorded_mem,
    h.not_mem_hidden h₁.made⟩

/-- Two recorders that are attached to towers on different publishers one after the other get what
these deliver from then on, and a derived value is as before. -/
theorem Following.attaches_two (h : Following δ T S feeds held vals w ⟨.run (.ret u), []⟩)
    (hcalm : Calmly body w ⟨.run (.ret u), []⟩) (hbodies : ∀ c, (body c).Within (δ.terms T) S)
    (hm₁ : m₁.Shows q₁ j₁) (hm₂ : m₂.Shows q₂ j₂) (hne : q₁ ≠ q₂) (hq₁ : .read q₁ ∈ S)
    (hq₂ : .read q₂ ∈ S) (hs₁ : w.publisher? q₁ = some s₁) (hs₂ : w.publisher? q₂ = some s₂) :
    ∃ (r₁ r₂ : Recorder) (es : List (Event V ε)) (w' : World V P σ ε) (vals' : Side → V),
      (∀ k : Recorder → Recorder → Prog V P σ ε,
        CalmRun body w (.start (Recorder.attach m₁.subscribe fun r₁ =>
          Recorder.attach m₂.subscribe (k r₁))) es w' (.start (k r₁ r₂))) ∧
      (∀ q s, w.publisher? q = some s →
        ∃ s', w'.publisher? q = some s' ∧ s'.current = s.current) ∧
      Following δ T S feeds held vals' w' ⟨.run (.ret u), []⟩ ∧
      (∀ m ∈ [r₁.recorded, r₂.recorded], .memo m ∈ w'.scope (δ.hidden feeds)) ∧
      r₁.Streams body (δ.watched T [r₁.recorded, r₂.recorded]) S q₁ j₁ (j₁ s₁.current) w' ∧
      r₂.Streams body (δ.watched T [r₁.recorded, r₂.recorded]) S q₂ j₂ (j₂ s₂.current) w' := by
  obtain ⟨r₁, l₁, es₁, w₁, vals₁, hrun₁, ⟨rfl, rfl⟩, hjoined₁, h₁⟩ :=
    h.attaches hcalm hbodies hm₁ hq₁ hs₁
  have hcalm₁ : Calmly body w₁ ⟨.run (.ret u), []⟩ :=
    (hcalm.start rfl _).run (hrun₁ fun _ => .ret u)
  obtain ⟨s₂', hs₂', hcur₂⟩ := (hrun₁ fun _ => .ret u).current_eq hs₂ (hjoined₁.quiet _)
  obtain ⟨r₂, l₂, es₂, w₂, vals₂, hrun₂, ⟨rfl, rfl⟩, hjoined₂, h₂⟩ :=
    h₁.attaches hcalm₁ hbodies hm₂ hq₂ hs₂'
  have hcalm₂ : Calmly body w₂ ⟨.run (.ret u), []⟩ :=
    (hcalm₁.start rfl _).run (hrun₂ fun _ => .ret u)
  rw [hcur₂] at hjoined₂
  have hrun : ∀ k : Recorder → Recorder → Prog V P σ ε,
      CalmRun body w (.start (Recorder.attach m₁.subscribe fun r₁ =>
        Recorder.attach m₂.subscribe (k r₁))) (es₁ ++ es₂) w₂ (.start (k r₁ r₂)) := fun k =>
    (hrun₁ _).trans (hrun₂ _)
  have hheld : ∀ q s, w.publisher? q = some s →
      ∃ s', w₂.publisher? q = some s' ∧ s'.current = s.current := by
    intro q s hs
    refine (hrun fun _ _ => .ret u).current_eq hs ?_
    rw [signals_append, commits_append, hjoined₁.quiet, hjoined₂.quiet]
    rfl
  -- the first recorder is not called again, and does not know of the second one
  obtain ⟨hspared, hunknown⟩ := hjoined₂.spares hm₂ (hrun₂ fun _ => .ret u) hjoined₁.attached hne
    (fun c => (h.plain (hbodies c)).allow _) (h.scope_subset hq₂)
  have hwatch : ∀ c, (body c).Within (δ.watched T [r₁.recorded, r₂.recorded]) S := fun c =>
    (hbodies c).watch _
  refine ⟨r₁, r₂, es₁ ++ es₂, w₂, vals₂, hrun, hheld, h₂, fun m hm => ?_, ?_, ?_⟩
  · rcases List.mem_pair.1 hm with rfl | rfl
    · exact ⟨hspared.made _ hspared.recorded_mem, hjoined₁.not_mem_hidden h.world.made⟩
    · exact ⟨hunknown.1, hjoined₂.not_mem_hidden h₁.world.made⟩
  · refine hspared.streams hcalm₂ (hheld _ _ hs₁) hwatch (h.scope_subset.trans hspared.base)
      (hspared.base (h.hidden_subset .bag)) fun m hm => ?_
    rcases List.mem_pair.1 hm with rfl | rfl
    · exact Or.inl rfl
    · exact Or.inr hunknown
  · have hbase := hjoined₂.attached.base
    have hknown : .memo r₁.recorded ∈ w₁.scope ∅ :=
      ⟨hjoined₁.attached.made _ hjoined₁.attached.recorded_mem, Set.notMem_empty _⟩
    refine hjoined₂.attached.streams hcalm₂ (hheld _ _ hs₂) hwatch (h₁.scope_subset.trans hbase)
      (hbase (h₁.hidden_subset .bag)) fun m hm => ?_
    rcases List.mem_pair.1 hm with rfl | rfl
    · exact Or.inr (hbase hknown)
    · exact Or.inl rfl

end Attaching

/-! ## Derived values and views -/

section Agree

variable {δ : Recipe V} {feeds : Side → Option (Feed V)} {held : Side → Option SubscriptionRef}
  {vals : Side → V} {f g : V → V} {rd rv : Recorder} {rs : List Recorder} {x y : V}

/-- A recorder of a derived value with one source and one of the view that shows the images of that
source have the same, if they started at the same time. -/
theorem Following.agree (h : Following δ T S feeds held vals w ⟨.run (.ret u), []⟩)
    (hrule : δ.rule = .image f) (hcalm : Calmly body w ⟨.run (.ret u), []⟩)
    (hbodies : ∀ c, (body c).Within (δ.terms T) S)
    (hs : ∃ s, w.publisher? δ.value = some s ∧ s.current = y)
    (hq : ∃ q, w.publisher? (δ.root .left) = some q ∧ q.current = x)
    (hms : ∀ m ∈ ms, .memo m ∈ w.scope (δ.hidden feeds))
    (hrd : rd.Streams body (δ.watched T ms) S δ.value id y w)
    (hrv : rv.Streams body (δ.watched T ms) S (δ.root .left) (f ∘ δ.view .left)
      (f (δ.view .left x)) w)
    (hc : c.Within (δ.watched T ms) S) (hstarts : ∀ c, starts c → c.Within (δ.watched T ms) S)
    (hrun : Run body starts Thread.Calm w (.start c) es w' ⟨.run (.ret u'), []⟩)
    (hlive : δ.Live 1 w') (hrs : rs.Perm [rd, rv])
    (hkept : ∀ r ∈ rs, w'.subscriptions.get? r.subscription.index ≠ some none) :
    ∀ r ∈ rs, w'.memos.get? r.recorded.index = some (unrepeated
      ((delivered (δ.root .left) (δ.view .left) (δ.view .left x) es).map f)) := by
  obtain ⟨s, hs, rfl⟩ := hs
  obtain ⟨q, hq, rfl⟩ := hq
  have hin : ∀ c : Prog V P σ ε, c.Within (δ.watched T ms) S →
      c.Within (δ.terms T) (w.scope (δ.hidden feeds)) := fun c hc =>
    hc.unwatch h.base (Or.inl fun _ _ hdisposes => hdisposes) fun m hm => Or.inr (hms m hm)
  have himages := h.widen.images hrule hcalm (fun c => (hbodies c).mono h.base) (hin c hc)
    (fun c hc => hin c (hstarts c hc)) hrun hlive hs hq
  intro r hr
  have hkept := hkept r hr
  rcases List.mem_pair.1 (hrs.mem_iff.1 hr) with rfl | rfl
  · -- no image is told twice in a row
    rw [hrd starts c es w' u' hc hstarts hrun hkept, delivered, List.map_id, himages]
    exact congrArg some (List.destutter_idem _ _)
  · rw [hrv starts c es w' u' hc hstarts hrun hkept, delivered, delivered,
      unrepeated_map_unrepeated, List.map_cons, List.map_map]

/-- Derived values and views emit the same: if one recorder is attached to a derived value and one
to the view that shows the same images of the same source, in either order and while nothing is
being delivered, then whatever is run without a panic, whenever a call of a client has come back and
neither recorder was detached nor the derived value disposed, both have the images of what the
source has delivered, without those equal to the one before. -/
theorem derived_and_view_agree {w₀ : World V P σ ε} {st : List (Frame V P σ ε)}
    {k : Derived → Prog V P σ ε} {n : Node (Routine V P σ ε) .reactive} {p : PublisherRef}
    {backward : Routine V P σ ε} {es₀ : List (Event V ε)}
    {subscribe₁ subscribe₂ :
      List PublisherRef → (V → Act V P σ ε Unit) → Act V P σ ε SubscriptionRef}
    (h : w₀.Unforged body T st k)
    (hstarts : ∀ c, starts c → c.Within (w₀.derives.terms T) (w₀.handed w₀.derives))
    (hn : n.Shows p g) (hp : ∃ r, w₀.publisher? p = some r)
    (hcalm : Calmly body w₀ ⟨.run (Derived.follow n (Node.pureRoutine f) k), st⟩)
    (hrun : Run body starts Thread.Calm w₀ ⟨.run (Derived.follow n (Node.pureRoutine f) k), st⟩ es₀
      w ⟨.run (.ret u), []⟩)
    (hboth : [subscribe₁, subscribe₂].Perm
      [w₀.derives.subscribe, (n.view ⟨Node.pureRoutine f, backward⟩).subscribe]) :
    ∃ r₁ r₂ es₁ w₁ x, n.get.Reads body w x ∧
      (∀ next : Recorder → Recorder → Prog V P σ ε,
        CalmRun body w (.start (Recorder.attach subscribe₁ fun r₁ =>
          Recorder.attach subscribe₂ (next r₁))) es₁ w₁ (.start (next r₁ r₂))) ∧
      ∀ (later : Prog V P σ ε → Prop) c es w' u',
        c.Within (w₀.derives.watched T [r₁.recorded, r₂.recorded]) (w₀.handed w₀.derives) →
        (∀ c, later c →
          c.Within (w₀.derives.watched T [r₁.recorded, r₂.recorded]) (w₀.handed w₀.derives)) →
        Run body later Thread.Calm w₁ (.start c) es w' ⟨.run (.ret u'), []⟩ →
        w₀.derives.Live 1 w' →
        (∀ r ∈ [r₁, r₂], w'.subscriptions.get? r.subscription.index ≠ some none) →
        ∀ r ∈ [r₁, r₂], w'.memos.get? r.recorded.index =
          some (unrepeated ((delivered p g x es).map f)) := by
  have hbodies : ∀ c, (body c).Within (w₀.derives.terms T) (w₀.handed w₀.derives) := fun c =>
    (h.bodies c).mono Set.subset_union_left
  obtain ⟨hsettling, hcalm'⟩ := Settling.run (h.follow hn hp f hcalm) trivial hbodies hstarts hrun
  obtain ⟨feeds, held, vals, h'⟩ := hsettling.follows
  obtain ⟨⟨q, hq⟩, hne⟩ := h'.root (s := .left) (List.mem_singleton_self _)
  obtain ⟨s, hs, -⟩ := h'.value
  have hreads : .read p ∈ w₀.handed w₀.derives := by
    obtain ⟨r, hr⟩ := hp
    exact Or.inl ⟨(List.getElem?_eq_some_iff.1 hr).1, Set.notMem_empty _⟩
  have hreads' : .read w₀.derives.value ∈ w₀.handed w₀.derives := Or.inr rfl
  have hderived : (Node.rx w₀.derives.value : Node (Routine V P σ ε) .reactive).Shows
      w₀.derives.value id := .rx
  have hview := Node.Shows.view f backward hn
  rcases List.mem_pair.1 (hboth.mem_iff.1 List.mem_cons_self) with rfl | rfl
  · obtain rfl := List.singleton_perm_singleton.1 hboth.cons_inv
    obtain ⟨r₁, r₂, es₁, w₁, vals₁, hattach, hheld, h₁, hms, hrd, hrv⟩ :=
      h'.attaches_two hcalm' hbodies hderived hview hne.symm hreads' hreads hs hq
    have hcalm₁ := (hcalm'.start rfl _).run (hattach fun _ _ => .ret u)
    refine ⟨r₁, r₂, es₁, w₁, g q.current, hn.reads hq, hattach, ?_⟩
    intro later c es w' u' hc hlater hrun' hlive hkept
    exact h₁.agree rfl hcalm₁ hbodies (hheld _ _ hs) (hheld _ _ hq) hms hrd hrv hc hlater
      hrun' hlive (.refl _) hkept
  · obtain rfl := List.singleton_perm_singleton.1 (hboth.trans (.swap _ _ _)).cons_inv
    obtain ⟨r₁, r₂, es₁, w₁, vals₁, hattach, hheld, h₁, hms, hrv, hrd⟩ :=
      h'.attaches_two hcalm' hbodies hview hderived hne hreads hreads' hq hs
    have hcalm₁ := (hcalm'.start rfl _).run (hattach fun _ _ => .ret u)
    refine ⟨r₁, r₂, es₁, w₁, g q.current, hn.reads hq, hattach, ?_⟩
    intro later c es w' u' hc hlater hrun' hlive hkept
    exact h₁.agree rfl hcalm₁ hbodies (hheld _ _ hs) (hheld _ _ hq) hms hrd hrv hc hlater
      hrun' hlive (.swap _ _ _) hkept

end Agree

end Agreeing

/-! ## A view of the doubled box -/

/-- The quarter of the doubled box. -/
def quarters : Prog Nat Empty Unit Unit :=
  Derived.follow doubled (Node.pureRoutine (· / 4)) stirring

/-- The doubled box, shown as its quarter. -/
def quartered : Node (Routine Nat Empty Unit Unit) .reactive :=
  doubled.view ⟨Node.pureRoutine (· / 4), Node.pureRoutine (· * 4)⟩

/-- A client that writes 3 to the box, which becomes 4, and then 5. -/
def stirringAgain : Prog Nat Empty Unit Unit :=
  .publish ⟨0⟩ 3 (.publish ⟨0⟩ 5 (.ret 0))

/-- The box with two observers, and the quarter that is derived from it. -/
def quarteredWorld : World Nat Empty Unit Unit :=
  let δ : Recipe Nat := ⟨⟨⟨1⟩, ⟨0⟩⟩, .image (· / 4), fun _ => ⟨0⟩, fun _ => (2 * ·)⟩
  { (World.new () : World Nat Empty Unit Unit) with
    publishers := ⟨[⟨none, 4, 4, [⟨0, nudging, []⟩,
      ⟨1, δ.react .left ⟨[⟨⟨0⟩, (2 * ·)⟩], 1⟩, [⟨1⟩]⟩], [], false, 2⟩, .new none 2]⟩
    memos := ⟨[[8]]⟩
    bags := ⟨[[⟨1⟩]]⟩
    subscriptions := ⟨[some (.detach ⟨0⟩ 0), some (.detach ⟨0⟩ 1)]⟩ }

/-- The doubled box is 8 when recorders are attached, then 6, 8 and 10. Both recorders have 2, 1 and
2, and nothing for the 10. -/
theorem derived_and_view_agree_quarters :
    ∃ (w₀ w₁ w' : World Nat Empty Unit Unit) (es₀ es₁ es : List (Event Nat Unit))
      (r₁ r₂ : Recorder),
      w₀.Unforged nofun .storeless [] stirring ∧ Calmly nofun w₀ (.start quarters) ∧
      CalmRun nofun w₀ (.start quarters) es₀ quarteredWorld ⟨.run (.ret 0), []⟩ ∧
      (∀ next : Recorder → Recorder → Prog Nat Empty Unit Unit,
        CalmRun nofun quarteredWorld (.start (Recorder.attach w₀.derives.subscribe fun r₁ =>
          Recorder.attach quartered.subscribe (next r₁))) es₁ w₁ (.start (next r₁ r₂))) ∧
      CalmRun nofun w₁ (.start stirringAgain) es w' ⟨.run (.ret 0), []⟩ ∧
      w₀.derives.Live 1 w' ∧
      (∀ r ∈ [r₁, r₂], w'.subscriptions.get? r.subscription.index ≠ some none) ∧
      ∀ r ∈ [r₁, r₂], w'.memos.get? r.recorded.index = some [2, 1, 2] := by
  obtain ⟨w₀, esₙ, es₀, w₁, es₁, w', es, hmade, hpubs, hsubs, hfollow, hattach, hstir, hbag,
      hsubs', hcommits⟩ :
      ∃ (w₀ : World Nat Empty Unit Unit) (esₙ es₀ : List (Event Nat Unit))
        (w₁ : World Nat Empty Unit Unit) (es₁ : List (Event Nat Unit))
        (w' : World Nat Empty Unit Unit) (es : List (Event Nat Unit)),
      Thread.advance nofun 8 (World.new ()) (.start (nudged quarters)) =
        some (w₀, .start quarters, esₙ) ∧
      w₀.publishers = ⟨[nudgedBox]⟩ ∧ w₀.subscriptions = ⟨[some (.detach ⟨0⟩ 0)]⟩ ∧
      Thread.advance nofun 44 w₀ (.start quarters) =
        some (quarteredWorld, ⟨.run (.ret 0), []⟩, es₀) ∧
      Thread.advance nofun 22 quarteredWorld (.start (Recorder.attach w₀.derives.subscribe fun _ =>
        Recorder.attach quartered.subscribe fun _ => .ret 0)) =
        some (w₁, ⟨.run (.ret 0), []⟩, es₁) ∧
      Thread.advance nofun 61 w₁ (.start stirringAgain) = some (w', ⟨.run (.ret 0), []⟩, es) ∧
      w'.bags.get? w₀.derives.sources.index = some [⟨1⟩] ∧
      w'.subscriptions = ⟨[some (.detach ⟨0⟩ 0), some (.detach ⟨0⟩ 1), some (.detach ⟨1⟩ 0),
        some (.detach ⟨0⟩ 2)]⟩ ∧
      commits (signals ⟨0⟩ es) = [3, 4, 5] :=
    ⟨_, _, _, _, _, _, _, rfl, rfl, rfl, rfl, rfl, rfl, rfl, rfl, rfl⟩
  have hbox : w₀.publisher? ⟨0⟩ = some nudgedBox := congrArg (Heap.get? · 0) hpubs
  have hforged := nudgedBox_unforged hpubs hsubs
  have hdoubled : doubled.Shows ⟨0⟩ ((2 * ·) ∘ id) := .view _ _ .rx
  have hcalm : Calmly nofun w₀ (.start quarters) := ⟨(), _, esₙ, .of_advance hmade⟩
  have hrun : CalmRun nofun w₀ (.start quarters) es₀ quarteredWorld ⟨.run (.ret 0), []⟩ :=
    .of_advance hfollow
  have hrun' : CalmRun nofun w₁ (.start stirringAgain) es w' ⟨.run (.ret 0), []⟩ :=
    .of_advance hstir
  have hboth : [w₀.derives.subscribe, quartered.subscribe].Perm [w₀.derives.subscribe,
      (doubled.view ⟨Node.pureRoutine (· / 4), Node.pureRoutine (· * 4)⟩).subscribe] := .refl _
  obtain ⟨r₁, r₂, es₁', w₁', x, hreads, hattached, hagree⟩ :=
    derived_and_view_agree hforged (fun _ h => (h : False).elim) hdoubled ⟨_, hbox⟩ hcalm hrun hboth
  -- the source shows 8, and the recorders are attached as computed
  obtain ⟨-, -, hx⟩ := Run.unique (.of_advance (n := 1) rfl) rfl (hreads .ret []) rfl trivial
  obtain rfl : x = 8 := Prog.ret.inj (Focus.run.inj (congrArg Thread.focus hx))
  obtain ⟨rfl, rfl, -⟩ :=
    Run.unique (.of_advance hattach) rfl (hattached fun _ _ => .ret 0) rfl trivial
  have hkept : ∀ i, w'.subscriptions.get? i ≠ some none := by
    intro i hi
    rw [hsubs'] at hi
    simpa using List.mem_of_getElem? hi
  have hlive : w₀.derives.Live 1 w' := ⟨_, hbag, rfl, fun x _ => hkept x.index⟩
  have hwrite : .publish ⟨0⟩ ∈ w₀.handed w₀.derives :=
    Or.inl ⟨(List.getElem?_eq_some_iff.1 hbox).1, Set.notMem_empty _⟩
  have hrecords := hagree (fun _ => False) stirringAgain es w' 0
    (.publish hwrite (.publish hwrite (.ret 0))) (fun _ h => (h : False).elim) hrun' hlive
    fun r _ => hkept r.subscription.index
  rw [delivered, hcommits] at hrecords
  exact ⟨w₀, w₁', w', es₀, es₁', es, r₁, r₂, hforged, hcalm, hrun, hattached, hrun', hlive,
    fun r _ => hkept r.subscription.index, hrecords⟩

end ReactiveCells
