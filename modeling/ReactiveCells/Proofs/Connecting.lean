import ReactiveCells.Proofs.Following

/-!
# Connecting — how a derived value gets its sources

When a derived value is made it is computed from what its sources show at that moment, and then
subscribed to them one after the other. A subscription replays what its source delivered last, which
runs the reaction for the first time, and has to wait for its turn if the source is being drained;
anybody may write the sources meanwhile. None of that matters: a side that is being subscribed is
followed from the moment in which its observer is queued.

Main statements: `Following.init` (a derived value that has just been computed), `Following.connect`
(a side whose observer has just been queued) and `Following.file` (a side whose subscription has
just been put into the bag).
-/

namespace ReactiveCells

variable {V P σ ε : Type}

namespace Recipe

/-- Puts a subscription into the bag before `next`. -/
def filing (δ : Recipe V) (next : Prog V P σ ε) (x : SubscriptionRef) : Prog V P σ ε :=
  .atom (.bag δ.sources (· ++ [x])) fun _ => next

/-- Subscribes to sources, one after the other, before `c`. -/
def connecting [BEq V] (δ : Recipe V) (c : Prog V P σ ε) :
    List (Side × Node (Routine V P σ ε) .reactive) → Prog V P σ ε
  | [] => c
  | (s, n) :: ns => n.subscribe [δ.value] (δ.sink s) (δ.filing (connecting δ c ns))

end Recipe

section Laying

variable {δ : Recipe V} {s : Side} {F : Feed V} {w w' : World V P σ ε} {gates : List (Gate V)}

/-! ## What is hidden with a new row of gates -/

theorem World.Laid.grows (h : World.Laid gates w w') : w.Grows w' := by
  refine ⟨?_, h.size, ?_⟩
  · rw [h.same]
  · rw [h.same]

/-- Laying gates leaves what is hidden alone. -/
theorem World.Laid.memo_eq (h : World.Laid gates w w') {m : MemoRef}
    (hm : m.index < w.memos.size) : w'.memos.get? m.index = w.memos.get? m.index := by
  have hget : w.memos.get? m.index = some _ := List.getElem?_eq_getElem hm
  rw [hget]
  exact h.kept _ _ hget

variable {feeds : Side → Option (Feed V)}

theorem Recipe.Hidden.of_update {u : Use}
    (h : δ.Hidden (Function.update feeds s (some F)) u) :
    δ.Hidden feeds u ∨ ∃ g ∈ F.gates, u = .memo g.last := by
  cases h with
  | publish => exact Or.inl .publish
  | amend => exact Or.inl .amend
  | bag => exact Or.inl .bag
  | note hm => exact Or.inl (.note hm)
  | @gate s' F' g hF' hg =>
      rcases Side.of_update hF' with ⟨-, rfl⟩ | ⟨-, hF'⟩
      · exact Or.inr ⟨g, hg, rfl⟩
      · exact Or.inl (.gate hF' hg)

theorem Recipe.Reacts.update [BEq V] {p : PublisherRef} {react : Routine V P σ ε}
    (h : δ.Reacts feeds p react) (hnew : feeds s = none) :
    δ.Reacts (Function.update feeds s (some F)) p react := by
  obtain ⟨s', F', hF', hp, hreact⟩ := h
  have hs : s' ≠ s := by
    rintro rfl
    exact nomatch hnew.symm.trans hF'
  exact ⟨s', F', (Function.update_of_ne hs _ _).trans hF', hp, hreact⟩

/-- Gates that nobody knew before go with those there are. -/
theorem Recipe.Wired.update {id : Nat} (h : δ.Wired feeds) (hs : s ∈ δ.rule.sides)
    (hmade : ∀ u, δ.Hidden feeds u → u.Made w) (hlaid : World.Laid gates w w')
    (hthrough : Gate.through gates = δ.view s)
    (hids : ∀ s' F', feeds s' = some F' → δ.root s' = δ.root s → F'.id ≠ id) :
    δ.Wired (Function.update feeds s (some ⟨gates, id⟩)) := by
  -- a gate that is there has a smaller number than the new ones
  have hold : ∀ {m : MemoRef} {g : Gate V}, δ.Hidden feeds (.memo m) → g ∈ gates →
      g.last ≠ m := by
    intro m g hm hg he
    have hlt : m.index < w.memos.size := hmade _ hm
    have hge := hlaid.fresh g hg
    rw [he] at hge
    exact Nat.lt_irrefl _ (Nat.lt_of_lt_of_le hlt hge)
  constructor
  · intro s' F' hF'
    rcases Side.of_update hF' with ⟨rfl, -⟩ | ⟨-, hF'⟩
    · exact hs
    · exact h.sided hF'
  · intro s' F' hF'
    rcases Side.of_update hF' with ⟨rfl, rfl⟩ | ⟨-, hF'⟩
    · exact hthrough
    · exact h.view hF'
  · intro s' F' hF'
    rcases Side.of_update hF' with ⟨rfl, rfl⟩ | ⟨-, hF'⟩
    · exact hlaid.nodup
    · exact h.nodup hF'
  · intro s' F' g hF' hg
    rcases Side.of_update hF' with ⟨rfl, rfl⟩ | ⟨-, hF'⟩
    · exact fun hm => hold (.note hm) hg rfl
    · exact h.notes hF' hg
  · intro s₁ s₂ F₁ F₂ g₁ g₂ hF₁ hF₂ hne hg₁ hg₂
    rcases Side.of_update hF₁ with ⟨rfl, rfl⟩ | ⟨-, hF₁'⟩
    · rcases Side.of_update hF₂ with ⟨rfl, -⟩ | ⟨-, hF₂'⟩
      · exact absurd rfl hne
      · exact hold (.gate hF₂' hg₂) hg₁
    · rcases Side.of_update hF₂ with ⟨rfl, rfl⟩ | ⟨-, hF₂'⟩
      · exact (hold (.gate hF₁' hg₁) hg₂).symm
      · exact h.apart hF₁' hF₂' hne hg₁ hg₂
  · intro s₁ s₂ F₁ F₂ hF₁ hF₂ hne hroot
    rcases Side.of_update hF₁ with ⟨rfl, rfl⟩ | ⟨-, hF₁'⟩
    · rcases Side.of_update hF₂ with ⟨rfl, -⟩ | ⟨-, hF₂'⟩
      · exact absurd rfl hne
      · exact (hids _ _ hF₂' hroot.symm).symm
    · rcases Side.of_update hF₂ with ⟨rfl, rfl⟩ | ⟨-, hF₂'⟩
      · exact hids _ _ hF₁' hroot
      · exact h.ids hF₁' hF₂' hne hroot

end Laying

section Connecting

variable [BEq V] {δ : Recipe V} {T : Terms V P σ ε} {S : Scope} {feeds : Side → Option (Feed V)}
  {held : Side → Option SubscriptionRef} {vals : Side → V} {body : P → Prog V P σ ε}
  {w w' : World V P σ ε} {t t' : Thread V P σ ε} {es : List (Event V ε)} {s : Side}
  {n : Node (Routine V P σ ε) .reactive} {c : Prog V P σ ε} {st : List (Frame V P σ ε)}

/-! ## Subscribing to a source -/

/-- New gates can be hidden as soon as they are laid. -/
theorem Linked.lay (h : Linked δ T S feeds held vals w t) (hnew : feeds s = none)
    {gates : List (Gate V)} (hlaid : World.Laid gates w w') (id : Nat) :
    w'.Within (δ.terms T) (δ.Reacts (Function.update feeds s (some ⟨gates, id⟩)))
        (δ.hidden (Function.update feeds s (some ⟨gates, id⟩))) ∧
      w.scope (δ.hidden feeds) ⊆
        w'.scope (δ.hidden (Function.update feeds s (some ⟨gates, id⟩))) := by
  have hfresh : ∀ u ∈ δ.hidden (Function.update feeds s (some ⟨gates, id⟩)),
      u ∈ δ.hidden feeds ∨ ¬ u.Made w := by
    intro u hu
    refine (Recipe.Hidden.of_update hu).imp_right ?_
    rintro ⟨g, hg, rfl⟩
    exact Nat.not_lt.2 (hlaid.fresh g hg)
  refine ⟨h.world.conceal hlaid.grows (fun _ _ hr => hr.update hnew) ?_ hfresh ?_ ?_ ?_,
    hlaid.grows.scope_subset hfresh⟩
  · intro u hu
    rcases Recipe.Hidden.of_update hu with hold | ⟨g, hg, rfl⟩
    · exact hlaid.grows.made (h.world.made u hold)
    · exact (List.getElem?_eq_some_iff.1 (hlaid.blank g hg)).1
  · rw [hlaid.same]
  · intro q s' hs' r hr
    rw [hlaid.same] at hs'
    exact ⟨s', hs', hr⟩
  · rw [hlaid.same]

/-- Nobody had the reaction of a new observer. -/
theorem Recipe.Wired.unwatched {F : Feed V}
    (hwired : δ.Wired (Function.update feeds s (some F))) (hnew : feeds s = none)
    {p : PublisherRef} {o : Observer V P σ ε}
    (ho : o.Within (δ.terms T) (δ.Reacts feeds) (w.scope (δ.hidden feeds)) p)
    (hscope : w.scope (δ.hidden feeds) ⊆ w'.scope (δ.hidden (Function.update feeds s (some F))))
    (v : V) : o.react ≠ δ.react s F := by
  intro hreact
  have hF : Function.update feeds s (some F) s = some F := Function.update_self _ _ _
  rcases ho with hin | ⟨s', F', hF', -, hreact'⟩
  · have hin' := (hin v).mono hscope
    rw [hreact] at hin'
    exact Recipe.react_not_within hF _ hin'
  · have hs : s' ≠ s := by
      rintro rfl
      exact nomatch hnew.symm.trans hF'
    refine Recipe.react_ne (P := P) (σ := σ) (ε := ε) hwired hF
      ((Function.update_of_ne hs _ _).trans hF') hs.symm v v ?_
    exact congrFun (hreact.symm.trans hreact') v

/-- A reaction that has just been queued behind new gates: `w₁` is the world in between. -/
structure Recipe.Joins (δ : Recipe V) (s : Side) (F : Feed V)
    (q : Publisher V (Observer V P σ ε)) (w w₁ w' : World V P σ ε) : Prop where
  laid : World.Laid F.gates w w₁
  through : Gate.through F.gates = δ.view s
  found : w.publisher? (δ.root s) = some q
  id : F.id = q.nextId
  queued : w' = (w₁.enterAll q.monitors).setPublisher (δ.root s)
    (q.enqueue ⟨δ.react s F, [δ.value]⟩)

namespace Recipe.Joins

variable {q : Publisher V (Observer V P σ ε)} {w₁ : World V P σ ε} {F : Feed V}

theorem publisher?_laid (h : δ.Joins s F q w w₁ w') (p : PublisherRef) :
    w₁.publisher? p = w.publisher? p := by
  rw [h.laid.same]
  rfl

theorem publisher?_ne (h : δ.Joins s F q w w₁ w') {p : PublisherRef} (hp : δ.root s ≠ p) :
    w'.publisher? p = w.publisher? p := by
  rw [h.queued, World.publisher?_setPublisher_ne hp, World.publisher?_enterAll]
  exact h.publisher?_laid p

theorem publisher?_self (h : δ.Joins s F q w w₁ w') :
    w'.publisher? (δ.root s) = some (q.enqueue ⟨δ.react s F, [δ.value]⟩) := by
  have hthere : (w₁.enterAll q.monitors).publisher? (δ.root s) = some q :=
    (World.publisher?_enterAll q.monitors).trans ((h.publisher?_laid _).trans h.found)
  rw [h.queued]
  exact World.publisher?_setPublisher_self hthere

theorem memos (h : δ.Joins s F q w w₁ w') : w'.memos = w₁.memos := by
  rw [h.queued, World.enterAll_eq]
  rfl

theorem bags (h : δ.Joins s F q w w₁ w') : w'.bags = w.bags := by
  rw [h.queued, World.enterAll_eq, h.laid.same]
  rfl

/-- Shared lists that there were are as they were. -/
theorem memo_eq (h : δ.Joins s F q w w₁ w') {m : MemoRef} (hm : m.index < w.memos.size) :
    w'.memos.get? m.index = w.memos.get? m.index := by
  rw [h.memos]
  exact h.laid.memo_eq hm

/-- The queueing is a move. -/
theorem moves (h : δ.Joins s F q w w₁ w') (body : P → Prog V P σ ε)
    (k : SubscriptionRef → Prog V P σ ε) (st : List (Frame V P σ ε)) :
    Thread.Moves body w₁ ⟨.run (.attach (δ.root s) [δ.value] (δ.react s F) k), st⟩
      [.queued (δ.root s) F.id] w'
      (Thread.over ⟨.drain (δ.root s), q.leaving⟩ (.register (δ.root s) F.id k :: st)) := by
  rw [h.queued, h.id]
  exact .attached ((h.publisher?_laid _).trans h.found)

/-- The new source fits with those there are. -/
theorem wired (h : δ.Joins s F q w w₁ w') (hl : Linked δ T S feeds held vals w t)
    (hs : s ∈ δ.rule.sides) : δ.Wired (Function.update feeds s (some F)) := by
  refine hl.wired.update hs hl.world.made h.laid h.through fun s' F' hF' hroots => ?_
  obtain ⟨r, hr, hlt⟩ := (hl.fed hF').sole.issued
  rw [hroots] at hr
  obtain rfl := Option.some.inj (h.found.symm.trans hr)
  rw [h.id]
  exact Nat.ne_of_lt hlt

/-- The new source is followed from then on. -/
theorem fed (h : δ.Joins s F q w w₁ w') {f' : Focus V P σ ε} (hnum : Numbered w₁ ⟨f', st⟩)
    (val : V) (f : Focus V P σ ε) : Fed δ s F none val w' ⟨f, q.leaving ++ st⟩ := by
  have hfound₁ : w₁.publisher? (δ.root s) = some q := (h.publisher?_laid _).trans h.found
  have hblank : w'.Blank F.gates := h.laid.blank.same fun g _ => by rw [h.memos]
  have henrolled : Enrolled (δ.root s) F.id (δ.react s F) none w' ⟨f, q.leaving ++ st⟩ := by
    rw [h.queued, h.id]
    exact .enqueue hnum hfound₁ ⟨δ.react s F, [δ.value]⟩ fun _ => List.mem_append.1
  exact ⟨henrolled, Or.inl hblank⟩

/-- The other sources are followed as before. -/
theorem fed_of_fed (h : δ.Joins s F q w w₁ w') {s' : Side} {F' : Feed V}
    {x : Option SubscriptionRef} {val : V} (hfed : Fed δ s' F' x val w ⟨.run c, st⟩)
    (hmade : ∀ g ∈ F'.gates, g.last.index < w.memos.size) :
    Fed δ s' F' x val w' ⟨.drain (δ.root s), q.leaving ++ st⟩ := by
  have hlaid : Fed δ s' F' x val w₁
      ⟨.run (.attach (δ.root s) [δ.value] (δ.react s F) fun _ => c), st⟩ :=
    hfed.same (World.Kept.primed_same hfed.primed fun g hg => h.laid.memo_eq (hmade g hg))
      (h.publisher?_laid _) (by rw [h.laid.same]) fun _ hk => hk
  have hqueued := hlaid.move (h.moves (fun _ => c) (fun _ => c) st) trivial
    fun g _ => by rw [h.memos]
  refine hqueued.same hqueued.primed rfl rfl fun k hk => ?_
  rcases List.mem_append.1 hk with hleave | hold
  · exact List.mem_append_left _ hleave
  · exact List.mem_append_right _ (List.mem_cons_of_mem _ hold)

/-- The new side has nothing to hear of yet. -/
theorem attentive (h : δ.Joins s F q w w₁ w') (hl : Linked δ T S feeds held vals w t)
    (hs : s ∈ δ.rule.sides) (hnew : feeds s = none) (val : V) (t' : Thread V P σ ε) :
    δ.Attentive s F val w' t' := by
  rintro r hr ⟨a, ha, hreact⟩
  obtain rfl := Option.some.inj (h.publisher?_self.symm.trans hr)
  have hwithin := hl.world.observers _ q h.found a (List.mem_append_left _ ha)
  exact absurd hreact
    ((h.wired hl hs).unwatched hnew hwithin (hl.lay hnew h.laid F.id).2 q.current)

/-- The new side is known by its number. -/
theorem numbered (h : δ.Joins s F q w w₁ w') (hl : Linked δ T S feeds held vals w ⟨.run c, st⟩)
    (hs : s ∈ δ.rule.sides) (hnew : feeds s = none) {f : Focus V P σ ε}
    (hreach : Reachable body w ⟨f, st⟩) :
    (Thread.view (δ.root s) (q.enqueue ⟨δ.react s F, [δ.value]⟩)
      (⟨.drain (δ.root s), q.leaving ++ st⟩ : Thread V P σ ε)).Knows F.id (δ.react s F) := by
  have hunwatched := fun {o} (ho : Observer.Within (δ.terms T) (δ.Reacts feeds)
      (w.scope (δ.hidden feeds)) (δ.root s) o) =>
    (h.wired hl hs).unwatched hnew ho (hl.lay hnew h.laid F.id).2 q.current
  have hcalls : (Thread.view (δ.root s) (q.enqueue ⟨δ.react s F, [δ.value]⟩)
      (⟨.drain (δ.root s), q.leaving ++ st⟩ : Thread V P σ ε)).calls =
      (Thread.view (δ.root s) q ⟨f, st⟩).calls := by
    rw [View.calls, Thread.view, Thread.due_leaving]
    rfl
  rw [h.id]
  refine .enqueue hreach h.found rfl (fun r hr => ?_) (fun d hd => ?_) hcalls
  · exact hunwatched (hl.world.observers _ q h.found r hr)
  · obtain ⟨calls, hfr, hmem⟩ := Thread.mem_stack_of_mem_calls hd
    exact hunwatched (hl.stack _ hfr d hmem)

/-- The other sides are known as before. -/
theorem numbered_of_numbered (h : δ.Joins s F q w w₁ w') {s' : Side} {F' : Feed V}
    {r r' : Publisher V (Observer V P σ ε)} (hr : w.publisher? (δ.root s') = some r)
    (hr' : w'.publisher? (δ.root s') = some r')
    (hknows : (Thread.view (δ.root s') r (⟨.run c, st⟩ : Thread V P σ ε)).Knows F'.id (δ.react s' F'))
    (hne : ∀ v, δ.react s F v ≠ (δ.react s' F' v : Prog V P σ ε)) :
    (Thread.view (δ.root s') r' (⟨.drain (δ.root s), q.leaving ++ st⟩ : Thread V P σ ε)).Knows F'.id
      (δ.react s' F') := by
  have hlaid : (Thread.view (δ.root s') r
      (⟨.run (.attach (δ.root s) [δ.value] (δ.react s F) fun _ => c), st⟩ : Thread V P σ ε)).Knows
        F'.id (δ.react s' F') := hknows.same rfl fun _ hc => hc
  have hqueued := hlaid.move (h.moves (fun _ => c) (fun _ => c) st)
    ((h.publisher?_laid _).trans hr) hr' fun keeps k he => ?_
  · refine hqueued.same rfl fun d hd => ?_
    have hdue := Thread.due_over_cons (⟨.drain (δ.root s), q.leaving⟩ : Thread V P σ ε)
      (show Frame.calls? (δ.root s') (.register (δ.root s) F.id fun _ => c) = none from rfl) st
    rw [View.calls, Thread.view, hdue]
    exact hd
  · exact hne q.current (congrFun (Prog.attach.inj (Focus.run.inj he)).2.2.1 q.current)

/-- The other sides are attentive as before. -/
theorem attentive_of_attentive (h : δ.Joins s F q w w₁ w') {s' : Side} {F' : Feed V} {val : V}
    (hatt : δ.Attentive s' F' val w ⟨.run c, st⟩)
    (hmade : ∀ g ∈ F'.gates, g.last.index < w.memos.size)
    {k : SubscriptionRef → Prog V P σ ε} {r : Publisher V (Observer V P σ ε)}
    (hreg : Regular (δ.root s') r w₁
      ⟨.run (.attach (δ.root s) [δ.value] (δ.react s F) k), st⟩) :
    δ.Attentive s' F' val w' ⟨.drain (δ.root s), q.leaving ++ st⟩ := by
  have hlaid : δ.Attentive s' F' val w₁
      ⟨.run (.attach (δ.root s) [δ.value] (δ.react s F) k), st⟩ :=
    hatt.same (h.publisher?_laid _) (fun g hg => h.laid.memo_eq (hmade g hg)) rfl
  have hdue := Thread.due_over_cons (⟨.drain (δ.root s), q.leaving⟩ : Thread V P σ ε)
    (show Frame.calls? (δ.root s') (.register (δ.root s) F.id k) = none from rfl) st
  rcases hlaid.move hreg (h.moves (fun _ => c) k st) trivial fun g _ => by rw [h.memos] with
    hqueued | ⟨a, -, ha⟩
  · exact hqueued.same rfl (fun _ _ => rfl) hdue.symm
  · exact nomatch ha

end Recipe.Joins

/-- The derived value is in between two reactions when a reaction has been queued. -/
theorem Linked.join {F : Feed V} {q : Publisher V (Observer V P σ ε)} {w₁ : World V P σ ε}
    (h : Linked δ T S feeds held vals w ⟨.run c, st⟩) (hs : s ∈ δ.rule.sides)
    (hnew : feeds s = none) (hj : δ.Joins s F q w w₁ w') {f : Focus V P σ ε}
    (hnum : Numbered w₁ ⟨f, st⟩) :
    Linked δ T S (Function.update feeds s (some F)) held vals w'
      ⟨.drain (δ.root s), q.leaving ++ st⟩ := by
  obtain ⟨hworld₁, hscope₁⟩ := h.lay hnew hj.laid F.id
  have hgrow₂ : w₁.Grows w' := (hj.moves (fun _ => c) (fun _ => c) st).grows
  have hF : Function.update feeds s (some F) s = some F := Function.update_self _ _ _
  have hmade : ∀ {s' F'}, feeds s' = some F' → ∀ g ∈ F'.gates, g.last.index < w.memos.size :=
    fun hF' g hg => h.world.made _ (.gate hF' hg)
  -- the new observer reacts, and everything else was there before
  refine ⟨hj.wired h hs, h.roots, ?_, (h.base.trans hscope₁).trans hgrow₂.scope, ?_, ?_, ?_, ?_, ?_,
    ?_⟩
  · rw [hj.queued]
    exact hworld₁.enqueue ((hj.publisher?_laid _).trans hj.found) (Or.inr ⟨s, F, hF, rfl, rfl⟩)
  · intro fr hfr
    rcases List.mem_append.1 hfr with hleave | hold
    · exact (Frame.idle_of_mem_leaving hleave).within
    · have hin := (h.stack fr hold).mono (hscope₁.trans hgrow₂.scope)
      exact hin.imp fun _ _ hr => hr.update hnew
  · obtain ⟨d, hd, hcur⟩ := h.value
    exact ⟨d, (hj.publisher?_ne (h.root hs).2).trans hd, hcur⟩
  · exact h.noted.same fun m hm => hj.memo_eq (h.world.made _ (.note hm))
  · rw [hj.bags]
    exact h.slot
  · intro s' F' hF'
    rcases Side.of_update hF' with ⟨rfl, rfl⟩ | ⟨-, hF'⟩
    · rw [h.unheld hnew]
      exact hj.fed hnum _ _
    · exact hj.fed_of_fed (h.fed hF') (hmade hF')
  · intro s' x hx
    obtain ⟨F', hF'⟩ := h.known hx
    have hne : s' ≠ s := by
      rintro rfl
      exact nomatch hnew.symm.trans hF'
    exact ⟨F', (Function.update_of_ne hne _ _).trans hF'⟩

/-- A reaction that has just been queued is followed, like those there were. -/
theorem Following.join {F : Feed V} {q : Publisher V (Observer V P σ ε)} {w₁ : World V P σ ε}
    (h : Following δ T S feeds held vals w ⟨.run c, st⟩) (hs : s ∈ δ.rule.sides)
    (hnew : feeds s = none) (hj : δ.Joins s F q w w₁ w') {f : Focus V P σ ε}
    (hreach : Reachable body w ⟨f, st⟩) {k : SubscriptionRef → Prog V P σ ε}
    (hcalm : Calmly body w₁ ⟨.run (.attach (δ.root s) [δ.value] (δ.react s F) k), st⟩) :
    Following δ T S (Function.update feeds s (some F)) held vals w'
      ⟨.drain (δ.root s), q.leaving ++ st⟩ := by
  refine ⟨h.toLinked.join hs hnew hj hcalm.reachable.numbered, trivial, fun {s' F'} hF' => ?_,
    fun {s' F' r'} hF' hr' => ?_⟩
  · rcases Side.of_update hF' with ⟨rfl, rfl⟩ | ⟨-, hF'⟩
    · exact hj.attentive h.toLinked hs hnew _ _
    · obtain ⟨⟨q', hq'⟩, -⟩ := h.root (h.wired.sided hF')
      exact hj.attentive_of_attentive (h.attentive hF')
        (fun g hg => h.world.made _ (.gate hF' hg))
        (hcalm.regular ((hj.publisher?_laid _).trans hq'))
  · rcases Side.of_update hF' with ⟨rfl, rfl⟩ | ⟨hne, hold⟩
    · obtain rfl := Option.some.inj (hj.publisher?_self.symm.trans hr')
      exact hj.numbered h.toLinked hs hnew hreach
    · obtain ⟨⟨r, hr⟩, -⟩ := h.root (h.wired.sided hold)
      refine hj.numbered_of_numbered hr hr' (h.numbered hold hr) fun v => ?_
      exact Recipe.react_ne (hj.wired h.toLinked hs) (Function.update_self _ _ _) hF' hne.symm v v

/-- An observer that is queued is followed from then on. -/
theorem Following.connect (h : Following δ T S feeds held vals w ⟨.run c, st⟩)
    (hs : s ∈ δ.rule.sides) (hnew : feeds s = none) (hn : n.Shows (δ.root s) (δ.view s))
    (k : SubscriptionRef → Prog V P σ ε)
    (hcalm : Calmly body w ⟨.run (n.subscribe [δ.value] (δ.sink s) k), st⟩) :
    ∃ (es : List (Event V ε)) (w' : World V P σ ε) (t : Thread V P σ ε) (F : Feed V),
      CalmRun body w ⟨.run (n.subscribe [δ.value] (δ.sink s) k), st⟩ es w'
        (t.over (.register (δ.root s) F.id k :: st)) ∧ t.Calm ∧
      Following δ T S (Function.update feeds s (some F)) held vals w' (t.over st) := by
  obtain ⟨gates, w₁, hlaid, hthrough, hlay⟩ := hn.subscribes body w [δ.value] (δ.sink s)
  obtain ⟨⟨q, hq⟩, -⟩ := h.root hs
  let F : Feed V := ⟨gates, q.nextId⟩
  have hj : δ.Joins s F q w w₁ _ := ⟨hlaid, hthrough, hq, rfl, rfl⟩
  exact ⟨_, _, ⟨.drain (δ.root s), q.leaving⟩, F,
    (hlay k st).trans (.single (hj.moves body k st).step trivial), trivial,
    h.join hs hnew hj hcalm.reachable (hcalm.run (hlay k st))⟩

/-! ## Keeping a subscription -/

/-- The subscriptions in the bag were made before. -/
theorem Linked.ne_size_of_mem (h : Linked δ T S feeds held vals w t) {ss : List SubscriptionRef}
    (hss : w.bags.get? δ.sources.index = some ss) : ∀ x ∈ ss, x ≠ ⟨w.subscriptions.size⟩ := by
  obtain ⟨ss', hss', -, hsome⟩ := h.slot
  obtain rfl := Option.some.inj (hss.symm.trans hss')
  rintro x hx rfl
  obtain ⟨s, hs⟩ := hsome _ hx
  obtain ⟨F, hF⟩ := h.known hs
  have hsize := Heap.get?_size w.subscriptions
  rcases (h.fed hF).entry _ hs with hdetaches | hnone
  · exact nomatch hsize.symm.trans hdetaches
  · exact nomatch hsize.symm.trans hnone

section Filing

variable {F : Feed V} {val : V}

/-- A subscription that is made is the only holder of its number. -/
theorem Fed.newSubscription (h : Fed δ s F none val w ⟨.run c, st⟩) (f : Focus V P σ ε) :
    Fed δ s F (some ⟨w.subscriptions.size⟩) val
      (w.newSubscription (some (.detach (δ.root s) F.id))).2 ⟨f, st⟩ :=
  ⟨h.toEnrolled.newSubscription fun _ hk => hk, World.Kept.primed_same h.primed fun _ _ => rfl⟩

/-- A subscription with another number is made. -/
theorem Fed.newSubscription_ne {x : Option SubscriptionRef} {p : PublisherRef} {id : Nat}
    (h : Fed δ s F x val w ⟨.run c, st⟩) (hne : δ.root s = p → F.id ≠ id) (f : Focus V P σ ε) :
    Fed δ s F x val (w.newSubscription (some (.detach p id))).2 ⟨f, st⟩ :=
  ⟨h.toEnrolled.newSubscription_ne hne fun _ hk => hk,
    World.Kept.primed_same h.primed fun _ _ => rfl⟩

/-- A world in which a subscription has been made and put into the bag. -/
def Recipe.filed (δ : Recipe V) (s : Side) (F : Feed V) (ss : List SubscriptionRef)
    (w : World V P σ ε) : World V P σ ε :=
  { (w.newSubscription (some (.detach (δ.root s) F.id))).2 with
    bags := w.bags.set δ.sources.index (ss ++ [⟨w.subscriptions.size⟩]) }

/-- A subscription is put into the bag. -/
theorem Recipe.filing_performs {ss : List SubscriptionRef}
    (hss : w.bags.get? δ.sources.index = some ss) :
    (w.newSubscription (some (.detach (δ.root s) F.id))).2.perform
      (.bag δ.sources (· ++ [⟨w.subscriptions.size⟩])) = some (ss, δ.filed s F ss w, []) := by
  have hss₁ : (w.newSubscription (some (.detach (δ.root s) F.id))).2.bags.get? δ.sources.index =
      some ss := hss
  exact World.perform_bag hss₁ _

/-- The derived value is in between two reactions when a subscription is kept. -/
theorem Linked.file {ss : List SubscriptionRef}
    (h : Linked δ T S feeds held vals w ⟨.run c, st⟩) (hF : feeds s = some F)
    (hheld : held s = none) (hss : w.bags.get? δ.sources.index = some ss) (f : Focus V P σ ε) :
    Linked δ T S feeds (Function.update held s (some ⟨w.subscriptions.size⟩)) vals
      (δ.filed s F ss w) ⟨f, st⟩ := by
  have hgrow : w.Grows (δ.filed s F ss w) := ⟨le_rfl, le_rfl, (Heap.size_set _ _ _).ge⟩
  have hworld₁ : (w.newSubscription (some (.detach (δ.root s) F.id))).2.Within (δ.terms T)
      (δ.Reacts feeds) (δ.hidden feeds) := h.world.newSubscription nofun
  have hlisted := h.ne_size_of_mem hss
  obtain ⟨ss', hss', hnodup, hsome⟩ := h.slot
  obtain rfl := Option.some.inj (hss.symm.trans hss')
  have hworld : (δ.filed s F ss w).Within (δ.terms T) (δ.Reacts feeds) (δ.hidden feeds) :=
    hworld₁.performBag (Recipe.filing_performs hss)
  have hbag : (δ.filed s F ss w).bags.get? δ.sources.index =
      some (ss ++ [⟨w.subscriptions.size⟩]) := Heap.get?_set_self _ _ _ _ hss
  refine ⟨h.wired, h.roots, hworld, h.base.trans hgrow.scope,
    fun fr hfr => (h.stack fr hfr).mono hgrow.scope, h.value, h.noted, ⟨_, hbag, ?_, ?_⟩, ?_, ?_⟩
  · refine List.nodup_append.2 ⟨hnodup, List.pairwise_singleton _ _, fun y hy z hz => ?_⟩
    rw [List.mem_singleton.1 hz]
    exact hlisted y hy
  · intro y hy
    rcases List.mem_append.1 hy with hy | hy
    · obtain ⟨s', hs'⟩ := hsome y hy
      have hne : s' ≠ s := by
        rintro rfl
        exact nomatch hheld.symm.trans hs'
      exact ⟨s', (Function.update_of_ne hne _ _).trans hs'⟩
    · rw [List.mem_singleton.1 hy]
      exact ⟨s, Function.update_self _ _ _⟩
  · intro s' F' hF'
    have hfed := h.fed hF'
    by_cases hs' : s' = s
    · subst hs'
      obtain rfl := Option.some.inj (hF.symm.trans hF')
      rw [hheld] at hfed
      rw [Function.update_self]
      have hnew := hfed.newSubscription f
      exact hnew.same (World.Kept.primed_same hnew.primed fun _ _ => rfl) rfl rfl fun _ hk => hk
    · -- the other side's number is not the one that is taken
      rw [Function.update_of_ne hs']
      have hold := hfed.newSubscription_ne (h.wired.ids hF' hF hs') f
      exact hold.same (World.Kept.primed_same hold.primed fun _ _ => rfl) rfl rfl fun _ hk => hk
  · intro s' y hy
    rcases Side.of_update hy with ⟨rfl, -⟩ | ⟨-, hy⟩
    · exact ⟨F, hF⟩
    · exact h.known hy

/-- A derived value is followed when a subscription is kept. -/
theorem Following.filed {u : V} {ss : List SubscriptionRef}
    (h : Following δ T S feeds held vals w ⟨.run (.ret u), st⟩) (hF : feeds s = some F)
    (hheld : held s = none) (hss : w.bags.get? δ.sources.index = some ss)
    (hc : c.Within (δ.terms T) S) :
    Following δ T S feeds (Function.update held s (some ⟨w.subscriptions.size⟩)) vals
      (δ.filed s F ss w) ⟨.run c, st⟩ := by
  have hlinked := h.toLinked.file hF hheld hss (.run c)
  exact ⟨hlinked, hc.mono hlinked.base, fun hF => (h.attentive hF).same rfl (fun _ _ => rfl) rfl,
    fun hF hq => (h.numbered hF hq).same rfl fun _ hd => hd⟩

/-- A subscription that has been registered is put into the bag at once. -/
theorem Recipe.filing_run (body : P → Prog V P σ ε) {ss : List SubscriptionRef}
    (hss : w.bags.get? δ.sources.index = some ss) (next : Prog V P σ ε) :
    CalmRun body (w.newSubscription (some (.detach (δ.root s) F.id))).2
      ⟨.run (δ.filing next ⟨w.subscriptions.size⟩), st⟩ [] (δ.filed s F ss w) ⟨.run next, st⟩ :=
  .single (Thread.Moves.performed (Recipe.filing_performs hss)).step trivial

/-- Once its registration has come back, a side is held. -/
theorem Following.file {u : V} {next : Prog V P σ ε} {w₁ : World V P σ ε}
    (h : Following δ T S feeds held vals w ⟨.run (.ret u), st⟩) (hF : feeds s = some F)
    (hheld : held s = none) (hc : c.Within (δ.terms T) S)
    (hm : Thread.Moves body w
      ⟨.run (.ret u), .register (δ.root s) F.id (δ.filing next) :: st⟩ es w₁ t) :
    ∃ es' w₂ x, CalmRun body w₁ t es' w₂ ⟨.run next, st⟩ ∧
      Following δ T S feeds (Function.update held s (some x)) vals w₂ ⟨.run c, st⟩ := by
  obtain ⟨ss, hss, -⟩ := h.slot
  cases hm
  exact ⟨_, _, _, Recipe.filing_run body hss next, h.filed hF hheld hss hc⟩

end Filing

/-! ## What a derived value starts with -/

/-- A derived value that has just been computed and follows nothing yet. -/
theorem Following.init {w₀ : World V P σ ε} (hworld : w₀.Within (δ.terms T) (fun _ _ => False) ∅)
    (hgrow : w₀.Grows w) (hstore : w.store = w₀.store)
    (hobs : ∀ q s', w.publisher? q = some s' → ∀ r ∈ s'.registrations,
      ∃ s, w₀.publisher? q = some s ∧ r ∈ s.registrations)
    (hsubs : w.subscriptions = w₀.subscriptions)
    (hvalue : δ.value.index = w₀.publishers.size) (hbag : δ.sources.index = w₀.bags.size)
    (hnotes : ∀ m ∈ δ.rule.notes, w₀.memos.size ≤ m.index ∧ m.index < w.memos.size)
    (hroots : ∀ s ∈ δ.rule.sides, .publish (δ.root s) ∈ w₀.scope ∅)
    (hcur : ∃ q, w.publisher? δ.value = some q ∧ q.current = δ.rule.result vals)
    (hnoted : δ.rule.Noted w vals) (hslot : w.bags.get? δ.sources.index = some [])
    (hstack : ∀ fr ∈ st, fr.Within (δ.terms T) (fun _ _ => False) (w₀.scope ∅))
    (hc : c.Within (δ.terms T) (w₀.scope ∅ ∪ {.read δ.value})) :
    Following δ T (w₀.scope ∅ ∪ {.read δ.value}) (fun _ => none) (fun _ => none) vals w
      ⟨.run c, st⟩ := by
  have hmade : ∀ u ∈ δ.hidden fun _ => none, u.Made w := by
    obtain ⟨q, hq, -⟩ := hcur
    rintro u (_ | _ | _ | hm | ⟨hF, -⟩)
    · exact (List.getElem?_eq_some_iff.1 hq).1
    · exact (List.getElem?_eq_some_iff.1 hq).1
    · exact (List.getElem?_eq_some_iff.1 hslot).1
    · exact (hnotes _ hm).2
    · exact nomatch hF
  have hnew : ∀ u ∈ δ.hidden fun _ => none, u ∈ (∅ : Scope) ∨ ¬ u.Made w₀ := by
    rintro u (_ | _ | _ | hm | ⟨hF, -⟩)
    · exact Or.inr (Nat.not_lt.2 hvalue.ge)
    · exact Or.inr (Nat.not_lt.2 hvalue.ge)
    · exact Or.inr (Nat.not_lt.2 hbag.ge)
    · exact Or.inr (Nat.not_lt.2 (hnotes _ hm).1)
    · exact nomatch hF
  have hscope := hgrow.scope_subset hnew
  have hread : .read δ.value ∈ w.scope (δ.hidden fun _ => none) :=
    ⟨hmade (.publish δ.value) .publish, fun h => nomatch h⟩
  have hbase : w₀.scope ∅ ∪ {.read δ.value} ⊆ w.scope (δ.hidden fun _ => none) :=
    Set.union_subset hscope (Set.singleton_subset_iff.2 hread)
  refine ⟨⟨⟨nofun, nofun, nofun, nofun, nofun, nofun⟩, fun s hs => Or.inl (hroots s hs), ?_, hbase,
    ?_, hcur, hnoted, ⟨[], hslot, List.nodup_nil, nofun⟩, nofun, nofun⟩, hc.mono hbase, nofun,
    nofun⟩
  · exact hworld.conceal hgrow (fun _ _ h => h.elim) hmade hnew hstore hobs hsubs
  · intro fr hfr
    exact ((hstack fr hfr).mono hscope).imp fun _ _ h => h.elim

end Connecting

end ReactiveCells
