import ReactiveCells.Proofs.Agreeing
import ReactiveCells.Proofs.Returning

/-!
# Combining — a combination follows the order of deliveries

A combination of two sources keeps the pair of their latest values. Each of its two observers, when
it is called, replaces one side, computes and writes the result before anything else runs. So the
values that the combination tells are found by going through the calls of its own two observers, in
the order in which these are made: whatever observers write in between, and even if both sources
are built on the same publisher, so that one change renews one side after the other.

To know what was told from the start one has to know the start. A combination that is made while
nothing is being delivered is served at once by either source: it is replayed what it was computed
from, so it holds the same pair and the same result when it comes back (`Following.gains`), and a
recorder that is attached then begins with that result.

Main statements: `World.Unforged.combines` (how a combination is made), `Following.tells` and
`combination_follows_deliveries`.
-/

namespace ReactiveCells

variable {V P σ ε : Type}

/-! ## What deliveries make of a pair -/

/-- The value with which an event calls one of two observers, with its side: the left observer has
the number `id` at `p`, and the right one the number `id'` at `q`. -/
def Event.delivery? (p : PublisherRef) (id : Nat) (q : PublisherRef) (id' : Nat) :
    Event V ε → Option (Side × V)
  | .called r n v =>
      if p = r ∧ id = n then some (.left, v) else if q = r ∧ id' = n then some (.right, v) else none
  | .committed .. | .queued .. | .detached .. | .note _ | .message _ | .disposed _ => none

/-- The values that events deliver to two observers, in order. -/
def deliveries (p : PublisherRef) (id : Nat) (q : PublisherRef) (id' : Nat)
    (es : List (Event V ε)) : List (Side × V) :=
  es.filterMap (Event.delivery? p id q id')

/-- A pair of latest values when one more value is delivered. A side on which there is a view shows
`f` or `g` of it; what the view does not pass on shows the same as before. -/
def renewed (f g : V → V) (xy : V × V) : Side × V → V × V
  | (.left, v) => (f v, xy.2)
  | (.right, v) => (xy.1, g v)

/-- What `m` makes of a pair of values at first and after every delivery. -/
def combinations (m : V → V → V) (f g : V → V) (x y : V) (ds : List (Side × V)) : List V :=
  (ds.scanl (renewed f g) (x, y)).map fun xy => m xy.1 xy.2

section Pairs

variable {δ : Recipe V} {latest : MemoRef} {m : V → V → V} {feeds : Side → Option (Feed V)}
  {F F' : Feed V}

/-- A combination hears of what its own observers are called with. -/
theorem Recipe.heard_pair (hF : feeds .left = some F) (hF' : feeds .right = some F')
    (es : List (Event V ε)) :
    δ.heard feeds es = deliveries (δ.root .left) F.id (δ.root .right) F'.id es := by
  have hside : ∀ p n, δ.side? feeds p n =
      if δ.root .left = p ∧ F.id = n then some .left
      else if δ.root .right = p ∧ F'.id = n then some .right else none := by
    intro p n
    rw [Recipe.side?, List.find?_cons, List.find?_cons, List.find?_nil, hF, hF', Option.any_some,
      Option.any_some]
    by_cases hleft : δ.root .left = p ∧ F.id = n
    · rw [decide_eq_true hleft, if_pos hleft]
    · by_cases hright : δ.root .right = p ∧ F'.id = n
      · rw [decide_eq_false hleft, decide_eq_true hright, if_neg hleft, if_pos hright]
      · rw [decide_eq_false hleft, decide_eq_false hright, if_neg hleft, if_neg hright]
  refine congrArg (List.filterMap · es) (funext fun e => ?_)
  cases e with
  | called p n v =>
      rw [Recipe.heard?, hside, Event.delivery?]
      split_ifs <;> rfl
  | _ => rfl

/-- The results of a combination are what its function makes of the pairs. -/
theorem Recipe.results_pair (hrule : δ.rule = .pair latest m) (vals : Side → V)
    (ds : List (Side × V)) :
    δ.results vals ds =
      combinations m (δ.view .left) (δ.view .right) (vals .left) (vals .right) ds := by
  induction ds generalizing vals with
  | nil =>
      rw [Recipe.results, hrule]
      rfl
  | cons d ds ih =>
      have hresult : δ.rule.result vals = m (vals .left) (vals .right) := by rw [hrule]; rfl
      have hsplit : δ.results vals (d :: ds) =
          δ.rule.result vals :: δ.results (δ.hear vals d) ds := by
        rw [Recipe.results, List.scanl_cons]
        rfl
      rw [hsplit, hresult, ih, combinations, combinations, List.scanl_cons]
      obtain ⟨_ | _, v⟩ := d <;> rfl

end Pairs

/-! ## A reaction to what is known already -/

/-- Whether publishers hold what they held, and some shared lists, the bags and the subscriptions
are as they were. -/
structure World.Steady (ms : List MemoRef) (w w' : World V P σ ε) : Prop where
  current : ∀ {p s}, w.publisher? p = some s →
    ∃ s', w'.publisher? p = some s' ∧ s'.current = s.current
  memos : ∀ m ∈ ms, w'.memos.get? m.index = w.memos.get? m.index
  bags : w'.bags = w.bags
  subscriptions : w'.subscriptions = w.subscriptions

namespace World.Steady

variable {w w' w'' : World V P σ ε} {ms : List MemoRef}

theorem trans (h : w.Steady ms w') (h' : w'.Steady ms w'') : w.Steady ms w'' where
  current hs := by
    obtain ⟨s', hs', hcur⟩ := h.current hs
    obtain ⟨s'', hs'', hcur'⟩ := h'.current hs'
    exact ⟨s'', hs'', hcur'.trans hcur⟩
  memos m hm := (h'.memos m hm).trans (h.memos m hm)
  bags := h'.bags.trans h.bags
  subscriptions := h'.subscriptions.trans h.subscriptions

theorem of_leaveAll (h : w.Steady ms w') (monitors : List Monitor) :
    w.Steady ms (w'.leaveAll monitors) := by
  refine h.trans ⟨fun {p s} hs => ⟨s, (World.publisher?_leaveAll monitors).trans hs, rfl⟩,
    fun _ _ => ?_, ?_, ?_⟩
  all_goals rw [World.leaveAll_eq]

/-- Laying gates touches nothing but new lists. -/
theorem of_laid {gates : List (Gate V)} (h : World.Laid gates w w')
    (hms : ∀ m ∈ ms, m.index < w.memos.size) : w.Steady ms w' := by
  refine ⟨fun {p s} hs => ⟨s, ?_, rfl⟩, fun m hm => h.memo_eq (hms m hm), ?_, ?_⟩
  · rw [h.same]
    exact hs
  · rw [h.same]
  · rw [h.same]

end World.Steady

/-- Whether a derived value holds what its rule makes of what its sides know. -/
structure Recipe.Holds (δ : Recipe V) (vals : Side → V) (w : World V P σ ε) : Prop where
  value : ∃ d, w.publisher? δ.value = some d ∧ d.current = δ.rule.result vals
  noted : δ.rule.Noted w vals

theorem Recipe.Holds.same {δ : Recipe V} {vals : Side → V} {w w' : World V P σ ε}
    (h : δ.Holds vals w) (hvalue : w'.publisher? δ.value = w.publisher? δ.value)
    (hmemos : ∀ m ∈ δ.rule.notes, w'.memos.get? m.index = w.memos.get? m.index) :
    δ.Holds vals w' :=
  ⟨hvalue ▸ h.value, h.noted.same hmemos⟩

/-- Whether the gates of a side have just been laid. -/
structure Recipe.Fresh (δ : Recipe V) (F : Feed V) (w : World V P σ ε) : Prop where
  blank : w.Blank F.gates
  nodup : (F.gates.map (·.last)).Nodup
  notes : ∀ m ∈ δ.rule.notes, m ∉ F.gates.map (·.last)

/-- A publisher in the middle of the call of a new observer. -/
def Publisher.taking {O : Type} (q : Publisher V O) (o : O) : Publisher V O :=
  { q.enqueue o with
    draining := true, observers := q.observers ++ [⟨q.nextId, o⟩], pending := [] }

section Reacting

variable [BEq V] [LawfulBEq V] {body : P → Prog V P σ ε} {δ : Recipe V} {vals : Side → V} {s : Side}
  {F : Feed V} {w : World V P σ ε} {q : Publisher V (Observer V P σ ε)}

omit [LawfulBEq V] in
/-- A publisher at which nothing is being delivered calls a new observer at once, and is done when
that comes back without having changed the publisher. -/
theorem World.Settles.serves {p : PublisherRef} {o : Observer V P σ ε}
    (hq : w.publisher? p = some q) (hidle : q.draining = false ∧ q.pending = [])
    {post : World V P σ ε → Prop}
    (hreact : (o.react q.delivered).Ends body ((w.enterAll q.monitors).setPublisher p (q.taking o))
      fun w' => w'.publisher? p = some (q.taking o) ∧
        post (w'.setPublisher p (q.taking o).endDrain)) :
    ((w.enterAll q.monitors).setPublisher p (q.enqueue o)).Settles body p fun _ => post := by
  let draining : Publisher V (Observer V P σ ε) := { q.enqueue o with draining := true }
  have hfound : ∀ q', ((w.enterAll q.monitors).setPublisher p q').publisher? p = some q' :=
    fun q' => World.publisher?_enterAll_setPublisher hq
  have hpop : draining.pop =
      some (.replay ⟨q.nextId, q.delivered, o⟩ (q.observers.length + 1), q.taking o) := by
    simp [Publisher.pop, Publisher.enqueue, Publisher.taking, draining, hidle.2]
  obtain ⟨w', ⟨htaking, hpost⟩, hreact⟩ := hreact
  refine .of_drains (hfound _) hidle.1 ?_
  rw [World.setPublisher_setPublisher]
  refine .next (hfound draining) hpop ?_
  rw [World.setPublisher_setPublisher]
  exact .cons ⟨w', .nil (.done htaking rfl hpost), hreact⟩

/-- A pair that is noted down anew and makes the same again changes nothing. -/
theorem recombine_same {p : PublisherRef} {d : Publisher V (Observer V P σ ε)} {latest : MemoRef}
    {old : List V} {compute : V → V → Prog V P σ ε} {replace : V → List V → List V} {v : V}
    (hd : w.publisher? p = some d) (hold : w.memos.get? latest.index = some old)
    (hsame : replace v old = old) (hcompute : Derived.combinePair compute v old = .ret d.current) :
    (Derived.recombine p latest compute replace v).Returns body w fun _ w' => w' = w := by
  have hold' : (w.enterAll d.monitors).memos.get? latest.index = some old := by
    rw [World.enterAll_eq]
    exact hold
  have hnote := World.perform_memo hold' (replace v)
  rw [hsame, Heap.set_of_get? _ _ _ hold'] at hnote
  refine .bind ((Act.Returns.amend hd rfl (.bind (.atom hnote ?_))).imp fun _ _ h => .pure h)
  rw [hsame, hcompute]
  refine .pure ⟨d, (World.publisher?_enterAll _).trans hd, Or.inl ⟨?_, World.leaveAll_enterAll _ _⟩⟩
  exact if_pos (beq_self_eq_true _)

/-- A side that is given the value it knows changes nothing. -/
theorem Recipe.sink_same (h : δ.Holds vals w) (hs : s ∈ δ.rule.sides) :
    (δ.sink s (vals s)).Returns body w fun _ w' => w' = w := by
  obtain ⟨⟨d, hd, hcur⟩, hnoted⟩ := h
  obtain ⟨own, rule, root, view⟩ := δ
  cases rule with
  | image f =>
      obtain rfl := List.mem_singleton.1 hs
      refine .publish hd ⟨_, (World.publisher?_enterAll _).trans hd, Or.inl ⟨?_, ?_⟩⟩
      · exact if_pos (beq_iff_eq.2 hcur)
      · exact World.leaveAll_enterAll _ _
  | pair latest g =>
      cases s with
      | left => exact recombine_same hd hnoted rfl (congrArg Prog.ret hcur.symm)
      | right => exact recombine_same hd hnoted rfl (congrArg Prog.ret hcur.symm)

/-- A reaction behind new gates that is called with what its side knows comes back, and changes
nothing but what the gates keep. -/
theorem Recipe.react_same (h : δ.Holds vals w) (hF : δ.Fresh F w) (hs : s ∈ δ.rule.sides) {v : V}
    (hv : Gate.through F.gates v = vals s) :
    (δ.react s F v).Ends body w fun w' =>
      w'.publishers = w.publishers ∧ w.Beside δ.value (F.gates.map (·.last)) w' := by
  have hbefore : w.Blank F.gates ∨ ∃ u, w.Kept (vals s) F.gates u := Or.inl hF.blank
  obtain ⟨w', hbeside, hpubs, hend⟩ := gated_run body hF.nodup hbefore δ.value (δ.sink s) v
    (fun _ => .ret v) []
  rw [hv] at hend
  rcases hend with ⟨-, hrun⟩ | ⟨-, hrun⟩
  · exact ⟨w', ⟨hpubs, hbeside⟩, fun st => ⟨_, v, hrun.over st⟩⟩
  · have hholds : δ.Holds vals w' := h.same (congrArg (Heap.get? · δ.value.index) hpubs)
      fun m hm => hbeside.memos m (hF.notes m hm)
    obtain ⟨⟨⟩, _, rfl, hsink⟩ : (δ.sink s (vals s)).Returns body w' fun _ w'' => w'' = w' :=
      Recipe.sink_same hholds hs
    obtain ⟨es, hsink⟩ := hsink (fun _ => .ret v) []
    have hback : CalmRun body w ⟨.run (δ.react s F v), []⟩ _ _ ⟨.run (.ret v), []⟩ :=
      hrun.trans hsink
    exact ⟨_, ⟨hpubs, hbeside⟩, fun st => ⟨_, v, hback.over st⟩⟩

/-- A reaction that is queued at a source at which nothing is being delivered is called at once, and
if its side knows what it is called with, everything else is as before. -/
theorem Recipe.react_settles (h : δ.Holds vals w) (hF : δ.Fresh F w) (hs : s ∈ δ.rule.sides)
    (hroot : δ.root s ≠ δ.value) (hq : w.publisher? (δ.root s) = some q)
    (hidle : q.draining = false ∧ q.pending = []) (hv : Gate.through F.gates q.delivered = vals s) :
    ((w.enterAll q.monitors).setPublisher (δ.root s)
        (q.enqueue ⟨δ.react s F, [δ.value]⟩)).Settles body (δ.root s) fun _ w' =>
      w.Steady δ.rule.notes w' := by
  let w₁ : World V P σ ε :=
    (w.enterAll q.monitors).setPublisher (δ.root s) (q.taking ⟨δ.react s F, [δ.value]⟩)
  have henter : w.Beside δ.value [] (w.enterAll q.monitors) := .enterAll w q.monitors
  have hmemos : ∀ m : MemoRef, w₁.memos.get? m.index = w.memos.get? m.index := fun m =>
    henter.memos m List.not_mem_nil
  have helse : ∀ {p}, p ≠ δ.root s → w₁.publisher? p = w.publisher? p := fun hp =>
    (World.publisher?_setPublisher_ne hp.symm).trans (World.publisher?_enterAll _)
  have hfresh : δ.Fresh F w₁ := ⟨hF.blank.same fun g _ => hmemos g.last, hF.nodup, hF.notes⟩
  obtain ⟨w', ⟨hpubs, hbeside⟩, hreact⟩ : (δ.react s F q.delivered).Ends body w₁ _ :=
    Recipe.react_same (h.same (helse hroot.symm) fun m _ => hmemos m) hfresh hs hv
  have hlookup : ∀ p, w'.publisher? p = w₁.publisher? p := fun p =>
    congrArg (Heap.get? · p.index) hpubs
  have htaking : w'.publisher? (δ.root s) = some _ :=
    (hlookup _).trans (World.publisher?_enterAll_setPublisher hq)
  refine .serves hq hidle ⟨w', ⟨htaking, fun {p r} hr => ?_, fun m hm => ?_,
    hbeside.bags.trans henter.bags, hbeside.subscriptions.trans henter.subscriptions⟩, hreact⟩
  · by_cases hp : p = δ.root s
    · subst hp
      obtain rfl := Option.some.inj (hq.symm.trans hr)
      exact ⟨_, World.publisher?_setPublisher_self htaking, rfl⟩
    · exact ⟨r, (World.publisher?_setPublisher_ne (Ne.symm hp)).trans
        ((hlookup p).trans ((helse hp).trans hr)), rfl⟩
  · exact (hbeside.memos m (hF.notes m hm)).trans (hmemos m)

end Reacting

/-! ## Subscribing while nothing is being delivered -/

/-- The values noted down of a pair are those on its two sides. -/
theorem Rule.Noted.unique {w : World V P σ ε} {rule : Rule V} {vals vals' : Side → V}
    {latest : MemoRef} {m : V → V → V} (hrule : rule = .pair latest m) (h : rule.Noted w vals)
    (h' : rule.Noted w vals') : vals' = vals := by
  subst hrule
  have hlist : [vals' .left, vals' .right] = [vals .left, vals .right] :=
    Option.some.inj (Eq.trans (Eq.symm h') h)
  obtain ⟨hleft, hright⟩ := List.cons.inj hlist
  funext s
  cases s with
  | left => exact hleft
  | right => exact (List.cons.inj hright).1

/-- What has come about when a side was subscribed: publishers hold what they held, and there is one
more subscription, which is in the bag. -/
structure Recipe.Gained (δ : Recipe V) (s : Side) (F : Feed V) (ss : List SubscriptionRef)
    (x : SubscriptionRef) (w w' : World V P σ ε) : Prop where
  current : ∀ {p r}, w.publisher? p = some r →
    ∃ r', w'.publisher? p = some r' ∧ r'.current = r.current
  bag : w'.bags.get? δ.sources.index = some (ss ++ [x])
  new : w'.subscriptions.get? x.index = some (some (.detach (δ.root s) F.id))
  kept : ∀ {i e}, w.subscriptions.get? i = some e → w'.subscriptions.get? i = some e

/-- A subscription is kept after a side was served. -/
theorem Recipe.Gained.of_steady {δ : Recipe V} {s : Side} {F : Feed V} {ss : List SubscriptionRef}
    {ms : List MemoRef} {w w' : World V P σ ε} (h : w.Steady ms w')
    (hss : w'.bags.get? δ.sources.index = some ss) :
    δ.Gained s F ss ⟨w'.subscriptions.size⟩ w (δ.filed s F ss w') where
  current := h.current
  bag := Heap.get?_set_self _ _ _ _ hss
  new := Heap.get?_alloc_self _ _
  kept hi := Heap.get?_alloc_of_some _ _ _ _ (h.subscriptions ▸ hi)

section Gaining

variable [BEq V] [LawfulBEq V] {body : P → Prog V P σ ε} {δ : Recipe V} {T : Terms V P σ ε}
  {S : Scope} {feeds : Side → Option (Feed V)} {held : Side → Option SubscriptionRef}
  {vals : Side → V} {s : Side} {F : Feed V} {w w' w₁ w₂ : World V P σ ε} {t : Thread V P σ ε}
  {es : List (Event V ε)} {u : V} {q : Publisher V (Observer V P σ ε)}
  {n : Node (Routine V P σ ε) .reactive}
  {latest : MemoRef} {m : V → V → V} {ss : List SubscriptionRef}

/-- A derived value is followed also while something waits below that makes no calls. -/
theorem Following.run_over (h : Following δ T S feeds held vals w t) {fr : Frame V P σ ε}
    (hfr : ∀ p, fr.calls? p = none) (hcalm : Calmly body w (t.over [fr])) (ht : t.Calm)
    (hbodies : ∀ c, (body c).Within (δ.terms T) S)
    (hrun : CalmRun body w t es w' ⟨.run (.ret u), []⟩) :
    ∃ vals', Following δ T S feeds held vals' w' ⟨.run (.ret u), []⟩ := by
  have hsoon : Soon body (fun _ w t => (∃ vals', Following δ T S feeds held vals' w t) ∧
      Calmly body w (t.over [fr])) [] w t := .now ⟨⟨vals, h⟩, hcalm⟩
  refine ((Soon.run hsoon ht hrun ?_).1.ended rfl).1
  rintro es w t es' w' t' ⟨⟨vals₁, h₁⟩, hcalm₁⟩ - hm ht'
  have hcalm' : Calmly body w' (t'.over [fr]) := hcalm₁.step (hm.over [fr]) ht'
  have hreg := fun p q (hq : w.publisher? p = some q) => (hcalm₁.regular hq).without (hfr p)
  have hover : Following δ T S feeds held vals₁ w (t.over []) := t.over_nil.symm ▸ h₁
  obtain ⟨es'', w'', t'', vals', hrun', hafter, -⟩ := hover.move hbodies hreg hm ht'
  rw [Thread.over_nil] at hafter
  exact .of_run hrun' (.now ⟨⟨vals', hafter⟩, hcalm'.run (hrun'.over [fr])⟩)

/-- A reaction that is queued while nothing is being delivered is called at once, and the derived
value is followed and as it was when that has come back. -/
theorem Following.served (h : Following δ T S feeds held vals w ⟨.run (.ret u), []⟩)
    (hcalm : Calmly body w ⟨.run (.ret u), []⟩) (hbodies : ∀ c, (body c).Within (δ.terms T) S)
    (hs : s ∈ δ.rule.sides) (hnew : feeds s = none) (hval : vals s = δ.view s q.current)
    (hj : δ.Joins s F q w w₁ w₂) {k : SubscriptionRef → Prog V P σ ε}
    (hcalm₁ : Calmly body w₁ ⟨.run (.attach (δ.root s) [δ.value] (δ.react s F) k), []⟩) :
    ∃ es w' v vals', CalmRun body w₂ ⟨.drain (δ.root s), q.leaving⟩ es w' ⟨.run (.ret v), []⟩ ∧
      w.Steady δ.rule.notes w' ∧
      Following δ T S (Function.update feeds s (some F)) held vals' w' ⟨.run (.ret v), []⟩ := by
  have hF : Function.update feeds s (some F) s = some F := Function.update_self _ _ _
  have hreg := hcalm.regular hj.found
  have hset : Thread.Settled (δ.root s) (⟨.run (.ret u), []⟩ : Thread V P σ ε) := ⟨nofun, rfl⟩
  have hmade : ∀ m ∈ δ.rule.notes, m.index < w.memos.size := fun m hm =>
    h.world.made _ (.note hm)
  have hholds : δ.Holds vals w₁ := Recipe.Holds.same ⟨h.value, h.noted⟩ (hj.publisher?_laid _)
    fun m hm => hj.laid.memo_eq (hmade m hm)
  have hfresh : δ.Fresh F w₁ := by
    refine ⟨hj.laid.blank, hj.laid.nodup, fun m hm hmem => ?_⟩
    obtain ⟨g, hg, rfl⟩ := List.mem_map.1 hmem
    exact (hj.wired h.toLinked hs).notes hF hg hm
  -- the side knows what it is called with
  have hv : Gate.through F.gates q.delivered = vals s := by
    rw [hj.through, hreg.delivered_eq hset, hval]
  obtain ⟨v, w', hsteady, hdrain⟩ : w₂.Settles body (δ.root s) fun _ w' =>
      w₁.Steady δ.rule.notes w' := by
    rw [hj.queued]
    exact Recipe.react_settles hholds hfresh hs (h.root hs).2
      ((hj.publisher?_laid _).trans hj.found) (hreg.intact.idle hset) hv
  obtain ⟨es, hdrain⟩ := hdrain q.leaving
  have hserved : CalmRun body w₂ ⟨.drain (δ.root s), q.leaving⟩ _ (w'.leaveAll q.monitors)
      ⟨.run (.ret v), []⟩ :=
    hdrain.trans ((List.append_nil q.leaving) ▸ leave_run body w' v q.monitors [])
  have hjoined := h.join hs hnew hj hcalm.reachable hcalm₁
  rw [List.append_nil] at hjoined
  obtain ⟨vals', hafter⟩ := hjoined.run_over (fun _ => rfl)
    (hcalm₁.step (hj.moves body k []) trivial) trivial hbodies hserved
  exact ⟨_, _, v, vals', hserved,
    ((World.Steady.of_laid hj.laid hmade).trans hsteady).of_leaveAll q.monitors, hafter⟩

/-- A side of a pair that is subscribed while nothing is being delivered is served at once, and the
pair stays as it is. -/
theorem Following.gains (h : Following δ T S feeds held vals w ⟨.run (.ret u), []⟩)
    (hrule : δ.rule = .pair latest m) (hcalm : Calmly body w ⟨.run (.ret u), []⟩)
    (hbodies : ∀ c, (body c).Within (δ.terms T) S) (hs : s ∈ δ.rule.sides) (hnew : feeds s = none)
    (hn : n.Shows (δ.root s) (δ.view s)) (hq : w.publisher? (δ.root s) = some q)
    (hval : vals s = δ.view s q.current) (hss : w.bags.get? δ.sources.index = some ss) :
    ∃ F x es w', (∀ next, CalmRun body w
        (.start (n.subscribe [δ.value] (δ.sink s) (δ.filing next))) es w' (.start next)) ∧
      δ.Gained s F ss x w w' ∧
      Following δ T S (Function.update feeds s (some F)) (Function.update held s (some x)) vals w'
        ⟨.run (.ret u), []⟩ := by
  obtain ⟨gates, w₁, hlaid, hthrough, hlay⟩ := hn.subscribes body w [δ.value] (δ.sink s)
  let F : Feed V := ⟨gates, q.nextId⟩
  have hj : δ.Joins s F q w w₁ _ := ⟨hlaid, hthrough, hq, rfl, rfl⟩
  have hcalm₁ : Calmly body w₁
      ⟨.run (.attach (δ.root s) [δ.value] (δ.react s F) (δ.filing (.ret u))), []⟩ :=
    (hcalm.start rfl _).run (hlay (δ.filing (.ret u)) [])
  obtain ⟨es, w', v, vals', hserved, hsteady, hafter⟩ :=
    h.served hcalm hbodies hs hnew hval hj hcalm₁
  obtain rfl : vals' = vals :=
    Rule.Noted.unique hrule (h.noted.same hsteady.memos) hafter.noted
  have hss' : w'.bags.get? δ.sources.index = some ss := hsteady.bags ▸ hss
  have hregister : ∀ next, Thread.Moves body w' ⟨.run (.ret v),
      [.register (δ.root s) F.id (δ.filing next)]⟩ _ _ _ := fun _ => .registered
  have hrun : ∀ next, CalmRun body w
      (.start (n.subscribe [δ.value] (δ.sink s) (δ.filing next))) _ (δ.filed s F ss w')
      (.start next) := fun next =>
    (hlay _ []).trans (.cons (hj.moves body _ []).step trivial ((hserved.over _).trans
      (.cons (hregister next).step trivial (Recipe.filing_run body hss' next))))
  exact ⟨F, _, _, _, hrun, .of_steady hsteady hss',
    hafter.filed (Function.update_self _ _ _) (h.unheld hnew) hss' (.ret u)⟩

end Gaining

/-! ## Making a combination -/

section Making

variable [BEq V] [LawfulBEq V] {body : P → Prog V P σ ε} {T : Terms V P σ ε} {w : World V P σ ε}
  {u : V} {a b : Node (Routine V P σ ε) .reactive} {p q : PublisherRef} {f g : V → V}
  {r r' : Publisher V (Observer V P σ ε)}

/-- A combination that is made while nothing is being delivered comes back at once, with one
subscription to either source, and knows what the sources show. -/
theorem World.Unforged.combines (h : w.Unforged body T [] fun _ => .ret u)
    (hcalm : Calmly body w ⟨.run (.ret u), []⟩) (ha : a.Shows p f) (hb : b.Shows q g)
    (hr : w.publisher? p = some r) (hr' : w.publisher? q = some r') (m : V → V → V) :
    ∃ F F' x x' es w', (∀ next : Derived → Prog V P σ ε, CalmRun body w
        (.start (Derived.combine a b (fun x y => .ret (m x y)) next)) es w'
        (.start (next w.derives))) ∧
      w'.bags.get? w.derives.sources.index = some [x, x'] ∧
      w'.subscriptions.get? x.index = some (some (.detach p F.id)) ∧
      w'.subscriptions.get? x'.index = some (some (.detach q F'.id)) ∧
      Following (w.recipe (.pair ⟨w.memos.size⟩ m) (Side.pick p q) (Side.pick f g)) T
        (w.handed w.derives) (Side.pick (some F) (some F')) (Side.pick (some x) (some x'))
        (Side.pick (f r.current) (g r'.current)) w' ⟨.run (.ret u), []⟩ := by
  let δ : Recipe V := w.recipe (.pair ⟨w.memos.size⟩ m) (Side.pick p q) (Side.pick f g)
  let w₀ : World V P σ ε := w.combined m (f r.current) (g r'.current)
  have hbodies : ∀ c, (body c).Within (δ.terms T) (w.handed w.derives) := fun c =>
    (h.bodies c).mono Set.subset_union_left
  have hthere : ∀ {p' s}, w.publisher? p' = some s → w₀.publisher? p' = some s := fun hs =>
    Heap.get?_alloc_of_some _ _ _ _ hs
  -- a client could have come there without a derived value
  have hcalm₀ : Calmly body w₀ ⟨.run (.ret u), []⟩ := by
    have hrun : CalmRun body w (.start (.atom (.newMemo [f r.current, g r'.current]) fun _ =>
        .atom (.newPublisher none (m (f r.current) (g r'.current))) fun _ =>
          .atom .newBag fun _ => .ret u)) _ w₀ ⟨.run (.ret u), []⟩ := Run.of_advance (n := 3) rfl
    exact (hcalm.start rfl _).run hrun
  have hmade : ∀ next, CalmRun body w
      (.start (Derived.combine a b (fun x y => .ret (m x y)) next)) [] w₀ _ := fun next =>
    combine_run ha hb hr hr' m next
  obtain ⟨F, x, es₁, w₁, hrun₁, hgained₁, h₁⟩ := (h.combined hr hr' m).gains rfl hcalm₀ hbodies
    (s := .left) List.mem_cons_self rfl ha (hthere hr) rfl (Heap.get?_alloc_self _ _)
  have hcalm₁ : Calmly body w₁ ⟨.run (.ret u), []⟩ := (hcalm₀.start rfl _).run (hrun₁ (.ret u))
  obtain ⟨r₁, hr₁, hcur⟩ := hgained₁.current (hthere hr')
  obtain ⟨F', x', es₂, w₂, hrun₂, hgained₂, h₂⟩ := h₁.gains rfl hcalm₁ hbodies (s := .right)
    (List.mem_cons_of_mem _ List.mem_cons_self) rfl hb hr₁ (congrArg g hcur.symm) hgained₁.bag
  have hboth : ∀ {α : Type} (x y : α),
      Function.update (Function.update (fun _ => none) Side.left (some x)) Side.right (some y) =
        Side.pick (some x) (some y) := by
    intro α x y
    funext s
    cases s <;> rfl
  rw [hboth, hboth] at h₂
  exact ⟨F, F', x, x', _, w₂, fun next => (hmade next).trans ((hrun₁ _).trans (hrun₂ _)),
    hgained₂.bag, hgained₂.kept hgained₁.new, hgained₂.new, h₂⟩

end Making

/-! ## Recording a derived value -/

section Recording

variable [BEq V] [LawfulBEq V] {body : P → Prog V P σ ε} {starts : Prog V P σ ε → Prop}
  {δ : Recipe V} {T : Terms V P σ ε} {S : Scope} {feeds : Side → Option (Feed V)}
  {held : Side → Option SubscriptionRef} {vals : Side → V} {w w' : World V P σ ε}
  {es : List (Event V ε)} {u u' : V} {c : Prog V P σ ε} {r : Recorder} {ms : List MemoRef}

omit [LawfulBEq V] in
/-- A derived value hears of nothing where only its own publisher is at work. -/
theorem Linked.heard_eq_nil {t : Thread V P σ ε} (h : Linked δ T S feeds held vals w t)
    (halone : ∀ p, p ≠ δ.value → signals p es = []) : δ.heard feeds es = [] := by
  refine Recipe.heard_eq_nil fun s F v hF hcalled => ?_
  rw [halone _ (h.root (h.wired.sided hF)).2] at hcalled
  exact List.not_mem_nil hcalled

/-- A recorder that is attached to a derived value leaves it as it is, and gets what it tells. -/
theorem Following.attaches_own (h : Following δ T S feeds held vals w ⟨.run (.ret u), []⟩)
    (hcalm : Calmly body w ⟨.run (.ret u), []⟩) (hbodies : ∀ c, (body c).Within (δ.terms T) S)
    (hread : .read δ.value ∈ S) :
    ∃ (r : Recorder) (es : List (Event V ε)) (w' : World V P σ ε),
      (∀ k, CalmRun body w (.start (Recorder.attach δ.subscribe k)) es w' (.start (k r))) ∧
      Following δ T S feeds held vals w' ⟨.run (.ret u), []⟩ ∧
      .memo r.recorded ∈ w'.scope (δ.hidden feeds) ∧
      r.Streams body (δ.watched T [r.recorded]) S δ.value id (δ.rule.result vals) w' := by
  obtain ⟨d, hd, hcur⟩ := h.value
  have hvalue : (Node.rx δ.value : Node (Routine V P σ ε) .reactive).Shows δ.value id := .rx
  obtain ⟨r, l, es, w', hrun, ⟨hroot, hshows⟩, hjoined⟩ :=
    hvalue.attaches hcalm hd h.exposed fun c => h.plain (hbodies c)
  have hwithin : (Recorder.attach δ.subscribe fun _ => .ret u).Within (δ.terms T) S :=
    Recorder.attach_within hvalue hread fun _ => .ret u
  obtain ⟨vals', h', hechoed⟩ := (h.next hwithin).run (hcalm.start rfl _) trivial hbodies
    (fun _ hno => hno.elim) (hrun fun _ => .ret u)
  have hknown := hechoed.known
  rw [h.heard_eq_nil fun p hp => hjoined.alone p (hroot ▸ hp)] at hknown
  obtain rfl : vals' = vals := hknown
  refine ⟨r, es, w', hrun, h', ⟨hjoined.attached.made _ hjoined.attached.recorded_mem,
    hjoined.not_mem_hidden h.world.made⟩, ?_⟩
  have hcalm' : Calmly body w' ⟨.run (.ret u), []⟩ := (hcalm.start rfl _).run (hrun fun _ => .ret u)
  have hcurrent := (hrun fun _ => .ret u).current_eq hd (hjoined.quiet _)
  have hbase := hjoined.attached.base
  have hstreams := hjoined.attached.streams hcalm' (hroot ▸ hcurrent)
    (fun c => (hbodies c).watch [r.recorded]) (h.scope_subset.trans hbase)
    (hbase (h.hidden_subset .bag)) fun m hm => Or.inl (List.mem_singleton.1 hm)
  rw [hroot, hshows, hcur] at hstreams
  exact hstreams

/-- A recorder that gets what a derived value tells has the results of all that came through on the
sides of the derived value, without those equal to the one before. -/
theorem Following.tells (h : Following δ T S feeds held vals w ⟨.run (.ret u), []⟩)
    (hcalm : Calmly body w ⟨.run (.ret u), []⟩) (hbodies : ∀ c, (body c).Within (δ.terms T) S)
    (hms : ∀ m ∈ ms, .memo m ∈ w.scope (δ.hidden feeds))
    (hr : r.Streams body (δ.watched T ms) S δ.value id (δ.rule.result vals) w)
    (hc : c.Within (δ.watched T ms) S) (hstarts : ∀ c, starts c → c.Within (δ.watched T ms) S)
    (hrun : Run body starts Thread.Calm w (.start c) es w' ⟨.run (.ret u'), []⟩)
    (hkept : w'.subscriptions.get? r.subscription.index ≠ some none) :
    w'.memos.get? r.recorded.index = some (unrepeated (δ.results vals (δ.heard feeds es))) := by
  have hin : ∀ c : Prog V P σ ε, c.Within (δ.watched T ms) S →
      c.Within (δ.terms T) (w.scope (δ.hidden feeds)) := fun c hc =>
    hc.unwatch h.base (Or.inl fun _ _ hdisposes => hdisposes) fun m hm => Or.inr (hms m hm)
  obtain ⟨_, -, hechoed⟩ := (h.widen.next (hin c hc)).run (hcalm.start rfl c) trivial
    (fun c => (hbodies c).mono h.base) (fun c hc => hin c (hstarts c hc)) hrun
  -- no result is told twice in a row
  rw [hr starts c es w' u' hc hstarts hrun hkept, delivered, List.map_id, hechoed.told]
  exact congrArg some (List.destutter_idem _ _)

end Recording

/-! ## The order of deliveries -/

/-- A combination follows the order of deliveries: if it is made while nothing is being delivered
and a recorder is attached to it right then, then whatever is run without a panic, whenever a call
of a client has come back and the recorder was not detached, it has what the function makes of the
values that the sources showed at first and of every pair after a delivery to one of the two
subscriptions of the combination, in the order of these deliveries, without results equal to the one
before. -/
theorem combination_follows_deliveries [BEq V] [LawfulBEq V] {body : P → Prog V P σ ε}
    {T : Terms V P σ ε} {w₀ : World V P σ ε} {u : V} {a b : Node (Routine V P σ ε) .reactive}
    {p q : PublisherRef} {f g : V → V} (h : w₀.Unforged body T [] fun _ => .ret u)
    (hcalm : Calmly body w₀ ⟨.run (.ret u), []⟩) (ha : a.Shows p f) (hb : b.Shows q g)
    (hp : ∃ s, w₀.publisher? p = some s) (hq : ∃ s, w₀.publisher? q = some s) (m : V → V → V) :
    ∃ x y es₁ w₁ s₁ s₂ id₁ id₂ es₂ w₂ r,
      (a.get.Reads body w₀ x ∧ b.get.Reads body w₀ y) ∧
      (∀ next : Derived → Prog V P σ ε, CalmRun body w₀
        (.start (Derived.combine a b (fun x y => .ret (m x y)) next)) es₁ w₁
        (.start (next w₀.derives))) ∧
      w₁.bags.get? w₀.derives.sources.index = some [s₁, s₂] ∧
      w₁.subscriptions.get? s₁.index = some (some (.detach p id₁)) ∧
      w₁.subscriptions.get? s₂.index = some (some (.detach q id₂)) ∧
      (p = q → id₁ ≠ id₂) ∧
      (∀ next : Recorder → Prog V P σ ε, CalmRun body w₁
        (.start (Recorder.attach w₀.derives.subscribe next)) es₂ w₂ (.start (next r))) ∧
      ∀ (starts : Prog V P σ ε → Prop) c es w' u',
        c.Within (w₀.derives.watched T [r.recorded]) (w₀.handed w₀.derives) →
        (∀ c, starts c →
          c.Within (w₀.derives.watched T [r.recorded]) (w₀.handed w₀.derives)) →
        Run body starts Thread.Calm w₂ (.start c) es w' ⟨.run (.ret u'), []⟩ →
        w'.subscriptions.get? r.subscription.index ≠ some none →
        w'.memos.get? r.recorded.index =
          some (unrepeated (combinations m f g x y (deliveries p id₁ q id₂ es))) := by
  obtain ⟨s, hs⟩ := hp
  obtain ⟨s', hs'⟩ := hq
  have hbodies : ∀ c, (body c).Within (w₀.derives.terms T) (w₀.handed w₀.derives) := fun c =>
    (h.bodies c).mono Set.subset_union_left
  obtain ⟨F, F', s₁, s₂, es₁, w₁, hmade, hbag, hsub₁, hsub₂, h₁⟩ :=
    h.combines hcalm ha hb hs hs' m
  have hcalm₁ : Calmly body w₁ ⟨.run (.ret u), []⟩ :=
    (hcalm.start rfl _).run (hmade fun _ => .ret u)
  obtain ⟨r, es₂, w₂, hattach, h₂, hrecord, hstreams⟩ :=
    h₁.attaches_own hcalm₁ hbodies (Or.inr rfl)
  have hcalm₂ : Calmly body w₂ ⟨.run (.ret u), []⟩ :=
    (hcalm₁.start rfl _).run (hattach fun _ => .ret u)
  have hsides : Side.left ≠ Side.right := nofun
  have hleft : Side.pick (some F) (some F') .left = some F := rfl
  have hright : Side.pick (some F) (some F') .right = some F' := rfl
  have hids : p = q → F.id ≠ F'.id := h₁.wired.ids hleft hright hsides
  refine ⟨f s.current, g s'.current, es₁, w₁, s₁, s₂, F.id, F'.id, es₂, w₂, r,
    ⟨ha.reads hs, hb.reads hs'⟩, hmade, hbag, hsub₁, hsub₂, hids, hattach, ?_⟩
  intro starts c es w' u' hc hstarts hrun hkept
  have htold := h₂.tells hcalm₂ hbodies (fun m hm => List.mem_singleton.1 hm ▸ hrecord) hstreams hc
    hstarts hrun hkept
  rw [Recipe.heard_pair hleft hright, Recipe.results_pair rfl] at htold
  exact htold

/-! ## The larger of a box and its double -/

/-- The larger one of the box and the doubled box. -/
def larger (next : Derived → Prog Nat Empty Unit Unit) : Prog Nat Empty Unit Unit :=
  Derived.combine (.rx ⟨0⟩) doubled (fun x y => .ret (max x y)) next

/-- An observer that writes 5 to the box when it is told 8. -/
def returning : Routine Nat Empty Unit Unit := fun v =>
  if v = 8 then .publish ⟨0⟩ 5 (.ret v) else .ret v

/-- A client that attaches such an observer to the larger value and writes 3 to the box. -/
def feedback : Prog Nat Empty Unit Unit :=
  .attach ⟨1⟩ [] returning fun _ => .publish ⟨0⟩ 3 (.ret 0)

/-- Both sides are built on the same box, which is 1 at first. The 3 is delivered to either side
before the 4 that it becomes, and then the larger value is 8, of which an observer makes a 5. What
is larger is recorded after every one of these deliveries, unless it stays. -/
theorem combination_follows_deliveries_larger :
    ∃ (w₀ w₁ w₂ w' : World Nat Empty Unit Unit) (es₁ es₂ es : List (Event Nat Unit)) (r : Recorder),
      w₀.Unforged nofun .storeless [] (fun _ => .ret 0) ∧ Calmly nofun w₀ ⟨.run (.ret 0), []⟩ ∧
      (∀ next, CalmRun nofun w₀ (.start (larger next)) es₁ w₁ (.start (next w₀.derives))) ∧
      (∀ next, CalmRun nofun w₁ (.start (Recorder.attach w₀.derives.subscribe next)) es₂ w₂
        (.start (next r))) ∧
      CalmRun nofun w₂ (.start feedback) es w' ⟨.run (.ret 0), []⟩ ∧
      w'.subscriptions.get? r.subscription.index ≠ some none ∧
      deliveries ⟨0⟩ 1 ⟨0⟩ 2 es =
        [(.left, 3), (.right, 3), (.left, 4), (.right, 4), (.left, 5), (.right, 5)] ∧
      w'.memos.get? r.recorded.index = some [2, 3, 6, 8, 10] := by
  obtain ⟨w₀, es₀, w₁, es₁, w₂, es₂, w', es, hmade, hpubs, hsubs, hcombine, hattach, hfeed, hbag,
      hfirst, hsecond, hsubs', hdelivered⟩ :
      ∃ (w₀ : World Nat Empty Unit Unit) (es₀ : List (Event Nat Unit))
        (w₁ : World Nat Empty Unit Unit) (es₁ : List (Event Nat Unit))
        (w₂ : World Nat Empty Unit Unit) (es₂ : List (Event Nat Unit))
        (w' : World Nat Empty Unit Unit) (es : List (Event Nat Unit)),
      Thread.advance nofun 8 (World.new ()) (.start (nudged (.ret 0))) =
        some (w₀, ⟨.run (.ret 0), []⟩, es₀) ∧
      w₀.publishers = ⟨[nudgedBox]⟩ ∧ w₀.subscriptions = ⟨[some (.detach ⟨0⟩ 0)]⟩ ∧
      Thread.advance nofun 31 w₀ (.start (larger fun _ => .ret 0)) =
        some (w₁, ⟨.run (.ret 0), []⟩, es₁) ∧
      Thread.advance nofun 9 w₁ (.start (Recorder.attach w₀.derives.subscribe fun _ => .ret 0)) =
        some (w₂, ⟨.run (.ret 0), []⟩, es₂) ∧
      Thread.advance nofun 97 w₂ (.start feedback) = some (w', ⟨.run (.ret 0), []⟩, es) ∧
      w₁.bags.get? w₀.derives.sources.index = some [⟨1⟩, ⟨2⟩] ∧
      w₁.subscriptions.get? 1 = some (some (.detach ⟨0⟩ 1)) ∧
      w₁.subscriptions.get? 2 = some (some (.detach ⟨0⟩ 2)) ∧
      w'.subscriptions = ⟨[some (.detach ⟨0⟩ 0), some (.detach ⟨0⟩ 1), some (.detach ⟨0⟩ 2),
        some (.detach ⟨1⟩ 0), some (.detach ⟨1⟩ 1)]⟩ ∧
      deliveries ⟨0⟩ 1 ⟨0⟩ 2 es =
        [(.left, 3), (.right, 3), (.left, 4), (.right, 4), (.left, 5), (.right, 5)] :=
    ⟨_, _, _, _, _, _, _, _, rfl, rfl, rfl, rfl, rfl, rfl, rfl, rfl, rfl, rfl, rfl⟩
  have hbox : w₀.publisher? ⟨0⟩ = some nudgedBox := congrArg (Heap.get? · 0) hpubs
  have hstirring := nudgedBox_unforged hpubs hsubs
  have hforged : w₀.Unforged nofun .storeless [] fun _ => .ret 0 :=
    ⟨hstirring.world, hstirring.bodies, hstirring.stack, .ret 0⟩
  have hdoubled : doubled.Shows ⟨0⟩ ((2 * ·) ∘ id) := .view _ _ .rx
  have hcalm : Calmly nofun w₀ ⟨.run (.ret 0), []⟩ := ⟨(), _, es₀, .of_advance hmade⟩
  obtain ⟨x, y, es₁', w₁', s₁, s₂, id₁, id₂, es₂', w₂', r, ⟨hx, hy⟩, hmade', hbag', hsub₁, hsub₂, -,
      hattached, hrecords⟩ :=
    combination_follows_deliveries hforged hcalm .rx hdoubled ⟨_, hbox⟩ ⟨_, hbox⟩ max
  -- the sources show 1 and 2, and everything comes about as computed
  obtain ⟨-, -, hone⟩ := Run.unique (Node.Shows.rx.reads hbox .ret []) rfl (hx .ret []) rfl trivial
  obtain rfl : x = 1 := Prog.ret.inj (Focus.run.inj (congrArg Thread.focus hone))
  obtain ⟨-, -, htwo⟩ := Run.unique (hdoubled.reads hbox .ret []) rfl (hy .ret []) rfl trivial
  obtain rfl : y = 2 := Prog.ret.inj (Focus.run.inj (congrArg Thread.focus htwo))
  obtain ⟨rfl, rfl, -⟩ :=
    Run.unique (.of_advance hcombine) rfl (hmade' fun _ => .ret 0) rfl trivial
  obtain ⟨rfl, rfl, -⟩ :=
    Run.unique (.of_advance hattach) rfl (hattached fun _ => .ret 0) rfl trivial
  obtain ⟨rfl, hrest⟩ := List.cons.inj (Option.some.inj (hbag'.symm.trans hbag))
  obtain rfl := (List.cons.inj hrest).1
  obtain rfl : 1 = id₁ := by simpa using hfirst.symm.trans hsub₁
  obtain rfl : 2 = id₂ := by simpa using hsecond.symm.trans hsub₂
  have hkept : w'.subscriptions.get? r.subscription.index ≠ some none := by
    intro hnone
    rw [hsubs'] at hnone
    simpa using List.mem_of_getElem? hnone
  have hread : .read ⟨1⟩ ∈ w₀.handed w₀.derives := by
    refine Or.inr ?_
    rw [World.derives, hpubs]
    rfl
  have hwrite : .publish ⟨0⟩ ∈ w₀.handed w₀.derives :=
    Or.inl ⟨(List.getElem?_eq_some_iff.1 hbox).1, Set.notMem_empty _⟩
  have hfeedback : feedback.Within (w₀.derives.watched .storeless [r.recorded])
      (w₀.handed w₀.derives) := by
    refine .attach hread (fun v => ?_) fun _ => .publish hwrite (.ret 0)
    show (returning v).Within _ _
    unfold returning
    split
    · exact .publish hwrite (.ret v)
    · exact .ret v
  have hrecorded := hrecords (fun _ => False) feedback es w' 0 hfeedback
    (fun _ hno => (hno : False).elim) (.of_advance hfeed) hkept
  rw [hdelivered] at hrecorded
  exact ⟨w₀, w₁', w₂', w', es₁', es₂', es, r, hforged, hcalm, hmade', hattached, .of_advance hfeed,
    hkept, hdelivered, hrecorded⟩

end ReactiveCells
