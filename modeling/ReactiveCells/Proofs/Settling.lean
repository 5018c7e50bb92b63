import Mathlib.Data.List.Nodup
import Mathlib.Data.List.Perm.Subperm
import ReactiveCells.Proofs.Connecting

/-!
# Settling — derived values are what their rules make of their sources

Whatever goes on while a derived value is made and afterwards, in every state it is followed or on
its way there (`Settling`). When a call of a client has come back nothing is being delivered, so no
side has yet to be called: every side that is still subscribed knows the value that its source
holds, and the derived value is what its rule makes of these values.

It does not matter what the sources are, as long as they are towers built on publishers; both may be
built on the same one. Nor does it matter what their observers, those of the derived value or
anybody else do, or where the derived value is made.

Main statement: `derived_values_settle`.
-/

namespace ReactiveCells

variable {V P σ ε : Type} [BEq V]

/-- Whether a derived value is subscribed to `n` sources and none of the subscriptions is
disposed. -/
def Derived.Live (d : Derived) (n : Nat) (w : World V P σ ε) : Prop :=
  ∃ ss, w.bags.get? d.sources.index = some ss ∧ ss.length = n ∧
    ∀ x ∈ ss, w.subscriptions.get? x.index ≠ some none

/-- Sources that are to be subscribed to. -/
structure Recipe.Plan (δ : Recipe V) (feeds : Side → Option (Feed V))
    (ns : List (Side × Node (Routine V P σ ε) .reactive)) : Prop where
  sided : ∀ e ∈ ns, e.1 ∈ δ.rule.sides
  fresh : ∀ e ∈ ns, feeds e.1 = none
  shows : ∀ e ∈ ns, e.2.Shows (δ.root e.1) (δ.view e.1)
  nodup : (ns.map (·.1)).Nodup

/-- A state of a derived value that is being subscribed to a source, or is followed. -/
inductive Settling (δ : Recipe V) (T : Terms V P σ ε) (S : Scope) (w : World V P σ ε) :
    Thread V P σ ε → Prop where
  | registering {feeds : Side → Option (Feed V)} {held : Side → Option SubscriptionRef}
      {vals : Side → V} {t : Thread V P σ ε} {st : List (Frame V P σ ε)} {s : Side} {F : Feed V}
      {c : Prog V P σ ε} {ns : List (Side × Node (Routine V P σ ε) .reactive)} :
      Following δ T S feeds held vals w (t.over st) → feeds s = some F → held s = none →
      c.Within (δ.terms T) S → δ.Plan feeds ns →
      Settling δ T S w (t.over (.register (δ.root s) F.id (δ.filing (δ.connecting c ns)) :: st))
  | following {feeds : Side → Option (Feed V)} {held : Side → Option SubscriptionRef}
      {vals : Side → V} {t : Thread V P σ ε} :
      Following δ T S feeds held vals w t → Settling δ T S w t

section Stages

variable {δ : Recipe V} {T : Terms V P σ ε} {S : Scope} {feeds : Side → Option (Feed V)}
  {held : Side → Option SubscriptionRef} {vals : Side → V} {body : P → Prog V P σ ε}
  {w w' : World V P σ ε} {t t' : Thread V P σ ε} {es es' : List (Event V ε)} {s : Side}
  {c : Prog V P σ ε} {st : List (Frame V P σ ε)}
  {ns : List (Side × Node (Routine V P σ ε) .reactive)}

/-! ## From move to move -/

/-- Sources are subscribed to one after the other. -/
theorem Following.connects (h : Following δ T S feeds held vals w ⟨.run c, st⟩)
    (hc : c.Within (δ.terms T) S) (hplan : δ.Plan feeds ns)
    (hcalm : Calmly body w ⟨.run (δ.connecting c ns), st⟩) :
    Soon body (fun _ w t => Settling δ T S w t ∧ Calmly body w t) es w
      ⟨.run (δ.connecting c ns), st⟩ := by
  cases ns with
  | nil => exact .now ⟨.following h, hcalm⟩
  | cons e ns =>
      obtain ⟨s, n⟩ := e
      have hs := hplan.sided _ List.mem_cons_self
      have hnew := hplan.fresh _ List.mem_cons_self
      obtain ⟨hnotin, hnodup⟩ := List.nodup_cons.1 hplan.nodup
      obtain ⟨es', w', t', F, hrun, ht', hafter⟩ := h.connect hs hnew
        (hplan.shows _ List.mem_cons_self) (δ.filing (δ.connecting c ns)) hcalm
      have hrest : δ.Plan (Function.update feeds s (some F)) ns := by
        refine ⟨fun e he => hplan.sided e (List.mem_cons_of_mem _ he), fun e he => ?_,
          fun e he => hplan.shows e (List.mem_cons_of_mem _ he), hnodup⟩
        have hne : e.1 ≠ s := fun hes => hnotin (List.mem_map.2 ⟨e, he, hes⟩)
        exact (Function.update_of_ne hne _ _).trans (hplan.fresh e (List.mem_cons_of_mem _ he))
      have hF : Function.update feeds s (some F) s = some F := Function.update_self _ _ _
      have hsettling := Settling.registering hafter hF (h.unheld hnew) hc hrest
      exact .of_run hrun (.now ⟨hsettling, hcalm.run hrun⟩)

/-- Every move leads soon to a state in which the derived value is settling. -/
theorem Settling.move [LawfulBEq V] (h : Settling δ T S w t)
    (hbodies : ∀ c, (body c).Within (δ.terms T) S) (hcalm : Calmly body w t) (ht : t.Calm)
    (hm : Thread.Moves body w t es' w' t') (ht' : t'.Calm) :
    Soon body (fun _ w t => Settling δ T S w t ∧ Calmly body w t) (es ++ es') w' t' := by
  have hcalm' : Calmly body w' t' := hcalm.step hm ht'
  cases h with
  | following h =>
      have hreg := fun p q (hq : w.publisher? p = some q) => hcalm.regular hq
      have hover : Following δ T S _ _ _ w (t.over []) := t.over_nil.symm ▸ h
      obtain ⟨es'', w'', t'', vals', hrun, hafter, -⟩ :=
        hover.move hbodies (t.over_nil.symm ▸ hreg) hm ht'
      rw [Thread.over_nil] at hafter
      exact .of_run hrun (.now ⟨.following hafter, hcalm'.run hrun⟩)
  | @registering feeds held vals t₁ st s F c ns h hF hheld hc hplan =>
      -- observers run on top of the registration as if it were not there, or it has come back
      rcases hm.above ht with ⟨t₂, rfl, hm₁⟩ | ⟨u, rfl, hm₁⟩
      · have hreg := fun p q (hq : w.publisher? p = some q) => (hcalm.regular hq).without rfl
        obtain ⟨es'', w'', t'', vals', hrun, hafter, -⟩ := h.move hbodies hreg hm₁ ht'
        have hover := hrun.over (.register (δ.root s) F.id (δ.filing (δ.connecting c ns)) :: st)
        exact .of_run hover (.now ⟨.registering hafter hF hheld hc hplan, hcalm'.run hover⟩)
      · -- the registration has come back
        obtain ⟨es'', w'', x, hrun, hafter⟩ := h.file hF hheld hc hm₁
        exact .of_run hrun (hafter.connects hc hplan (hcalm'.run hrun))

/-- A client that starts a program goes on with the derived value. -/
theorem Following.next {u : V} (h : Following δ T S feeds held vals w ⟨.run (.ret u), []⟩)
    (hc : c.Within (δ.terms T) S) : Following δ T S feeds held vals w (.start c) :=
  ⟨⟨h.wired, h.roots, h.world, h.base, nofun, h.value, h.noted, h.slot,
      fun hF => (h.fed hF).same (h.fed hF).primed rfl rfl nofun, h.known⟩, hc.mono h.base,
    fun hF => (h.attentive hF).same rfl (fun _ _ => rfl) rfl,
    fun hF hq => (h.numbered hF hq).same rfl fun _ hd => hd⟩

/-- Clients may use all that is not hidden. -/
theorem Following.widen (h : Following δ T S feeds held vals w t) :
    Following δ T (w.scope (δ.hidden feeds)) feeds held vals w t :=
  ⟨⟨h.wired, fun s hs => h.base (h.roots s hs), h.world, subset_rfl, h.stack, h.value, h.noted,
      h.slot, h.fed, h.known⟩, h.focus, h.attentive, h.numbered⟩

/-- When a call has come back a derived value has been made. -/
theorem Settling.follows {u : V} (h : Settling δ T S w ⟨.run (.ret u), []⟩) :
    ∃ feeds held vals, Following δ T S feeds held vals w ⟨.run (.ret u), []⟩ := by
  generalize ht : (⟨.run (.ret u), []⟩ : Thread V P σ ε) = t at h
  cases h with
  | registering =>
      exact absurd (congrArg Thread.stack ht).symm (List.append_ne_nil_of_right_ne_nil _ nofun)
  | following h =>
      subst ht
      exact ⟨_, _, _, h⟩

/-- A client that starts a program finds the derived value settled. -/
theorem Settling.next {u : V} (h : Settling δ T S w ⟨.run (.ret u), []⟩)
    (hc : c.Within (δ.terms T) S) : Settling δ T S w (.start c) := by
  obtain ⟨feeds, held, vals, h⟩ := h.follows
  exact .following (h.next hc)

/-! ## When a call has come back -/

/-- A derived value that is subscribed to as many sources as it has is subscribed to all. -/
theorem Linked.held_of_live (h : Linked δ T S feeds held vals w t)
    (hlive : δ.Live δ.rule.sides.length w) (hs : s ∈ δ.rule.sides) :
    ∃ F x, feeds s = some F ∧ held s = some x ∧ w.subscriptions.get? x.index ≠ some none := by
  obtain ⟨ss, hss, hnodup, hsome⟩ := h.slot
  obtain ⟨ss', hss', hlen, hlive⟩ := hlive
  obtain rfl := Option.some.inj (hss.symm.trans hss')
  -- as many subscriptions as sides, all different and each of a side: every side has one
  have hsub : ss.map some ⊆ δ.rule.sides.map held := by
    intro o ho
    obtain ⟨x, hx, rfl⟩ := List.mem_map.1 ho
    obtain ⟨s', hs'⟩ := hsome x hx
    obtain ⟨F, hF⟩ := h.known hs'
    exact List.mem_map.2 ⟨s', h.wired.sided hF, hs'⟩
  have hperm : (ss.map some).Perm (δ.rule.sides.map held) := by
    refine ((List.Nodup.map (fun _ _ => Option.some.inj) hnodup).subperm hsub).perm_of_length_le ?_
    rw [List.length_map, List.length_map, hlen]
  obtain ⟨x, hx, hxs⟩ := List.mem_map.1 (hperm.mem_iff.2 (List.mem_map_of_mem hs))
  obtain ⟨F, hF⟩ := h.known hxs.symm
  exact ⟨F, x, hF, hxs.symm, hlive x hx⟩

/-- When nothing is being delivered a side whose subscription is not disposed knows the value of its
source. -/
theorem Following.knows_of_held {u : V} {x : SubscriptionRef}
    (h : Following δ T S feeds held vals w ⟨.run (.ret u), []⟩)
    (hcalm : Calmly body w ⟨.run (.ret u), []⟩) (hx : held s = some x)
    (hkept : w.subscriptions.get? x.index ≠ some none) :
    ∃ q, w.publisher? (δ.root s) = some q ∧ vals s = δ.view s q.current := by
  obtain ⟨F, hF⟩ := h.known hx
  have hfed := h.fed hF
  have hdetaches := (hfed.entry x hx).resolve_right hkept
  obtain ⟨q, hq, r, hr, -, hreact⟩ := hfed.registered (Or.inr ⟨_, hdetaches⟩)
  have hreg := hcalm.regular hq
  have hset : Thread.Settled (δ.root s) (⟨.run (.ret u), []⟩ : Thread V P σ ε) := ⟨nofun, rfl⟩
  rw [Publisher.registrations_of_empty (hreg.intact.idle hset).2] at hr
  have hval := (h.attentive hF q hq ⟨r, hr, hreact⟩).settled hreg.orderly hset
  exact ⟨q, hq, hval.through_eq.symm.trans (congrFun (h.wired.view hF) _)⟩

/-- When nothing is being delivered a side that is subscribed knows the value of its source. -/
theorem Following.knows {u : V} (h : Following δ T S feeds held vals w ⟨.run (.ret u), []⟩)
    (hcalm : Calmly body w ⟨.run (.ret u), []⟩) (hlive : δ.Live δ.rule.sides.length w)
    (hs : s ∈ δ.rule.sides) :
    ∃ q, w.publisher? (δ.root s) = some q ∧ vals s = δ.view s q.current := by
  obtain ⟨F, x, -, hx, hkept⟩ := h.held_of_live hlive hs
  exact h.knows_of_held hcalm hx hkept

/-- When nothing is being delivered a derived value is what its rule makes of its sources. -/
theorem Settling.settled {u : V} (h : Settling δ T S w ⟨.run (.ret u), []⟩)
    (hcalm : Calmly body w ⟨.run (.ret u), []⟩) (hlive : δ.Live δ.rule.sides.length w) :
    ∃ (vals : Side → V) (d : Publisher V (Observer V P σ ε)), w.publisher? δ.value = some d ∧
      d.current = δ.rule.result vals ∧ ∀ s ∈ δ.rule.sides,
        ∃ q, w.publisher? (δ.root s) = some q ∧ vals s = δ.view s q.current := by
  obtain ⟨feeds, held, vals, h⟩ := h.follows
  obtain ⟨d, hd, hcur⟩ := h.value
  exact ⟨vals, d, hd, hcur, fun s hs => h.knows hcalm hlive hs⟩

end Stages

/-! ## Making a derived value -/

/-- The derived value that is made next. -/
def World.derives (w : World V P σ ε) : Derived :=
  ⟨⟨w.publishers.size⟩, ⟨w.bags.size⟩⟩

/-- What programs that run on in a world may use once they were handed a new derived value: all that
exists, and the derived value to be read, subscribed to and disposed. -/
def World.handed (w : World V P σ ε) (d : Derived) : Scope :=
  w.scope ∅ ∪ {.read d.value}

/-- Whether everything that may run on in a world keeps to what exists in it, where a derived value
is about to be made and `k` goes on with it. -/
structure World.Unforged (body : P → Prog V P σ ε) (T : Terms V P σ ε) (w : World V P σ ε)
    (st : List (Frame V P σ ε)) (k : Derived → Prog V P σ ε) : Prop where
  world : w.Within (w.derives.terms T) (fun _ _ => False) ∅
  bodies : ∀ c, (body c).Within (w.derives.terms T) (w.scope ∅)
  stack : ∀ fr ∈ st, fr.Within (w.derives.terms T) (fun _ _ => False) (w.scope ∅)
  goes_on : (k w.derives).Within (w.derives.terms T) (w.handed w.derives)

/-- A recipe for the derived value that is made next. -/
def World.recipe (w : World V P σ ε) (rule : Rule V) (root : Side → PublisherRef)
    (view : Side → V → V) : Recipe V :=
  { w.derives with rule, root, view }

/-- One thing for either side. -/
def Side.pick {α : Type} (x y : α) : Side → α
  | .left => x
  | .right => y

section Making

variable {body : P → Prog V P σ ε} {starts : Prog V P σ ε → Prop} {T : Terms V P σ ε}
  {w w' : World V P σ ε} {st : List (Frame V P σ ε)} {k : Derived → Prog V P σ ε}
  {es : List (Event V ε)} {n a b : Node (Routine V P σ ε) .reactive} {p q : PublisherRef}
  {f g : V → V}

/-- A derived value that follows one source reads it, is made, and is subscribed to it. -/
theorem follow_eq (n : Node (Routine V P σ ε) .reactive) (p : PublisherRef) (g f : V → V)
    (k : Derived → Prog V P σ ε) :
    Derived.follow n (Node.pureRoutine f) k = n.get fun (v : V) =>
      .atom (.newPublisher none (f v)) fun (value : PublisherRef) =>
        .atom .newBag fun (sources : BagRef) =>
          Recipe.connecting ⟨⟨value, sources⟩, .image f, fun _ => p, fun _ => g⟩
            (k ⟨value, sources⟩) [(.left, n)] :=
  rfl

/-- A derived value that follows two sources reads both, is made, and is subscribed to both. -/
theorem combine_eq (a b : Node (Routine V P σ ε) .reactive) (p q : PublisherRef) (f g : V → V)
    (h : V → V → V) (k : Derived → Prog V P σ ε) :
    Derived.combine a b (fun x y => .ret (h x y)) k = a.get fun (v : V) => b.get fun (u : V) =>
      .atom (.newMemo [v, u]) fun (latest : MemoRef) =>
        .atom (.newPublisher none (h v u)) fun (value : PublisherRef) =>
          .atom .newBag fun (sources : BagRef) =>
            Recipe.connecting ⟨⟨value, sources⟩, .pair latest h, Side.pick p q, Side.pick f g⟩
              (k ⟨value, sources⟩) [(.left, a), (.right, b)] :=
  rfl

/-- A world in which a derived value has just been computed. -/
def World.computed (w : World V P σ ε) (memos : Heap (List V)) (v : V) : World V P σ ε :=
  { w with memos, publishers := w.publishers.alloc (.new none v), bags := w.bags.alloc [] }

/-- A derived value that has just been computed is followed. -/
theorem World.Unforged.computed (h : w.Unforged body T st k) (rule : Rule V)
    (root : Side → PublisherRef) (view : Side → V → V) (vals : Side → V) {memos : Heap (List V)}
    (hsize : w.memos.size ≤ memos.size)
    (hnotes : ∀ m ∈ rule.notes, w.memos.size ≤ m.index ∧ m.index < memos.size)
    (hroots : ∀ s ∈ rule.sides, ∃ q, w.publisher? (root s) = some q)
    (hnoted : rule.Noted (w.computed memos (rule.result vals)) vals) :
    Following (w.recipe rule root view) T (w.handed w.derives) (fun _ => none) (fun _ => none) vals
      (w.computed memos (rule.result vals)) ⟨.run (k w.derives), st⟩ := by
  have hgrow : w.Grows (w.computed memos (rule.result vals)) :=
    ⟨(Heap.size_alloc _ _).ge.trans' (Nat.le_succ _), hsize,
      (Heap.size_alloc _ _).ge.trans' (Nat.le_succ _)⟩
  have hvalue : (w.computed memos (rule.result vals)).publisher? w.derives.value =
      some (.new none (rule.result vals)) := Heap.get?_alloc_self _ _
  refine Following.init (δ := w.recipe rule root view) h.world hgrow rfl ?_ rfl rfl rfl hnotes ?_
    ⟨_, hvalue, rfl⟩ hnoted (Heap.get?_alloc_self _ _) h.stack h.goes_on
  · intro q s' hs' r hr
    rcases Heap.of_get?_alloc_eq_some _ _ _ _ hs' with hold | rfl
    · exact ⟨s', hold, hr⟩
    · exact nomatch hr
  · intro s hs
    obtain ⟨q, hq⟩ := hroots s hs
    exact ⟨(List.getElem?_eq_some_iff.1 hq).1, nofun⟩

/-- A derived value that follows one source is settling from the start. -/
theorem World.Unforged.follow (h : w.Unforged body T st k) (hn : n.Shows p g)
    (hp : ∃ r, w.publisher? p = some r) (f : V → V)
    (hcalm : Calmly body w ⟨.run (Derived.follow n (Node.pureRoutine f) k), st⟩) :
    Soon body (fun _ w' t => Settling (w.recipe (.image f) (fun _ => p) fun _ => g) T
        (w.handed w.derives) w' t ∧ Calmly body w' t) [] w
      ⟨.run (Derived.follow n (Node.pureRoutine f) k), st⟩ := by
  obtain ⟨r, hr⟩ := hp
  let δ : Recipe V := w.recipe (.image f) (fun _ => p) fun _ => g
  have hafter := h.computed (.image f) (fun _ => p) (fun _ => g) (fun _ => g r.current)
    (Nat.le_refl _) nofun (fun _ _ => ⟨r, hr⟩) trivial
  have hmade : CalmRun body w ⟨.run (Derived.follow n (Node.pureRoutine f) k), st⟩ ([] ++ [])
      (w.computed w.memos (f (g r.current)))
      ⟨.run (δ.connecting (k w.derives) [(.left, n)]), st⟩ := by
    rw [follow_eq n p g]
    exact (hn.reads hr _ st).trans (Run.of_advance (n := 2) rfl)
  have hplan : δ.Plan (fun _ => none) [(.left, n)] := by
    refine ⟨?_, fun _ _ => rfl, ?_, List.nodup_singleton _⟩
    · exact fun e he => List.mem_singleton.1 he ▸ List.mem_singleton_self _
    · exact fun e he => List.mem_singleton.1 he ▸ hn
  exact .of_run hmade (hafter.connects h.goes_on hplan (hcalm.run hmade))

/-- The world in which a combination of two sources that show `x` and `y` has just been computed. -/
def World.combined (w : World V P σ ε) (m : V → V → V) (x y : V) : World V P σ ε :=
  w.computed (w.memos.alloc [x, y]) (m x y)

/-- A combination is computed from what its sources show before it is subscribed to them. -/
theorem combine_run {r r' : Publisher V (Observer V P σ ε)} (ha : a.Shows p f) (hb : b.Shows q g)
    (hr : w.publisher? p = some r) (hr' : w.publisher? q = some r') (m : V → V → V)
    (k : Derived → Prog V P σ ε) :
    CalmRun body w ⟨.run (Derived.combine a b (fun x y => .ret (m x y)) k), st⟩ []
      (w.combined m (f r.current) (g r'.current))
      ⟨.run (Recipe.connecting
        (w.recipe (.pair ⟨w.memos.size⟩ m) (Side.pick p q) (Side.pick f g)) (k w.derives)
        [(.left, a), (.right, b)]), st⟩ := by
  rw [combine_eq a b p q f g]
  exact (ha.reads hr _ st).trans ((hb.reads hr' _ st).trans (Run.of_advance (n := 3) rfl))

/-- A combination that has just been computed is followed. -/
theorem World.Unforged.combined {r r' : Publisher V (Observer V P σ ε)}
    (h : w.Unforged body T st k) (hr : w.publisher? p = some r) (hr' : w.publisher? q = some r')
    (m : V → V → V) :
    Following (w.recipe (.pair ⟨w.memos.size⟩ m) (Side.pick p q) (Side.pick f g)) T
      (w.handed w.derives) (fun _ => none) (fun _ => none)
      (Side.pick (f r.current) (g r'.current)) (w.combined m (f r.current) (g r'.current))
      ⟨.run (k w.derives), st⟩ := by
  have hsize : (w.memos.alloc [f r.current, g r'.current]).size = w.memos.size + 1 :=
    Heap.size_alloc _ _
  refine h.computed (.pair ⟨w.memos.size⟩ m) (Side.pick p q) (Side.pick f g)
    (Side.pick (f r.current) (g r'.current)) ?_ ?_ ?_ ?_
  · exact hsize.ge.trans' (Nat.le_succ _)
  · intro x hx
    rw [List.mem_singleton.1 hx, hsize]
    exact ⟨Nat.le_refl _, Nat.lt_succ_self _⟩
  · rintro (_ | _) -
    · exact ⟨r, hr⟩
    · exact ⟨r', hr'⟩
  · exact Heap.get?_alloc_self _ _

/-- A derived value that follows two sources is settling from the start. -/
theorem World.Unforged.combine (h : w.Unforged body T st k) (ha : a.Shows p f) (hb : b.Shows q g)
    (hp : ∃ r, w.publisher? p = some r) (hq : ∃ r, w.publisher? q = some r) (m : V → V → V)
    (hcalm : Calmly body w ⟨.run (Derived.combine a b (fun x y => .ret (m x y)) k), st⟩) :
    Soon body (fun _ w' t => Settling (w.recipe (.pair ⟨w.memos.size⟩ m) (Side.pick p q)
        (Side.pick f g)) T (w.handed w.derives) w' t ∧ Calmly body w' t) [] w
      ⟨.run (Derived.combine a b (fun x y => .ret (m x y)) k), st⟩ := by
  obtain ⟨r, hr⟩ := hp
  obtain ⟨r', hr'⟩ := hq
  let δ : Recipe V := w.recipe (.pair ⟨w.memos.size⟩ m) (Side.pick p q) (Side.pick f g)
  have hmade : CalmRun body w ⟨.run (Derived.combine a b (fun x y => .ret (m x y)) k), st⟩ [] _ _ :=
    combine_run ha hb hr hr' m k
  have hplan : δ.Plan (fun _ => none) [(.left, a), (.right, b)] := by
    refine ⟨?_, fun _ _ => rfl, ?_, ?_⟩
    · rintro ⟨_ | _, -⟩ -
      · exact List.mem_cons_self
      · exact List.mem_cons_of_mem _ List.mem_cons_self
    · intro e he
      rcases List.mem_cons.1 he with rfl | he
      · exact ha
      · exact List.mem_singleton.1 he ▸ hb
    · exact List.nodup_cons.2 ⟨by simp, List.nodup_singleton _⟩
  exact .of_run hmade ((h.combined hr hr' m).connects h.goes_on hplan (hcalm.run hmade))

/-- In a run without panics a derived value settles. -/
theorem Settling.run [LawfulBEq V] {δ : Recipe V} {S : Scope} {t₀ : Thread V P σ ε} {u : V}
    (hsoon : Soon body (fun _ w t => Settling δ T S w t ∧ Calmly body w t) [] w t₀)
    (ht₀ : t₀.Calm) (hbodies : ∀ c, (body c).Within (δ.terms T) S)
    (hstarts : ∀ c, starts c → c.Within (δ.terms T) S)
    (hrun : Run body starts Thread.Calm w t₀ es w' ⟨.run (.ret u), []⟩) :
    Settling δ T S w' ⟨.run (.ret u), []⟩ ∧ Calmly body w' ⟨.run (.ret u), []⟩ := by
  refine (Soon.clients hsoon ht₀ hrun ?_ ?_).1.ended rfl
  · rintro es w t es' w' t' ⟨h, hcalm⟩ ht hm ht'
    exact h.move hbodies hcalm ht hm ht'
  · rintro es w t o c ⟨h, hcalm⟩ ht ho hc -
    obtain ⟨v, rfl⟩ := ht.ret_of_outcome ho
    exact .now ⟨h.next (hstarts c hc), hcalm.start ho c⟩

/-- Derived values settle: whatever is run while a derived value is made and afterwards, as long as
nothing panics and nobody disposes its subscriptions, whenever a call of a client has come back
it is what its function makes of the values that its sources show. -/
theorem derived_values_settle [LawfulBEq V] (h : w.Unforged body T st k)
    (hstarts : ∀ c, starts c → c.Within (w.derives.terms T) (w.handed w.derives)) :
    (∀ n p g (f : V → V) es w' u, n.Shows p g → (∃ r, w.publisher? p = some r) →
      Calmly body w ⟨.run (Derived.follow n (Node.pureRoutine f) k), st⟩ →
      Run body starts Thread.Calm w ⟨.run (Derived.follow n (Node.pureRoutine f) k), st⟩ es w'
        ⟨.run (.ret u), []⟩ →
      w.derives.Live 1 w' →
      ∃ x, n.get.Reads body w' x ∧ w.derives.get.Reads body w' (f x)) ∧
    (∀ a b p q f g (m : V → V → V) es w' u, a.Shows p f → b.Shows q g →
      (∃ r, w.publisher? p = some r) → (∃ r, w.publisher? q = some r) →
      Calmly body w ⟨.run (Derived.combine a b (fun x y => .ret (m x y)) k), st⟩ →
      Run body starts Thread.Calm w ⟨.run (Derived.combine a b (fun x y => .ret (m x y)) k), st⟩ es
        w' ⟨.run (.ret u), []⟩ →
      w.derives.Live 2 w' →
      ∃ x y, a.get.Reads body w' x ∧ b.get.Reads body w' y ∧
        w.derives.get.Reads body w' (m x y)) := by
  have hbodies : ∀ c, (body c).Within (w.derives.terms T) (w.handed w.derives) := fun c =>
    (h.bodies c).mono Set.subset_union_left
  constructor
  · intro n p g f es w' u hn hp hcalm hrun hlive
    obtain ⟨hsettling, hcalm'⟩ :=
      Settling.run (h.follow hn hp f hcalm) trivial hbodies hstarts hrun
    obtain ⟨vals, d, hd, hcur, hsides⟩ := hsettling.settled hcalm' hlive
    obtain ⟨r, hr, hval⟩ := hsides .left (List.mem_singleton_self _)
    refine ⟨g r.current, hn.reads hr, ?_⟩
    have hvalue : d.current = f (g r.current) := hcur.trans (congrArg f hval)
    exact hvalue ▸ Node.Shows.rx.reads hd
  · intro a b p q f g m es w' u ha hb hp hq hcalm hrun hlive
    obtain ⟨hsettling, hcalm'⟩ :=
      Settling.run (h.combine ha hb hp hq m hcalm) trivial hbodies hstarts hrun
    obtain ⟨vals, d, hd, hcur, hsides⟩ := hsettling.settled hcalm' hlive
    obtain ⟨r, hr, hval⟩ := hsides .left List.mem_cons_self
    obtain ⟨r', hr', hval'⟩ := hsides .right (List.mem_cons_of_mem _ List.mem_cons_self)
    refine ⟨f r.current, g r'.current, ha.reads hr, hb.reads hr', ?_⟩
    have hvalue : d.current = m (f r.current) (g r'.current) := by
      rw [hcur]
      exact congr (congrArg m hval) hval'
    exact hvalue ▸ Node.Shows.rx.reads hd

end Making

/-! ## A derived value and its source -/

/-- An observer that writes 4 to the box when it holds 3. -/
def nudging : Routine Nat Empty Unit Unit := fun v =>
  if v = 3 then (Node.rx ⟨0⟩).set 4 fun _ => .ret v else .ret v

/-- A client that makes a box with such an observer and goes on with `c`. -/
def nudged (c : Prog Nat Empty Unit Unit) : Prog Nat Empty Unit Unit :=
  .atom (.newPublisher none 1) fun p => .attach p [] nudging fun _ => c

/-- The box, shown doubled. -/
def doubled : Node (Routine Nat Empty Unit Unit) .reactive :=
  Node.view (.rx ⟨0⟩) ⟨Node.pureRoutine (2 * ·), Node.pureRoutine (· / 2)⟩

/-- A client that writes 3 to the box once it has a derived value. -/
def stirring (_ : Derived) : Prog Nat Empty Unit Unit :=
  .publish ⟨0⟩ 3 (.ret 0)

/-- The successor of the doubled box. -/
def successor : Prog Nat Empty Unit Unit :=
  Derived.follow doubled (Node.pureRoutine (· + 1)) stirring

/-- The sum of the box and the doubled box. -/
def total : Prog Nat Empty Unit Unit :=
  Derived.combine (.rx ⟨0⟩) doubled (fun x y => .ret (x + y)) stirring

/-- The box with its observer. -/
def nudgedBox : Publisher Nat (Observer Nat Empty Unit Unit) :=
  ⟨none, 1, 1, [⟨0, nudging, []⟩], [], false, 1⟩

/-- Where there is nothing but the box everything keeps to what exists. -/
theorem nudgedBox_unforged {w : World Nat Empty Unit Unit} (hpubs : w.publishers = ⟨[nudgedBox]⟩)
    (hsubs : w.subscriptions = ⟨[some (.detach ⟨0⟩ 0)]⟩) :
    w.Unforged nofun .storeless [] stirring := by
  have hwrite : .publish ⟨0⟩ ∈ w.scope ∅ := by
    refine ⟨?_, nofun⟩
    show 0 < w.publishers.size
    rw [hpubs]
    exact Nat.one_pos
  refine ⟨⟨nofun, trivial, ?_, ?_⟩, nofun, nofun, .publish (Or.inl hwrite) (.ret 0)⟩
  · intro q s hs r hr
    rw [World.publisher?, hpubs] at hs
    obtain rfl := List.mem_singleton.1 (List.mem_of_getElem? hs)
    obtain rfl := List.mem_singleton.1 hr
    refine Or.inl fun v => ?_
    show (nudging v).Within _ _
    unfold nudging
    by_cases hv : v = 3
    · rw [if_pos hv]
      exact .publish hwrite (.ret v)
    · rw [if_neg hv]
      exact .ret v
  · intro i c hc
    rw [hsubs] at hc
    cases List.mem_singleton.1 (List.mem_of_getElem? hc)

/-- The successor of the doubled box is 9 after the write of 3 that becomes 4, and the sum of the
box and the doubled box is 12. -/
theorem derived_values_settle_doubled :
    ∃ w es w' es₂ w₂,
      w.Unforged nofun .storeless [] stirring ∧ Calmly nofun w (.start successor) ∧
      CalmRun nofun w (.start successor) es w' ⟨.run (.ret 0), []⟩ ∧ w.derives.Live 1 w' ∧
      (w'.publisher? w.derives.value).map (·.current) = some 9 ∧
      (∃ x, doubled.get.Reads nofun w' x ∧ w.derives.get.Reads nofun w' (x + 1)) ∧
      Calmly nofun w (.start total) ∧
      CalmRun nofun w (.start total) es₂ w₂ ⟨.run (.ret 0), []⟩ ∧ w.derives.Live 2 w₂ ∧
      (w₂.publisher? w.derives.value).map (·.current) = some 12 ∧
      ∃ x y, (Node.rx ⟨0⟩).get.Reads nofun w₂ x ∧ doubled.get.Reads nofun w₂ y ∧
        w.derives.get.Reads (nofun : Empty → Prog Nat Empty Unit Unit) w₂ (x + y) := by
  obtain ⟨w, es₀, es, w', es₂, w₂, hmade, hmade₂, hpubs, hsubs, hfollow, hbag, hsub, hcur, hcombine,
      hbag₂, hsub₂, hsub₂', hcur₂⟩ :
      ∃ (w : World Nat Empty Unit Unit) (es₀ es : List (Event Nat Unit))
        (w' : World Nat Empty Unit Unit) (es₂ : List (Event Nat Unit))
        (w₂ : World Nat Empty Unit Unit),
      Thread.advance nofun 8 (World.new ()) (.start (nudged successor)) =
        some (w, .start successor, es₀) ∧
      Thread.advance nofun 8 (World.new ()) (.start (nudged total)) =
        some (w, .start total, es₀) ∧
      w.publishers = ⟨[nudgedBox]⟩ ∧ w.subscriptions = ⟨[some (.detach ⟨0⟩ 0)]⟩ ∧
      Thread.advance nofun 44 w (.start successor) = some (w', ⟨.run (.ret 0), []⟩, es) ∧
      w'.bags.get? w.derives.sources.index = some [⟨1⟩] ∧
      w'.subscriptions.get? 1 = some (some (.detach ⟨0⟩ 1)) ∧
      (w'.publisher? w.derives.value).map (·.current) = some 9 ∧
      Thread.advance nofun 82 w (.start total) = some (w₂, ⟨.run (.ret 0), []⟩, es₂) ∧
      w₂.bags.get? w.derives.sources.index = some [⟨1⟩, ⟨2⟩] ∧
      w₂.subscriptions.get? 1 = some (some (.detach ⟨0⟩ 1)) ∧
      w₂.subscriptions.get? 2 = some (some (.detach ⟨0⟩ 2)) ∧
      (w₂.publisher? w.derives.value).map (·.current) = some 12 :=
    ⟨_, _, _, _, _, _, rfl, rfl, rfl, rfl, rfl, rfl, rfl, rfl, rfl, rfl, rfl, rfl, rfl⟩
  have hbox : ∃ r, w.publisher? ⟨0⟩ = some r := ⟨nudgedBox, congrArg (Heap.get? · 0) hpubs⟩
  have hforged := nudgedBox_unforged hpubs hsubs
  have hdoubled : doubled.Shows ⟨0⟩ ((2 * ·) ∘ id) := .view _ _ .rx
  obtain ⟨hsettle, hsettle₂⟩ := derived_values_settle hforged fun _ h => (h : False).elim
  have hcalm : Calmly nofun w (.start successor) := ⟨(), _, es₀, .of_advance hmade⟩
  have hcalm₂ : Calmly nofun w (.start total) := ⟨(), _, es₀, .of_advance hmade₂⟩
  have hlive : w.derives.Live 1 w' := by
    refine ⟨_, hbag, rfl, fun x hx => ?_⟩
    rw [List.mem_singleton.1 hx, hsub]
    exact nofun
  have hlive₂ : w.derives.Live 2 w₂ := by
    refine ⟨_, hbag₂, rfl, fun x hx => ?_⟩
    rcases List.mem_cons.1 hx with rfl | hx
    · rw [hsub₂]
      exact nofun
    · rw [List.mem_singleton.1 hx, hsub₂']
      exact nofun
  have hrun : CalmRun nofun w (.start successor) es w' ⟨.run (.ret 0), []⟩ :=
    Run.of_advance hfollow
  have hrun₂ : CalmRun nofun w (.start total) es₂ w₂ ⟨.run (.ret 0), []⟩ :=
    Run.of_advance hcombine
  exact ⟨w, es, w', es₂, w₂, hforged, hcalm, hrun, hlive, hcur,
    hsettle doubled ⟨0⟩ _ (· + 1) es w' 0 hdoubled hbox hcalm hrun hlive, hcalm₂, hrun₂, hlive₂,
    hcur₂, hsettle₂ (.rx ⟨0⟩) doubled ⟨0⟩ ⟨0⟩ _ _ (· + ·) es₂ w₂ 0 .rx hdoubled hbox hbox hcalm₂
      hrun₂ hlive₂⟩

end ReactiveCells
