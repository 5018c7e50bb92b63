import Mathlib.Data.Set.Basic
import Mathlib.Data.Set.Insert
import ReactiveCells.Proofs.Attention

/-!
# Scopes — what programs may use

References are not forged: a program uses what it was handed and what it allocates on its way. A
scope is the set of uses that a program may make of what exists, and `Prog.Within` says that a
program keeps to a scope that grows with every allocation it makes. The scope of a world
(`World.scope`) is all that has been allocated, except some hidden parts: the copy of a breaker,
say, which is written by the operations of the breaker only.

Two kinds of programs are looked at by those who use scopes. `Terms.special` lists operations that
reach hidden parts, each with the programs it goes on with; and a relation of publishers to
reactions lists the observers that reach hidden parts. All the rest never does.

Main statements: `Prog.Within.mono` and `Prog.Within.recast`, `Moves.within` (what is run next keeps
to its scope, unless a special operation is at hand or a special observer is called), and
`Moves.writes`, `Moves.settled`, `Moves.bag_eq`, `Moves.hidden_memo_eq` (hidden parts stay as they
are).
-/

namespace ReactiveCells

variable {V P σ ε : Type}

/-- A use that can be made of something allocated. -/
inductive Use where
  /-- Reads a publisher or subscribes to it. -/
  | read (p : PublisherRef)
  | publish (p : PublisherRef)
  | amend (p : PublisherRef)
  | memo (m : MemoRef)
  | bag (r : BagRef)

/-- What a program may use. -/
abbrev Scope := Set Use

/-- Whether what is used has been allocated. -/
def Use.Made (w : World V P σ ε) : Use → Prop
  | .read p | .publish p | .amend p => p.index < w.publishers.size
  | .memo m => m.index < w.memos.size
  | .bag r => r.index < w.bags.size

/-- What an operation of one step uses. -/
def Atom.needs : Atom V σ ε → Scope
  | .current p | .observerCount p => {.read p}
  | .memo m _ => {.memo m}
  | .bag r _ => {.bag r}
  | .own _ | .tell _ | .report _ | .newCell _ | .load _ | .store .. | .swap .. | .exchange ..
  | .newLock _ | .isHeld _ | .newPublisher .. | .newDisposed | .isDisposed _ | .newMemo _
  | .newBag => ∅

/-- What the answer of an operation adds to a scope. -/
def Atom.gives : (a : Atom V σ ε) → a.Answer → Scope
  | .newPublisher .., p => {.read p, .publish p, .amend p}
  | .newMemo _, m => {.memo m}
  | .newBag, r => {.bag r}
  | .current _, _ | .observerCount _, _ | .memo .., _ | .bag .., _ | .own _, _ | .tell _, _
  | .report _, _ | .newCell _, _ | .load _, _ | .store .., _ | .swap .., _ | .exchange .., _
  | .newLock _, _ | .isHeld _, _ | .newDisposed, _ | .isDisposed _, _ => ∅

/-- The terms on which programs are run. -/
structure Terms (V P σ ε : Type) where
  /-- Whether all that a store refers to is in a scope. -/
  safe : Scope → σ → Prop
  mono : ∀ {S S' : Scope} {s : σ}, S ⊆ S' → safe S s → safe S' s
  /-- The operations that may reach hidden parts, with what they go on with. -/
  special : Prog V P σ ε → Set (Prog V P σ ε) → Prop

/-- The terms on which some operations are special, and stores are as before. -/
def Terms.allowing (T : Terms V P σ ε) (special : Prog V P σ ε → Set (Prog V P σ ε) → Prop) :
    Terms V P σ ε :=
  { T with special }

/-- The terms on which no operation is special. -/
def Terms.plain (T : Terms V P σ ε) : Terms V P σ ε :=
  T.allowing fun _ _ => False

/-- The terms for stores that refer to nothing. -/
def Terms.storeless : Terms V P σ ε :=
  ⟨fun _ _ => True, fun _ _ => trivial, fun _ _ => False⟩

/-- Programs that use nothing out of scope, but for special operations. -/
inductive Prog.Within (T : Terms V P σ ε) : Scope → Prog V P σ ε → Prop where
  | ret {S} (v : V) : Within T S (.ret v)
  | panic {S} (text : String) : Within T S (.panic text)
  | own {S : Scope} {f : σ → σ} {k : σ → Prog V P σ ε} :
      (∀ S', S ⊆ S' → ∀ s, T.safe S' s → T.safe S' (f s)) →
      (∀ S', S ⊆ S' → ∀ s, T.safe S' s → Within T S' (k s)) → Within T S (.atom (.own f) k)
  | atom {S : Scope} {a : Atom V σ ε} {k : a.Answer → Prog V P σ ε} : (∀ f, a ≠ .own f) →
      a.needs ⊆ S → (∀ x, Within T (S ∪ a.gives x) (k x)) → Within T S (.atom a k)
  | call {S} {c : P} {k : V → Prog V P σ ε} : (∀ v, Within T S (k v)) → Within T S (.call c k)
  | attempt {S} {c : Prog V P σ ε} {k : Option String → Prog V P σ ε} : Within T S c →
      (∀ r, Within T S (k r)) → Within T S (.attempt c k)
  | hold {S} {m : Monitor} {c : Prog V P σ ε} {k : V → Prog V P σ ε} : Within T S c →
      (∀ v, Within T S (k v)) → Within T S (.hold m c k)
  | retry {S} {c : CellRef} {f k : V → Prog V P σ ε} : (∀ v, Within T S (f v)) →
      (∀ v, Within T S (k v)) → Within T S (.retry c f k)
  | publish {S : Scope} {p : PublisherRef} {v : V} {k : Prog V P σ ε} : .publish p ∈ S →
      Within T S k → Within T S (.publish p v k)
  | amend {S : Scope} {p : PublisherRef} {f k : V → Prog V P σ ε} : .amend p ∈ S →
      (∀ v, Within T S (f v)) → (∀ v, Within T S (k v)) → Within T S (.amend p f k)
  | attach {S : Scope} {p : PublisherRef} {keeps : List PublisherRef} {o : V → Prog V P σ ε}
      {k : SubscriptionRef → Prog V P σ ε} : .read p ∈ S → (∀ v, Within T S (o v)) →
      (∀ s, Within T S (k s)) → Within T S (.attach p keeps o k)
  | onDispose {S} {c : Prog V P σ ε} {k : SubscriptionRef → Prog V P σ ε} : Within T S c →
      (∀ s, Within T S (k s)) → Within T S (.onDispose c k)
  | dispose {S} {s : SubscriptionRef} {k : Prog V P σ ε} : Within T S k →
      Within T S (.dispose s k)
  | special {S} {c : Prog V P σ ε} {K : Set (Prog V P σ ε)} : T.special c K →
      (∀ k ∈ K, Within T S k) → Within T S c

/-- A larger scope allows more. -/
theorem Prog.Within.mono {T : Terms V P σ ε} {S S' : Scope} {c : Prog V P σ ε}
    (h : c.Within T S) (hS : S ⊆ S') : c.Within T S' := by
  induction h generalizing S' with
  | ret v => exact .ret v
  | panic text => exact .panic text
  | own hf hk => exact .own (fun R hR => hf R (hS.trans hR)) fun R hR => hk R (hS.trans hR)
  | atom hown hneeds _ ih =>
      exact .atom hown (hneeds.trans hS) fun x => ih x (Set.union_subset_union_left _ hS)
  | call _ ih => exact .call fun v => ih v hS
  | attempt _ _ ihc ihk => exact .attempt (ihc hS) fun r => ihk r hS
  | hold _ _ ihc ihk => exact .hold (ihc hS) fun v => ihk v hS
  | retry _ _ ihf ihk => exact .retry (fun v => ihf v hS) fun v => ihk v hS
  | publish hp _ ih => exact .publish (hS hp) (ih hS)
  | amend hp _ _ ihf ihk => exact .amend (hS hp) (fun v => ihf v hS) fun v => ihk v hS
  | attach hp _ _ iho ihk => exact .attach (hS hp) (fun v => iho v hS) fun s => ihk s hS
  | onDispose _ _ ihc ihk => exact .onDispose (ihc hS) fun s => ihk s hS
  | dispose _ ih => exact .dispose (ih hS)
  | special hc _ ih => exact .special hc fun k hk => ih k hk hS

/-- Other operations may be special, as long as those that were are still allowed. -/
theorem Prog.Within.recast {T : Terms V P σ ε}
    {special special' : Prog V P σ ε → Set (Prog V P σ ε) → Prop} {S S' : Scope}
    {c : Prog V P σ ε} (h : c.Within (T.allowing special) S) (hS : S ⊆ S')
    (hspecial : ∀ c K R, special c K → S' ⊆ R → (∀ k ∈ K, k.Within (T.allowing special') R) →
      c.Within (T.allowing special') R) : c.Within (T.allowing special') S' := by
  induction h generalizing S' with
  | ret v => exact .ret v
  | panic text => exact .panic text
  | own hf _ ih =>
      refine .own (fun R hR => hf R (hS.trans hR)) fun R hR s hs => ?_
      exact ih R (hS.trans hR) s hs subset_rfl fun c K R' hc hR' => hspecial c K R' hc (hR.trans hR')
  | atom hown hneeds _ ih =>
      refine .atom hown (hneeds.trans hS) fun x => ih x (Set.union_subset_union_left _ hS) ?_
      exact fun c K R hc hR => hspecial c K R hc (Set.subset_union_left.trans hR)
  | call _ ih => exact .call fun v => ih v hS hspecial
  | attempt _ _ ihc ihk => exact .attempt (ihc hS hspecial) fun r => ihk r hS hspecial
  | hold _ _ ihc ihk => exact .hold (ihc hS hspecial) fun v => ihk v hS hspecial
  | retry _ _ ihf ihk => exact .retry (fun v => ihf v hS hspecial) fun v => ihk v hS hspecial
  | publish hp _ ih => exact .publish (hS hp) (ih hS hspecial)
  | amend hp _ _ ihf ihk =>
      exact .amend (hS hp) (fun v => ihf v hS hspecial) fun v => ihk v hS hspecial
  | attach hp _ _ iho ihk =>
      exact .attach (hS hp) (fun v => iho v hS hspecial) fun s => ihk s hS hspecial
  | onDispose _ _ ihc ihk => exact .onDispose (ihc hS hspecial) fun s => ihk s hS hspecial
  | dispose _ ih => exact .dispose (ih hS hspecial)
  | special hc _ ih => exact hspecial _ _ _ hc subset_rfl fun k hk => ih k hk hS hspecial

/-- A program that needs no special operation may be allowed some. -/
theorem Prog.Within.allow {T : Terms V P σ ε} {S : Scope} {c : Prog V P σ ε}
    (h : c.Within T.plain S) (special : Prog V P σ ε → Set (Prog V P σ ε) → Prop) :
    c.Within (T.allowing special) S :=
  Prog.Within.recast h subset_rfl fun _ _ _ hno => hno.elim

/-- What a program uses first. -/
def Prog.head : Prog V P σ ε → Scope
  | .atom a _ => a.needs
  | .publish p _ _ => {.publish p}
  | .amend p _ _ => {.amend p}
  | .attach p _ _ _ => {.read p}
  | .ret _ | .panic _ | .call .. | .attempt .. | .hold .. | .retry .. | .onDispose ..
  | .dispose .. => ∅

/-- What a program uses first is in scope, unless it is a special operation. -/
theorem Prog.Within.head_subset {T : Terms V P σ ε} {S : Scope} {c : Prog V P σ ε}
    (h : c.Within T S) (hplain : ∀ K, ¬ T.special c K) : c.head ⊆ S := by
  cases h with
  | atom _ hneeds _ => exact hneeds
  | publish hp _ | amend hp _ _ | attach hp _ _ => exact Set.singleton_subset_iff.2 hp
  | special h _ => exact absurd h (hplain _)
  | _ => exact Set.empty_subset _

/-! ## The scope of a world -/

namespace World

variable {w w' : World V P σ ε} {hidden : Scope}

/-- All that has been allocated and is not hidden. -/
def scope (hidden : Scope) (w : World V P σ ε) : Scope :=
  {u | u.Made w ∧ u ∉ hidden}

/-- Whether nothing has been allocated but more. -/
structure Grows (w w' : World V P σ ε) : Prop where
  publishers : w.publishers.size ≤ w'.publishers.size
  memos : w.memos.size ≤ w'.memos.size
  bags : w.bags.size ≤ w'.bags.size

theorem Grows.refl (w : World V P σ ε) : w.Grows w := ⟨le_rfl, le_rfl, le_rfl⟩

theorem Grows.trans {w'' : World V P σ ε} (h : w.Grows w') (h' : w'.Grows w'') : w.Grows w'' :=
  ⟨h.publishers.trans h'.publishers, h.memos.trans h'.memos, h.bags.trans h'.bags⟩

theorem Grows.made (h : w.Grows w') {u : Use} (hu : u.Made w) : u.Made w' := by
  cases u with
  | read p | publish p | amend p => exact Nat.lt_of_lt_of_le hu h.publishers
  | memo m => exact Nat.lt_of_lt_of_le hu h.memos
  | bag r => exact Nat.lt_of_lt_of_le hu h.bags

theorem Grows.scope (h : w.Grows w') : w.scope hidden ⊆ w'.scope hidden := fun _ hu =>
  ⟨h.made hu.1, hu.2⟩

/-- What is made later can be hidden, and the scope is not smaller for it. -/
theorem Grows.scope_subset {hidden' : Scope} (h : w.Grows w')
    (hnew : ∀ u ∈ hidden', u ∈ hidden ∨ ¬ u.Made w) : w.scope hidden ⊆ w'.scope hidden' :=
  fun u hu => ⟨h.made hu.1, fun hmem => (hnew u hmem).elim hu.2 fun hno => hno hu.1⟩

theorem grows_setPublisher (p : PublisherRef) (s : Publisher V (Observer V P σ ε)) :
    w.Grows (w.setPublisher p s) :=
  ⟨(Heap.size_set _ _ _).ge, le_rfl, le_rfl⟩

theorem grows_enterAll (ms : List Monitor) : w.Grows (w.enterAll ms) := by
  rw [enterAll_eq]
  exact ⟨le_rfl, le_rfl, le_rfl⟩

theorem grows_perform [BEq V] {a : Atom V σ ε} {x : a.Answer} {es : List (Event V ε)}
    (h : w.perform a = some (x, w', es)) : w.Grows w' := by
  have hp := World.performed h
  refine ⟨?_, ?_, ?_⟩
  · rcases hp.publishers with he | ⟨guard, v, -, he⟩ <;> simp [he]
  · rcases hp.memos with he | ⟨vs, he⟩ | ⟨r, f, vs, -, he⟩ <;> simp [he]
  · rcases hp.bags with he | he | ⟨r, f, ss, -, he⟩ <;> simp [he]

/-- What an operation allocates is new, so it is not hidden. -/
theorem gives_subset_scope [BEq V] (hmade : ∀ u ∈ hidden, u.Made w) {a : Atom V σ ε}
    {x : a.Answer} {es : List (Event V ε)} (h : w.perform a = some (x, w', es)) :
    a.gives x ⊆ w'.scope hidden := by
  -- what is new has the size of the heap before for its number
  have fresh : ∀ u : Use, ¬ u.Made w → u.Made w' → u ∈ w'.scope hidden := fun u hnew hu =>
    ⟨hu, fun hmem => hnew (hmade u hmem)⟩
  cases a with
  | newPublisher guard v =>
      cases h
      have hold : ¬ w.publishers.size < w.publishers.size := Nat.lt_irrefl _
      have hnew : w.publishers.size < (w.publishers.alloc (.new guard v)).size := by
        rw [Heap.size_alloc]
        exact Nat.lt_succ_self _
      rintro u (rfl | rfl | rfl) <;> exact fresh _ hold hnew
  | newMemo vs =>
      cases h
      rintro u rfl
      refine fresh _ (Nat.lt_irrefl w.memos.size) ?_
      show w.memos.size < (w.memos.alloc vs).size
      rw [Heap.size_alloc]
      exact Nat.lt_succ_self _
  | newBag =>
      cases h
      rintro u rfl
      refine fresh _ (Nat.lt_irrefl w.bags.size) ?_
      show w.bags.size < (w.bags.alloc []).size
      rw [Heap.size_alloc]
      exact Nat.lt_succ_self _
  | _ => exact Set.empty_subset _

end World

/-! ## Worlds and threads that keep to a scope -/

section Within

variable (T : Terms V P σ ε) (reacts : PublisherRef → Routine V P σ ε → Prop) (S : Scope)

/-- Whether an observer of a publisher keeps to a scope or is special. -/
def Observer.Within (q : PublisherRef) (o : Observer V P σ ε) : Prop :=
  (∀ v, (o.react v).Within T S) ∨ reacts q o.react

/-- Whether what a frame goes on with keeps to a scope. -/
def Frame.Within : Frame V P σ ε → Prop
  | .resume k => ∀ v, (k v).Within T S
  | .attempt k => ∀ r, (k r).Within T S
  | .deliver q calls => ∀ c ∈ calls, c.observer.Within T reacts S q
  | .commit p => .amend p ∈ S
  | .register _ _ k => ∀ s, (k s).Within T S
  | .swapIn _ _ _ f => ∀ v, (f v).Within T S
  | .leave _ | .observe _ => True

/-- Whether a program in focus keeps to a scope. -/
def Focus.Within : Focus V P σ ε → Prop
  | .run c => c.Within T S
  | .drain _ | .unwind _ => True

/-- Whether the topmost frame gets what is in focus. -/
def Focus.Reaches : Focus V P σ ε → Prop
  | .run (.ret _) | .unwind _ => True
  | .run _ | .drain _ => False

/-- A world in which hidden parts are reached by special operations and observers only. -/
structure World.Within (hidden : Scope) (w : World V P σ ε) : Prop where
  made : ∀ u ∈ hidden, u.Made w
  store : T.safe (w.scope hidden) w.store
  observers : ∀ q s, w.publisher? q = some s → ∀ r ∈ s.registrations,
    r.observer.Within T reacts (w.scope hidden) q
  teardowns : ∀ i c, w.subscriptions.get? i = some (some (.run c)) →
    c.Within T (w.scope hidden)

end Within

section Terms

variable {T : Terms V P σ ε} {reacts : PublisherRef → Routine V P σ ε → Prop} {S S' : Scope}
  {hidden : Scope} {w w' : World V P σ ε} {p q : PublisherRef}
  {s s' : Publisher V (Observer V P σ ε)}

theorem Observer.Within.mono {o : Observer V P σ ε} (h : o.Within T reacts S q) (hS : S ⊆ S') :
    o.Within T reacts S' q :=
  h.imp_left fun hreact v => (hreact v).mono hS

theorem Frame.Within.mono {fr : Frame V P σ ε} (h : fr.Within T reacts S) (hS : S ⊆ S') :
    fr.Within T reacts S' := by
  cases fr with
  | resume k | attempt k | register _ _ k | swapIn _ _ _ k => exact fun v => (h v).mono hS
  | deliver q calls => exact fun c hc => (h c hc).mono hS
  | commit p => exact hS h
  | leave | observe => trivial

/-- More observers may be special. -/
theorem Frame.Within.imp {reacts' : PublisherRef → Routine V P σ ε → Prop} {fr : Frame V P σ ε}
    (h : fr.Within T reacts S) (hreacts : ∀ q react, reacts q react → reacts' q react) :
    fr.Within T reacts' S := by
  cases fr with
  | deliver q calls => exact fun c hc => (h c hc).imp_right (hreacts q _)
  | _ => exact h

theorem Frame.Within.allow {special : Prog V P σ ε → Set (Prog V P σ ε) → Prop}
    {fr : Frame V P σ ε} (h : fr.Within T.plain (fun _ _ => False) S) :
    fr.Within (T.allowing special) reacts S := by
  cases fr with
  | resume k | attempt k | register _ _ k | swapIn _ _ _ k => exact fun v => (h v).allow special
  | deliver q calls =>
      exact fun c hc => (h c hc).elim (fun hin => Or.inl fun v => (hin v).allow special) False.elim
  | commit p => exact h
  | leave | observe => trivial

namespace World.Within

/-- A world that differs in nothing but what is not run. -/
theorem grow (h : w.Within T reacts hidden) (hgrow : w.Grows w') (hstore : w'.store = w.store)
    (hobs : ∀ q s', w'.publisher? q = some s' → ∀ r ∈ s'.registrations,
      ∃ s, w.publisher? q = some s ∧ r ∈ s.registrations)
    (hsubs : ∀ i c, w'.subscriptions.get? i = some (some (.run c)) →
      w.subscriptions.get? i = some (some (.run c))) : w'.Within T reacts hidden := by
  refine ⟨fun u hu => hgrow.made (h.made u hu), ?_, ?_, ?_⟩
  · rw [hstore]
    exact T.mono hgrow.scope h.store
  · intro q s' hs' r hr
    obtain ⟨s, hs, hr'⟩ := hobs q s' hs' r hr
    exact (h.observers q s hs r hr').mono hgrow.scope
  · intro i c hc
    exact (h.teardowns i c (hsubs i c hc)).mono hgrow.scope

theorem setPublisher (h : w.Within T reacts hidden) (hp : w.publisher? p = some s)
    (hobs : ∀ r ∈ s'.registrations,
      r ∈ s.registrations ∨ r.observer.Within T reacts (w.scope hidden) p) :
    (w.setPublisher p s').Within T reacts hidden := by
  have hgrow : w.Grows (w.setPublisher p s') := World.grows_setPublisher p s'
  refine ⟨fun u hu => hgrow.made (h.made u hu), T.mono hgrow.scope h.store, ?_, ?_⟩
  · intro q r' hr' r hr
    by_cases hq : p = q
    · subst hq
      rw [World.publisher?_setPublisher_self hp] at hr'
      cases hr'
      rcases hobs r hr with hold | hnew
      · exact (h.observers p s hp r hold).mono hgrow.scope
      · exact hnew.mono hgrow.scope
    · rw [World.publisher?_setPublisher_ne hq] at hr'
      exact (h.observers q r' hr' r hr).mono hgrow.scope
  · intro i c hc
    exact (h.teardowns i c hc).mono hgrow.scope

/-- What a publisher does without registering anybody. -/
theorem unmanned (h : w.Within T reacts hidden) (hp : w.publisher? p = some s)
    (hobs : ∀ r ∈ s'.registrations, r ∈ s.registrations) :
    (w.setPublisher p s').Within T reacts hidden :=
  h.setPublisher hp fun r hr => Or.inl (hobs r hr)

theorem enterAll (h : w.Within T reacts hidden) (ms : List Monitor) :
    (w.enterAll ms).Within T reacts hidden := by
  refine h.grow (World.grows_enterAll ms) ?_ ?_ ?_
  · rw [World.enterAll_eq]
  · intro q s' hs' r hr
    exact ⟨s', (World.publisher?_enterAll ms).symm.trans hs', hr⟩
  · intro i c hc
    rw [World.enterAll_eq] at hc
    exact hc

/-- An observer is queued. -/
theorem enqueue (h : w.Within T reacts hidden) (hp : w.publisher? p = some s)
    {o : Observer V P σ ε} (ho : o.Within T reacts (w.scope hidden) p) :
    ((w.enterAll s.monitors).setPublisher p (s.enqueue o)).Within T reacts hidden := by
  have hp' := (World.publisher?_enterAll s.monitors).trans hp
  refine (h.enterAll s.monitors).setPublisher hp' fun r hr => ?_
  rw [Publisher.registrations_enqueue] at hr
  rcases List.mem_append.1 hr with hold | hnew
  · exact Or.inl hold
  · rw [List.mem_singleton.1 hnew]
    exact Or.inr (ho.mono (World.grows_enterAll _).scope)

/-- What is made later can be hidden as well: nobody knows of it yet. -/
theorem conceal {reacts' : PublisherRef → Routine V P σ ε → Prop} {hidden' : Scope}
    (h : w.Within T reacts hidden) (hgrow : w.Grows w')
    (hreacts : ∀ q react, reacts q react → reacts' q react) (hmade : ∀ u ∈ hidden', u.Made w')
    (hnew : ∀ u ∈ hidden', u ∈ hidden ∨ ¬ u.Made w) (hstore : w'.store = w.store)
    (hobs : ∀ q s', w'.publisher? q = some s' → ∀ r ∈ s'.registrations,
      ∃ s, w.publisher? q = some s ∧ r ∈ s.registrations)
    (hsubs : w'.subscriptions = w.subscriptions) : w'.Within T reacts' hidden' := by
  have hscope := hgrow.scope_subset hnew
  refine ⟨hmade, ?_, ?_, ?_⟩
  · rw [hstore]
    exact T.mono hscope h.store
  · intro q s' hs' r hr
    obtain ⟨s, hs, hr'⟩ := hobs q s' hs' r hr
    exact ((h.observers q s hs r hr').mono hscope).imp_right (hreacts q _)
  · intro i c hc
    rw [hsubs] at hc
    exact (h.teardowns i c hc).mono hscope

/-- Where no special operation is needed some may be allowed. -/
theorem allow (h : w.Within T.plain (fun _ _ => False) hidden)
    (special : Prog V P σ ε → Set (Prog V P σ ε) → Prop) :
    w.Within (T.allowing special) (fun _ _ => False) hidden := by
  refine ⟨h.made, h.store, ?_, fun i c hc => (h.teardowns i c hc).allow special⟩
  intro q s hs r hr
  exact (h.observers q s hs r hr).imp_left fun hin v => (hin v).allow special

/-- What is made later can be hidden: nobody knows of it yet. -/
theorem hide {special : Prog V P σ ε → Set (Prog V P σ ε) → Prop}
    (h : w.Within T.plain (fun _ _ => False) ∅) (hgrow : w.Grows w')
    (hmade : ∀ u ∈ hidden, u.Made w') (hnew : ∀ u ∈ hidden, ¬ u.Made w)
    (hstore : w'.store = w.store)
    (hobs : ∀ q s', w'.publisher? q = some s' → ∀ r ∈ s'.registrations,
      ∃ s, w.publisher? q = some s ∧ r ∈ s.registrations)
    (hsubs : w'.subscriptions = w.subscriptions) :
    w'.Within (T.allowing special) reacts hidden :=
  (h.allow special).conceal hgrow (fun _ _ h => h.elim) hmade (fun u hu => Or.inr (hnew u hu))
    hstore hobs hsubs

/-- Where nothing is hidden nobody is special, if what was special may be done by anybody then. -/
theorem expose {special : Prog V P σ ε → Set (Prog V P σ ε) → Prop}
    (h : w.Within (T.allowing special) reacts hidden)
    (hspecial : ∀ c K R, special c K → w.scope ∅ ⊆ R → (∀ k ∈ K, k.Within T.plain R) →
      c.Within T.plain R)
    (hreacts : ∀ q react v, reacts q react → (react v).Within T.plain (w.scope ∅)) :
    w.Within T.plain (fun _ _ => False) ∅ := by
  have hscope : w.scope hidden ⊆ w.scope ∅ := fun u hu => ⟨hu.1, Set.notMem_empty u⟩
  refine ⟨fun u hu => (Set.notMem_empty u hu).elim, T.mono hscope h.store, ?_, ?_⟩
  · intro q s hs r hr
    refine Or.inl fun v => ?_
    rcases h.observers q s hs r hr with hin | hreact
    · exact (hin v).recast hscope hspecial
    · exact hreacts q _ v hreact
  · exact fun i c hc => (h.teardowns i c hc).recast hscope hspecial

/-- Monitors are nobody's concern. -/
theorem leave (h : w.Within T reacts hidden) (m : Monitor) :
    (w.leave m).Within T reacts hidden :=
  ⟨h.made, h.store, h.observers, h.teardowns⟩

theorem setCell (h : w.Within T reacts hidden) (c : CellRef) (d : Cell V) :
    (w.setCell c d).Within T reacts hidden :=
  ⟨h.made, h.store, h.observers, h.teardowns⟩

theorem newSubscription (h : w.Within T reacts hidden) {t : Option (Teardown V P σ ε)}
    (ht : ∀ c, t = some (.run c) → c.Within T (w.scope hidden)) :
    (w.newSubscription t).2.Within T reacts hidden := by
  refine ⟨h.made, h.store, h.observers, ?_⟩
  intro i c hc
  rcases Heap.of_get?_alloc_eq_some _ i t _ hc with hold | hnew
  · exact h.teardowns i c hold
  · exact ht c hnew.symm

/-- A subscription that is disposed loses its teardown. -/
theorem dispose (h : w.Within T reacts hidden) (i : Nat) :
    ({ w with subscriptions := w.subscriptions.set i none } : World V P σ ε).Within T reacts
      hidden := by
  refine ⟨h.made, h.store, h.observers, ?_⟩
  exact fun j c hc => h.teardowns j c (Heap.of_get?_set_none _ i j _ hc)

variable [BEq V]

theorem commit (h : w.Within T reacts hidden) (hp : w.publisher? p = some s) {v : V}
    (hc : s.commit v = some s') : (w.setPublisher p s').Within T reacts hidden := by
  refine h.unmanned hp fun r hr => ?_
  rw [Publisher.registrations_commit hc] at hr
  exact hr

omit [BEq V] in
/-- An entry that is taken calls observers that were there. -/
theorem pop (h : w.Within T reacts hidden) (hp : w.publisher? p = some s)
    {dl : Delivery V (Observer V P σ ε)} (hpop : s.pop = some (dl, s')) :
    (w.setPublisher p s').Within T reacts hidden ∧
      ∀ c ∈ dl.calls, c.observer.Within T reacts (w.scope hidden) p := by
  refine ⟨h.unmanned hp fun r hr => Publisher.registrations_pop hpop ▸ hr, ?_⟩
  rcases Publisher.pop_cases hpop with ⟨v, rest, hq, rfl, rfl⟩ | ⟨r, rest, hq, rfl, rfl⟩
  · intro c hc
    obtain ⟨r, hr, rfl⟩ := List.mem_map.1 hc
    exact h.observers p s hp r (List.mem_append_left _ hr)
  · intro c hc
    obtain rfl := List.mem_singleton.1 hc
    refine h.observers p s hp r (List.mem_append_right _ ?_)
    rw [Publisher.arrivals_of_attach hq]
    exact List.mem_cons_self

/-- An indivisible operation other than on the store. -/
theorem perform (h : w.Within T reacts hidden) {a : Atom V σ ε} {x : a.Answer}
    {es : List (Event V ε)} (hown : ∀ f, a ≠ .own f) (ha : w.perform a = some (x, w', es)) :
    w'.Within T reacts hidden := by
  refine h.grow (World.grows_perform ha) ?_ ?_ fun _ _ hc => World.of_perform_teardown ha hc
  · exact (World.performed ha).store.resolve_right fun ⟨f, he, _⟩ => hown f he
  · intro q s' hs' r hr
    rcases World.of_perform_publisher? ha hs' with hold | ⟨guard, v, rfl⟩
    · exact ⟨s', hold, hr⟩
    · exact nomatch hr

theorem performBag (h : w.Within T reacts hidden) {r : BagRef}
    {f : List SubscriptionRef → List SubscriptionRef} {ss : List SubscriptionRef}
    {es : List (Event V ε)} (ha : w.perform (.bag r f) = some (ss, w', es)) :
    w'.Within T reacts hidden :=
  h.perform (a := .bag r f) nofun ha

theorem performMemo (h : w.Within T reacts hidden) {m : MemoRef} {f : List V → List V}
    {vs : List V} {es : List (Event V ε)} (ha : w.perform (.memo m f) = some (vs, w', es)) :
    w'.Within T reacts hidden :=
  h.perform (a := .memo m f) nofun ha

/-- What a program in scope goes on with after an indivisible operation is in scope. -/
theorem performed (h : w.Within T reacts hidden) {a : Atom V σ ε} {x : a.Answer}
    {k : a.Answer → Prog V P σ ε} {es : List (Event V ε)}
    (hc : (Prog.atom a k).Within T (w.scope hidden)) (hplain : ∀ K, ¬ T.special (.atom a k) K)
    (ha : w.perform a = some (x, w', es)) :
    w'.Within T reacts hidden ∧ (k x).Within T (w'.scope hidden) := by
  cases hc with
  | own hf hk =>
      cases ha
      refine ⟨⟨h.made, ?_, h.observers, h.teardowns⟩, ?_⟩
      · exact hf _ subset_rfl _ h.store
      · exact hk _ subset_rfl _ h.store
  | atom hown _ hk =>
      have hgives := World.gives_subset_scope h.made ha
      have hgrow := World.grows_perform ha
      exact ⟨h.perform hown ha, (hk x).mono (Set.union_subset hgrow.scope hgives)⟩
  | special hspecial => exact absurd hspecial (hplain _)

end World.Within

/-! ## Moves -/

namespace Thread

variable [BEq V] {body : P → Prog V P σ ε} {t t' : Thread V P σ ε} {es : List (Event V ε)}

/-- Whether a move is the call of an observer that may reach hidden parts. -/
def Calls (reacts : PublisherRef → Routine V P σ ε → Prop) (t t' : Thread V P σ ε) : Prop :=
  ∃ u q c calls st, t = ⟨.run (.ret u), .deliver q (c :: calls) :: st⟩ ∧
    reacts q c.observer.react ∧ t'.focus = .run (c.observer.react c.value)

/-- What is run next keeps to its scope, unless an observer that may reach hidden parts has just
been called. The frames below the topmost one do not matter. -/
theorem Moves.within (hm : Moves body w t es w' t')
    (hbody : ∀ c, (body c).Within T (w.scope hidden)) (hw : w.Within T reacts hidden)
    (htop : t.focus.Reaches → ∀ fr ∈ t.stack.head?, fr.Within T reacts (w.scope hidden))
    (hf : t.focus.Within T (w.scope hidden))
    (hplain : ∀ c K, t.focus = .run c → ¬ T.special c K) :
    w.Grows w' ∧ w'.Within T reacts hidden ∧
      (∀ fr ∈ t'.stack, fr ∈ t.stack ∨ fr.Within T reacts (w'.scope hidden)) ∧
      (t'.focus.Within T (w'.scope hidden) ∨ Calls reacts t t') := by
  have keep : ∀ {fr : Frame V P σ ε} {st : List (Frame V P σ ε)} {R : Scope},
      ∀ fr' ∈ st, fr' ∈ fr :: st ∨ fr'.Within T reacts R := fun _ h =>
    Or.inl (List.mem_cons_of_mem _ h)
  have stay : ∀ {st : List (Frame V P σ ε)} {R : Scope},
      ∀ fr' ∈ st, fr' ∈ st ∨ fr'.Within T reacts R := fun _ h => Or.inl h
  -- the frames that leave monitors go on with nothing
  have leaves : ∀ (r : Publisher V (Observer V P σ ε)) {st upper : List (Frame V P σ ε)} {R : Scope},
      (∀ fr ∈ upper, fr ∈ st ∨ fr.Within T reacts R) →
      ∀ fr ∈ r.leaving ++ upper, fr ∈ st ∨ fr.Within T reacts R := fun r _ _ _ =>
    r.forall_mem_leaving fun _ => Or.inr trivial
  cases hm with
  | resumed => exact ⟨.refl _, hw, keep, Or.inl (htop trivial _ rfl _)⟩
  | unharmed | caught => exact ⟨.refl _, hw, keep, Or.inl (htop trivial _ rfl _)⟩
  | left => exact ⟨⟨le_rfl, le_rfl, le_rfl⟩, hw.leave _, keep, Or.inl (.ret _)⟩
  | expelled => exact ⟨⟨le_rfl, le_rfl, le_rfl⟩, hw.leave _, keep, Or.inl trivial⟩
  | @called v q c calls st =>
      -- the one move after which something out of scope may run
      obtain ⟨hc, hcalls⟩ := List.forall_mem_cons.1 (htop trivial _ rfl)
      refine ⟨.refl _, hw, ?_, ?_⟩
      · refine List.forall_mem_cons.2 ⟨Or.inr trivial, List.forall_mem_cons.2 ⟨Or.inr hcalls, keep⟩⟩
      · exact hc.imp (fun h => h c.value) fun h => ⟨v, q, c, calls, st, rfl, h, rfl⟩
  | drained hp hpop =>
      exact ⟨World.grows_setPublisher _ _, hw.unmanned hp fun _ hr => hr, keep, Or.inl (.ret _)⟩
  | @popped v q s d s' st hp hpop =>
      have hgrow := World.grows_setPublisher (w := w) q s'
      obtain ⟨hw', hcalls⟩ := hw.pop hp hpop
      refine ⟨hgrow, hw', List.forall_mem_cons.2 ⟨Or.inr ?_, keep⟩, Or.inl (.ret _)⟩
      exact fun c hc => (hcalls c hc).mono hgrow.scope
  | observed | amendedSame => exact ⟨.refl _, hw, keep, Or.inl (.ret _)⟩
  | amended hp hc =>
      exact ⟨World.grows_setPublisher _ _, hw.commit hp hc, keep, Or.inl trivial⟩
  | registered =>
      have hk := htop trivial _ rfl
      exact ⟨⟨le_rfl, le_rfl, le_rfl⟩, hw.newSubscription nofun, keep, Or.inl (hk _)⟩
  | swapped => exact ⟨⟨le_rfl, le_rfl, le_rfl⟩, hw.setCell _ _, keep, Or.inl (.ret _)⟩
  | contended =>
      have hk := htop trivial _ rfl
      exact ⟨.refl _, hw, List.forall_mem_cons.2 ⟨Or.inr hk, keep⟩, Or.inl (hk _)⟩
  | @abandoned text p calls s st hp =>
      refine ⟨World.grows_setPublisher _ _, hw.unmanned hp ?_, keep, Or.inl trivial⟩
      intro r hr
      exact (List.mem_append.1 hr).elim (List.mem_append_left _) nofun
  | passed => exact ⟨.refl _, hw, keep, Or.inl trivial⟩
  | busy => exact ⟨.refl _, hw, stay, Or.inl (.ret _)⟩
  | draining hp hb =>
      obtain ⟨-, rfl⟩ := Publisher.beginDrain_eq_some hb
      refine ⟨World.grows_setPublisher _ _, hw.unmanned hp fun _ hr => hr, ?_, Or.inl (.ret _)⟩
      exact List.forall_mem_cons.2 ⟨Or.inr nofun, stay⟩
  | panicked => exact ⟨.refl _, hw, stay, Or.inl trivial⟩
  | performed ha =>
      obtain ⟨hw', hk⟩ := hw.performed hf (fun K => hplain _ K rfl) ha
      exact ⟨World.grows_perform ha, hw', stay, Or.inl hk⟩
  | entered =>
      cases hf with
      | call hk =>
          exact ⟨.refl _, hw, List.forall_mem_cons.2 ⟨Or.inr hk, stay⟩, Or.inl (hbody _)⟩
      | special h => exact absurd h (hplain _ _ rfl)
  | attempted =>
      cases hf with
      | attempt hc hk => exact ⟨.refl _, hw, List.forall_mem_cons.2 ⟨Or.inr hk, stay⟩, Or.inl hc⟩
      | special h => exact absurd h (hplain _ _ rfl)
  | @held m c k st =>
      cases hf with
      | hold hc hk =>
          refine ⟨⟨le_rfl, le_rfl, le_rfl⟩, hw.enterAll [m], ?_, Or.inl hc⟩
          exact List.forall_mem_cons.2 ⟨Or.inr trivial, List.forall_mem_cons.2 ⟨Or.inr hk, stay⟩⟩
      | special h => exact absurd h (hplain _ _ rfl)
  | retried =>
      cases hf with
      | retry hf hk =>
          refine ⟨.refl _, hw, ?_, Or.inl (hf _)⟩
          exact List.forall_mem_cons.2 ⟨Or.inr hf, List.forall_mem_cons.2 ⟨Or.inr hk, stay⟩⟩
      | special h => exact absurd h (hplain _ _ rfl)
  | @publishedSame p v k s st hp hc =>
      have hgrow := World.grows_enterAll (w := w) s.monitors
      cases hf with
      | publish _ hk =>
          refine ⟨hgrow, hw.enterAll _, leaves s ?_, Or.inl (.ret _)⟩
          exact List.forall_mem_cons.2 ⟨Or.inr fun _ => hk.mono hgrow.scope, stay⟩
      | special h => exact absurd h (hplain _ _ rfl)
  | @published p v k s s' st hp hc =>
      have hgrow := (World.grows_enterAll (w := w) s.monitors).trans
        (World.grows_setPublisher p s')
      have hp' := (World.publisher?_enterAll s.monitors).trans hp
      cases hf with
      | publish _ hk =>
          refine ⟨hgrow, (hw.enterAll _).commit hp' hc, leaves s ?_, Or.inl trivial⟩
          exact List.forall_mem_cons.2 ⟨Or.inr fun _ => hk.mono hgrow.scope, stay⟩
      | special h => exact absurd h (hplain _ _ rfl)
  | @amending p f k s st hp =>
      have hgrow := World.grows_enterAll (w := w) s.monitors
      cases hf with
      | amend hmem hf hk =>
          refine ⟨hgrow, hw.enterAll _, ?_, Or.inl ((hf _).mono hgrow.scope)⟩
          refine List.forall_mem_cons.2 ⟨Or.inr (hgrow.scope hmem), leaves s ?_⟩
          exact List.forall_mem_cons.2 ⟨Or.inr fun v => (hk v).mono hgrow.scope, stay⟩
      | special h => exact absurd h (hplain _ _ rfl)
  | @attached p keeps o k s st hp =>
      have hgrow := (World.grows_enterAll (w := w) s.monitors).trans
        (World.grows_setPublisher p (s.enqueue ⟨o, keeps⟩))
      cases hf with
      | attach _ ho hk =>
          refine ⟨hgrow, hw.enqueue hp (Or.inl ho), leaves s ?_, Or.inl trivial⟩
          exact List.forall_mem_cons.2 ⟨Or.inr fun x => (hk x).mono hgrow.scope, stay⟩
      | special h => exact absurd h (hplain _ _ rfl)
  | prepared =>
      cases hf with
      | onDispose hc hk =>
          refine ⟨⟨le_rfl, le_rfl, le_rfl⟩, hw.newSubscription ?_, stay, Or.inl (hk _)⟩
          intro c hc'
          cases hc'
          exact hc
      | special h => exact absurd h (hplain _ _ rfl)
  | disposedAgain =>
      cases hf with
      | dispose hk => exact ⟨.refl _, hw, stay, Or.inl hk⟩
      | special h => exact absurd h (hplain _ _ rfl)
  | @tornDown s c k st hs =>
      cases hf with
      | dispose hk =>
          refine ⟨⟨le_rfl, le_rfl, le_rfl⟩, hw.dispose s.index, ?_, Or.inl (hw.teardowns _ c hs)⟩
          exact List.forall_mem_cons.2 ⟨Or.inr fun _ => hk, stay⟩
      | special h => exact absurd h (hplain _ _ rfl)
  | @detached s p id q k st hs hp =>
      cases hf with
      | dispose hk =>
          have hgrow : w.Grows ({ w with
              subscriptions := w.subscriptions.set s.index none }.setPublisher p (q.detach id)) :=
            ⟨(Heap.size_set _ _ _).ge, le_rfl, le_rfl⟩
          refine ⟨hgrow, (hw.dispose s.index).unmanned hp ?_, stay, Or.inl (hk.mono hgrow.scope)⟩
          intro r hr
          rw [Publisher.registrations_detach] at hr
          exact (List.mem_filter.1 hr).1
      | special h => exact absurd h (hplain _ _ rfl)

/-- Nothing that has been allocated goes away. -/
theorem Moves.grows (hm : Moves body w t es w' t') : w.Grows w' := by
  cases hm with
  | performed ha => exact World.grows_perform ha
  | drained | popped | amended | abandoned => exact World.grows_setPublisher _ _
  | draining => exact World.grows_setPublisher _ _
  | publishedSame | amending => exact World.grows_enterAll _
  | published | attached => exact (World.grows_enterAll _).trans (World.grows_setPublisher _ _)
  | detached => exact ⟨(Heap.size_set _ _ _).ge, le_rfl, le_rfl⟩
  | _ => exact ⟨le_rfl, le_rfl, le_rfl⟩

/-! ## Who changes what -/

/-- Whether a thread is about to write a value to a publisher. -/
inductive Writes (p : PublisherRef) (v : V) : Thread V P σ ε → Prop where
  | publish (k : Prog V P σ ε) (st : List (Frame V P σ ε)) :
      Writes p v ⟨.run (.publish p v k), st⟩
  | commit (st : List (Frame V P σ ε)) : Writes p v ⟨.run (.ret v), .commit p :: st⟩

/-- The value of a publisher changes only by a write. -/
theorem Moves.writes (hm : Moves body w t es w' t') {v : V} (hv : .committed v ∈ signals p es) :
    Writes p v t := by
  cases hm with
  | @published q u k r r' st hr hc =>
      obtain ⟨rfl, rfl⟩ : q = p ∧ u = v := by
        simpa [eq_comm] using hv
      exact .publish k _
  | @amended u q r r' st hr hc =>
      obtain ⟨rfl, rfl⟩ : q = p ∧ u = v := by
        simpa [eq_comm] using hv
      exact .commit _
  | performed ha =>
      rw [signals_perform p ha] at hv
      exact absurd hv List.not_mem_nil
  | popped =>
      rw [signals_report] at hv
      exact absurd hv List.not_mem_nil
  | called | attached | detached => grind [signals, Event.signal?]
  | resumed | unharmed | left | drained | observed | amendedSame | registered | swapped
  | contended | caught | expelled | abandoned | passed | busy | draining | panicked | entered
  | attempted | held | retried | publishedSame | amending | prepared | disposedAgain | tornDown =>
      exact absurd hv List.not_mem_nil

/-- Somebody is queued only by a program that subscribes. -/
theorem Moves.queues (hm : Moves body w t es w' t') {id : Nat} (hq : .queued id ∈ signals p es) :
    ∃ keeps o k, t.focus = .run (.attach p keeps o k) := by
  cases hm with
  | @attached q keeps o k r st hr =>
      obtain ⟨rfl, -⟩ : q = p ∧ r.nextId = id := by
        simpa [eq_comm] using hq
      exact ⟨keeps, o, k, rfl⟩
  | performed ha =>
      rw [signals_perform p ha] at hq
      exact absurd hq List.not_mem_nil
  | popped =>
      rw [signals_report] at hq
      exact absurd hq List.not_mem_nil
  | called | published | amended | detached => grind [signals, Event.signal?]
  | resumed | unharmed | left | drained | observed | amendedSame | registered | swapped
  | contended | caught | expelled | abandoned | passed | busy | draining | panicked | entered
  | attempted | held | retried | publishedSame | amending | prepared | disposedAgain | tornDown =>
      exact absurd hq List.not_mem_nil

/-- A program that has no use for a publisher does not begin to drain it. -/
theorem Moves.settled (hm : Moves body w t es w' t') (hp : w.publisher? p = some s)
    (hset : t.Settled p) (hf : t.focus.Within T.plain S)
    (htop : t.focus.Reaches → ∀ fr ∈ t.stack.head?, fr.Within T.plain reacts S)
    (hread : .read p ∉ S) (hpublish : .publish p ∉ S) (hamend : .amend p ∉ S) :
    t'.Settled p := by
  obtain ⟨s', -, hv⟩ := hm.view hp
  have hdue : (t.view p s).due = [] := hset.due
  have hfocus : (t.view p s).focus ≠ .drain p := hset.focus
  have key : ∀ {x x' : View V P σ ε} {l : List (Signal V)}, View.Move p x l x' → x.due = [] →
      x.focus ≠ .drain p → (∀ v, .committed v ∉ l) → (∀ id, .queued id ∉ l) →
      x'.focus ≠ .drain p ∧ x'.due = [] := by
    intro x x' l hv hdue hfocus hcommit hqueue
    cases hv with
    | other _ hf' => exact ⟨hf', hdue⟩
    | detach _ _ hf' => exact ⟨hf', hdue⟩
    | commit => exact absurd List.mem_cons_self (hcommit _)
    | enqueue => exact absurd List.mem_cons_self (hqueue _)
    | start | busy => exact absurd rfl hfocus
    | call | pop | finish | abandon => exact nomatch hdue
  obtain ⟨hfocus', hdue'⟩ := key hv hdue hfocus
    (by
      intro v hcommit
      cases hm.writes hcommit with
      | publish k st =>
          cases hf with
          | publish hmem => exact hpublish hmem
          | special h => exact h.elim
      | commit st => exact hamend (htop trivial _ rfl))
    (by
      intro id hqueue
      obtain ⟨keeps, o, k, he⟩ := hm.queues hqueue
      rw [he] at hf
      cases hf with
      | attach hmem => exact hread hmem
      | special h => exact h.elim)
  exact ⟨hfocus', hdue'⟩

/-- A bag changes only by an operation on it. -/
theorem Moves.bag_eq (hm : Moves body w t es w' t') {r : BagRef} {ss : List SubscriptionRef}
    (hr : w.bags.get? r.index = some ss) (hf : ∀ f k, t.focus ≠ .run (.atom (.bag r f) k)) :
    w'.bags.get? r.index = some ss := by
  cases hm with
  | performed ha =>
      refine World.perform_bag? ha hr ?_
      rintro f rfl
      exact hf f _ rfl
  | publishedSame | published | amending | attached =>
      rw [World.enterAll_eq]
      exact hr
  | _ => exact hr

/-- A shared list changes only by an operation on it. -/
theorem Moves.memo_eq (hm : Moves body w t es w' t') {m : MemoRef} {vs : List V}
    (hr : w.memos.get? m.index = some vs) (hf : ∀ f k, t.focus ≠ .run (.atom (.memo m f) k)) :
    w'.memos.get? m.index = some vs := by
  cases hm with
  | performed ha =>
      refine World.perform_memo? ha hr ?_
      rintro f rfl
      exact hf f _ rfl
  | publishedSame | published | amending | attached =>
      rw [World.enterAll_eq]
      exact hr
  | _ => exact hr

/-- Whoever keeps to a scope leaves alone the shared lists that are hidden from it. -/
theorem Moves.hidden_memo_eq (hm : Moves body w t es w' t') (hw : w.Within T reacts hidden)
    (hf : t.focus.Within T (w.scope hidden)) {m : MemoRef} (hhidden : .memo m ∈ hidden)
    (hplain : ∀ f k K, t.focus = .run (.atom (.memo m f) k) →
      ¬ T.special (.atom (.memo m f) k) K) :
    w'.memos.get? m.index = w.memos.get? m.index := by
  have hmade : m.index < w.memos.size := hw.made _ hhidden
  have hget : w.memos.get? m.index = some _ := List.getElem?_eq_getElem hmade
  rw [hget]
  refine hm.memo_eq hget fun f k hc => ?_
  rw [hc] at hf
  exact (Prog.Within.head_subset hf (fun K => hplain f k K hc) rfl).2 hhidden

end Thread

end Terms

end ReactiveCells
