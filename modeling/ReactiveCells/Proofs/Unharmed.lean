import ReactiveCells.Proofs.Recovering
import ReactiveCells.Proofs.Refusing
import ReactiveCells.Proofs.Retrying

/-!
# Unharmed — a modification that panics

Whatever a function is to be applied to through a tower of views, facades and breakers, the tower
applies it first and writes afterwards. Until it has come back nothing but monitors has been
entered, so a panic of the function has nothing to undo: it passes the conversions that were to
come, leaves the monitors, and goes on to whoever asked for the modification. The tower is as it
was, unless the function itself has changed something meanwhile.

The induction is on the tower, and from above a function wrapped by a view is a function again. The
ordered set applies its function in the same way.

Main statement: `panicking_modify_changes_nothing`.
-/

namespace ReactiveCells

open HasElements

variable {V T P σ ε : Type}

/-! ## What a tower is made of -/

namespace Node

variable {F : Type} {k : Kind}

/-- The cells that a node is built on. -/
def cells : {k : Kind} → Node F k → List CellRef
  | _, .plain c | _, .swap c | _, .guarded _ c => [c]
  | _, .rx _ | _, .rxGuarded .. => []
  | _, .view root _ | _, .enforced root _ _ | _, .breaker root _ _ => root.cells

/-- The bags that hold what couples the breakers of a tower. -/
def couplings : {k : Kind} → Node F k → List BagRef
  | _, .plain _ | _, .swap _ | _, .guarded .. | _, .rx _ | _, .rxGuarded .. => []
  | _, .view root _ | _, .enforced root _ _ => root.couplings
  | _, .breaker delegate _ coupling => coupling :: delegate.couplings

/-- Whether all that a tower is made of is there. -/
structure Made (n : Node F k) (w : World V P σ ε) : Prop where
  cells : ∀ c ∈ n.cells, ∃ d, w.cell? c = some d
  publishers : ∀ p ∈ n.publishers, ∃ s, w.publisher? p = some s
  couplings : ∀ r ∈ n.couplings, ∃ ss, w.bags.get? r.index = some ss

/-- Whether all that a tower is made of is in one world as it is in another, and as much is held. -/
structure Same (n : Node F k) (w w' : World V P σ ε) : Prop where
  cells : ∀ c ∈ n.cells, w'.cell? c = w.cell? c
  publishers : ∀ p ∈ n.publishers, w'.publisher? p = w.publisher? p
  couplings : ∀ r ∈ n.couplings, w'.bags.get? r.index = w.bags.get? r.index
  held : w'.held = w.held

variable [BEq V]

/-- Whether a thread is about to change something that a tower is made of. -/
inductive Disturbs (n : Node F k) (w : World V P σ ε) (t : Thread V P σ ε) : Prop where
  | cell {c : CellRef} : c ∈ n.cells → t.Stores w c → Disturbs n w t
  | publisher {p : PublisherRef} : p ∈ n.publishers → t.Operates p w → Disturbs n w t
  | coupling {r : BagRef} {g : List SubscriptionRef → List SubscriptionRef}
      {k : List SubscriptionRef → Prog V P σ ε} {st : List (Frame V P σ ε)} :
      r ∈ n.couplings → t = ⟨.run (.atom (.bag r g) k), st⟩ → Disturbs n w t

end Node

section Aside

variable [BEq V] {body : P → Prog V P σ ε} {w w' : World V P σ ε} {t t' : Thread V P σ ε}
  {es : List (Event V ε)} {r : BagRef} {ss : List SubscriptionRef}

/-- A run in which nothing of a tower is changed leaves it as it was, except for what is held. -/
theorem Node.Made.aside {F : Type} {k : Kind} {n : Node F k} {c : Prog V P σ ε} (hn : n.Made w)
    (h : AnyRun body w (.start c) es w' t)
    (hno : ∀ es w' t, AnyRun body w (.start c) es w' t → ¬ n.Disturbs w' t) :
    (∀ c ∈ n.cells, w'.cell? c = w.cell? c) ∧
      (∀ p ∈ n.publishers, w'.publisher? p = w.publisher? p) ∧
      ∀ r ∈ n.couplings, w'.bags.get? r.index = w.bags.get? r.index := by
  refine ⟨fun c hc => ?_, fun p hp => ?_, fun r hr => ?_⟩
  · obtain ⟨d, hd⟩ := hn.cells c hc
    rw [hd]
    induction h with
    | refl => exact hd
    | step hrun hstep _ ih =>
        exact ((Thread.moves_iff.2 hstep).cell? ih).1 fun hst => hno _ _ _ hrun (.cell hc hst)
    | next _ _ hc _ _ => exact hc.elim
  · obtain ⟨s, hs⟩ := hn.publishers p hp
    rw [hs]
    exact (h.aside (Thread.aside_start p c) hs fun _ _ _ hrun hop =>
      hno _ _ _ hrun (.publisher hp hop)).2.1
  · obtain ⟨ss, hss⟩ := hn.couplings r hr
    rw [hss]
    induction h with
    | refl => exact hss
    | @step _ _ _ _ t₁ _ hrun hstep _ ih =>
        refine (Thread.moves_iff.2 hstep).bag_eq ih fun g k hf => ?_
        have ht : t₁ = ⟨.run (.atom (.bag r g) k), t₁.stack⟩ := hf ▸ rfl
        exact hno _ _ _ hrun (.coupling hr ht)
    | next _ _ hc _ _ => exact hc.elim

end Aside

/-! ## The function comes first -/

/-- The world in which monitors have been entered. -/
def World.inside (w : World V P σ ε) (ms : List Monitor) : World V P σ ε :=
  { w with held := ms ++ w.held }

theorem World.enterAll_eq_inside (w : World V P σ ε) (ms : List Monitor) :
    w.enterAll ms = w.inside ms := by
  have hheld : ms.foldr (fun m (h : Held) => h.enter m) w.held = ms ++ w.held := by
    rw [← World.held_enterAll, World.enterAll_eq]
  rw [World.enterAll_eq, hheld]
  rfl

/-- Who leaves the monitors entered last holds what was held before. -/
theorem World.leaveAll_of_held {w : World V P σ ε} {ms : List Monitor} {h : Held}
    (hw : w.held = ms ++ h) : w.leaveAll ms = { w with held := h } := by
  induction ms generalizing w with
  | nil =>
      obtain rfl : w.held = h := hw
      rfl
  | cons m ms ih =>
      have hleave : (w.leave m).held = ms ++ h := by
        rw [World.leave, hw]
        exact Held.leave_enter _ _
      exact ih hleave

variable [BEq V] {body : P → Prog V P σ ε} {w w₁ : World V P σ ε} {α : Type}
  {m : Routine V P σ ε → Act V P σ ε α} {x : V} {ms : List Monitor} {f : Routine V P σ ε}
  {es : List (Event V ε)} {text : String}

/-- Whether something that is given a function applies it to `x` before all else, from a world
`w₀` on in which it has entered monitors, and waits for it in nothing but these. -/
def Act.Begins (body : P → Prog V P σ ε) (w w₀ : World V P σ ε)
    (m : Routine V P σ ε → Act V P σ ε α) (x : V) (ms : List Monitor) : Prop :=
  ∀ f k st, ∃ g upper, AnyRun body w ⟨.run (m f k), st⟩ [] (w₀.inside ms)
      ⟨.run ((f x).bind g), upper ++ st⟩ ∧
    (∀ fr ∈ upper, fr.Light) ∧ upper.filterMap Frame.monitor? = ms

/-- A panic of the function goes on to whoever asked, and what is held is what was held before. -/
theorem Act.Begins.panics {w₀ : World V P σ ε} (h : Act.Begins body w w₀ m x ms)
    (hf : AnyRun body (w₀.inside ms) (.start (f x)) es w₁ ⟨.unwind text, []⟩)
    (k : α → Prog V P σ ε) (st : List (Frame V P σ ε)) :
    AnyRun body w ⟨.run (m f k), st⟩ es { w₁ with held := w₀.held } ⟨.unwind text, st⟩ := by
  obtain ⟨g, upper, hbegin, hupper, rfl⟩ := h f k st
  have hheld : w₁.held = upper.filterMap Frame.monitor? ++ w₀.held := hf.balanced rfl
  have hexpel : AnyRun body _ _ _ _ _ := expel_run hupper w₁ text st
  rw [World.leaveAll_of_held hheld] at hexpel
  have hall := (hbegin.trans (hf.through rfl g (upper ++ st))).trans hexpel
  rwa [List.append_nil] at hall

/-- Whatever comes first goes on inside what follows. -/
theorem Act.Begins.bind {β : Type} {w₀ : World V P σ ε} (h : Act.Begins body w w₀ m x ms)
    (j : α → Act V P σ ε β) : Act.Begins body w w₀ (fun f => m f >>= j) x ms :=
  fun f k st => h f (fun a => j a k) st

/-- Operations may come before the function. -/
theorem Act.Begins.after {w₀ w' : World V P σ ε} {a : Atom V σ ε} {y : a.Answer}
    {j : a.Answer → Routine V P σ ε → Act V P σ ε α} (ha : w.perform a = some (y, w', []))
    (h : Act.Begins body w' w₀ (j y) x ms) :
    Act.Begins body w w₀ (fun f => Act.atom a >>= fun y => j y f) x ms := by
  intro f k st
  obtain ⟨g, upper, hbegin, hupper⟩ := h f k st
  exact ⟨g, upper, .cons (Thread.Moves.performed ha).step trivial hbegin, hupper⟩

/-- A publisher is modified inside its monitors. -/
theorem Act.begins_amend {p : PublisherRef} {s : Publisher V (Observer V P σ ε)}
    (hp : w.publisher? p = some s) : Act.Begins body w w (Act.amend p) s.current s.monitors := by
  intro f k st
  refine ⟨.ret, .commit p :: s.leaving ++ [.resume k], ?_, ?_, ?_⟩
  · have hm : Thread.Moves body w ⟨.run (.amend p f k), st⟩ [] (w.enterAll s.monitors) _ :=
      .amending hp
    rw [World.enterAll_eq_inside, List.append_cons] at hm
    rw [Prog.bind_ret]
    exact .single hm.step trivial
  · refine List.forall_mem_cons.2 ⟨trivial, s.forall_mem_leaving (fun _ => trivial) ?_⟩
    exact List.forall_mem_singleton.2 trivial
  · exact (Thread.monitors_leaving s (.unwind "") [.resume k]).trans (List.append_nil _)

/-- The function may be given another value, and something may be made of what it yields. -/
theorem Act.Begins.wrapped {w₀ : World V P σ ε} (h : Act.Begins body w w₀ m x ms) (shown : V → V)
    (j : V → Routine V P σ ε) :
    Act.Begins body w w₀ (fun f => m fun v => (f (shown v)).bind (j v)) (shown x) ms := by
  intro f k st
  obtain ⟨g, upper, hbegin, hupper⟩ := h (fun v => (f (shown v)).bind (j v)) k st
  rw [Prog.bind_assoc] at hbegin
  exact ⟨_, upper, hbegin, hupper⟩

/-- A tower applies the function that it is modified by first. -/
theorem Node.begins_modify {k : Kind} {n : Node (V → V) k} (hn : n.Made w) :
    ∃ x ms, Act.Begins body w w (n.map Node.pureRoutine).modify x ms := by
  have load : ∀ {c : CellRef} {d : Cell V} (w : World V P σ ε) (k : V → Prog V P σ ε)
      (st : List (Frame V P σ ε)), w.cell? c = some d →
      Thread.Moves body w ⟨.run (.atom (.load c) k), st⟩ [] w ⟨.run (k d.value), st⟩ := by
    intro c d w k st hd
    have hload : w.perform (.load c) = some (d.value, w, []) :=
      congrArg (Option.map _) hd
    exact .performed hload
  induction n with
  | plain c =>
      obtain ⟨d, hd⟩ := hn.cells c List.mem_cons_self
      refine ⟨d.value, [], fun f k st => ?_⟩
      refine ⟨fun v => .atom (.store c v) fun _ => .atom (.load c) k, [], ?_, nofun, rfl⟩
      exact .single (load w _ st hd).step trivial
  | swap c =>
      obtain ⟨d, hd⟩ := hn.cells c List.mem_cons_self
      refine ⟨d.value, [], fun f k st => ⟨.ret, [.swapIn c d.stamp 0 f, .resume k], ?_, ?_, rfl⟩⟩
      · rw [Prog.bind_ret]
        exact .single (Thread.Moves.retried hd).step trivial
      · exact List.forall_mem_cons.2 ⟨trivial, List.forall_mem_singleton.2 trivial⟩
  | guarded l c =>
      obtain ⟨d, hd⟩ := hn.cells c List.mem_cons_self
      refine ⟨d.value, [.lock l], fun f k st => ?_⟩
      refine ⟨fun v => .atom (.store c v) fun _ => .ret v, [.leave (.lock l), .resume k], ?_, ?_, rfl⟩
      · exact .cons Thread.Moves.held.step trivial
          (.single (load (w.enter (.lock l)) _ _ hd).step trivial)
      · exact List.forall_mem_cons.2 ⟨trivial, List.forall_mem_singleton.2 trivial⟩
  | rx p | rxGuarded l p =>
      obtain ⟨s, hs⟩ := hn.publishers p List.mem_cons_self
      exact ⟨_, _, Act.begins_amend hs⟩
  | view root conv ih =>
      obtain ⟨x, ms, hroot⟩ := ih ⟨hn.cells, hn.publishers, hn.couplings⟩
      exact ⟨_, ms, (hroot.wrapped conv.forward fun _ => Node.pureRoutine conv.backward).bind _⟩
  | enforced root inv s ih =>
      obtain ⟨x, ms, hroot⟩ := ih ⟨hn.cells, hn.publishers, hn.couplings⟩
      exact ⟨_, ms, (hroot.wrapped inv fun _ => Node.pureRoutine inv).bind _⟩
  | breaker delegate copy coupling ih =>
      obtain ⟨s, hs⟩ := hn.publishers copy List.mem_cons_self
      obtain ⟨ss, hss⟩ := hn.couplings coupling List.mem_cons_self
      -- asking whether the breaker is closed changes nothing
      have hasked : w.perform (.bag coupling id) = some (ss, w, []) := by
        have hsame : w.bags.set coupling.index ss = w.bags := Heap.set_of_get? _ _ _ hss
        rw [World.perform_bag hss id]
        exact congrArg (fun h => some (ss, { w with bags := h }, [])) hsame
      have hbranch : ∃ x ms, Act.Begins body w w (fun f => if !ss.isEmpty then
          (delegate.map Node.pureRoutine).modify f else Act.amend copy f) x ms := by
        cases hopen : ss.isEmpty with
        | true => exact ⟨_, _, Act.begins_amend hs⟩
        | false => exact ih ⟨hn.cells, fun p hp => hn.publishers p (List.mem_cons_of_mem _ hp),
            fun r hr => hn.couplings r (List.mem_cons_of_mem _ hr)⟩
      obtain ⟨x, ms, hbegins⟩ := hbranch
      exact ⟨x, ms, .after hasked hbegins⟩

/-! ## Nothing is changed -/

/-- Whether something that is modified by a function `f` applies it to some `x`, as it does to any
other function, and a panic of that goes on to whoever asked, with all as it was unless `f` has
changed something itself. -/
def Act.Unharmed {F : Type} {k : Kind} (body : P → Prog V P σ ε) (n : Node F k) (w : World V P σ ε)
    (m : Routine V P σ ε → Act V P σ ε α) : Prop :=
  ∃ x w₀, ∀ f g st,
    (∃ g' st', AnyRun body w ⟨.run (m f g), st⟩ [] w₀ ⟨.run ((f x).bind g'), st'⟩) ∧
    ∀ es w₁ text, AnyRun body w₀ (.start (f x)) es w₁ ⟨.unwind text, []⟩ →
      ∃ w₂, AnyRun body w ⟨.run (m f g), st⟩ es w₂ ⟨.unwind text, st⟩ ∧
        ((∀ es w' t, AnyRun body w₀ (.start (f x)) es w' t → ¬ n.Disturbs w' t) → n.Same w w₂)

/-- What begins with the function leaves undone what was to follow. -/
theorem Act.Begins.unharmed {F : Type} {k : Kind} {n : Node F k} {w₀ : World V P σ ε}
    (h : Act.Begins body w w₀ m x ms) (hn : n.Made w₀) (hsame : n.Same w w₀) :
    Act.Unharmed body n w m := by
  refine ⟨x, w₀.inside ms, fun f g st => ⟨?_, fun es w₁ text hf => ?_⟩⟩
  · obtain ⟨g', upper, hbegin, -⟩ := h f g st
    exact ⟨g', _, hbegin⟩
  · refine ⟨_, h.panics hf g st, fun hno => ?_⟩
    have hmade : n.Made (w₀.inside ms) := ⟨hn.cells, hn.publishers, hn.couplings⟩
    obtain ⟨hcells, hpublishers, hcouplings⟩ := hmade.aside hf hno
    exact ⟨fun c hc => (hcells c hc).trans (hsame.cells c hc),
      fun p hp => (hpublishers p hp).trans (hsame.publishers p hp),
      fun r hr => (hcouplings r hr).trans (hsame.couplings r hr), hsame.held⟩

variable [HasElements V T] [BEq T]

/-- A set notes refusals in a list that nobody else knows, and modifies its publisher. -/
theorem OrderedSet.begins_modify {s : OrderedSet} {q : Publisher V (Observer V P σ ε)}
    (hq : w.publisher? s.publisher = some q) :
    Act.Begins body w { w with memos := w.memos.alloc [] }
      (s.modify : Routine V P σ ε → Act V P σ ε (Except DuplicateValue (List T))) q.current
      q.monitors := by
  have hnew : w.perform (.newMemo []) =
      some (⟨w.memos.size⟩, { w with memos := w.memos.alloc [] }, []) := rfl
  have hamend : Act.Begins body { w with memos := w.memos.alloc [] }
      { w with memos := w.memos.alloc [] } (Act.amend s.publisher) q.current q.monitors :=
    Act.begins_amend hq
  intro f k st
  rw [OrderedSet.modify_eq]
  exact Act.Begins.after (a := .newMemo []) (j := fun (r : MemoRef) f => Act.amend s.publisher
    (fun v => (f v).bind (s.accept r v)) >>= fun held => Act.memo r id >>= fun refused =>
      pure (s.answer held refused)) hnew ((hamend.wrapped id (s.accept _)).bind _) f k st

/-- A tower of views, facades and breakers with pure functions, on whatever kind of container, and
an ordered set: where the function that they are modified by panics, the panic goes on to whoever
asked for the modification, in whatever state the world is and whatever waits there. If the function
has changed nothing of the tower, all that the tower is made of is as it was, and as much is held. -/
theorem panicking_modify_changes_nothing (body : P → Prog V P σ ε) (w : World V P σ ε) :
    (∀ (k : Kind) (n : Node (V → V) k), n.Made w →
      Act.Unharmed body n w (n.map Node.pureRoutine).modify) ∧
    ∀ s : OrderedSet, (Node.rx s.publisher : Node (V → V) .reactive).Made w →
      Act.Unharmed body (Node.rx s.publisher : Node (V → V) .reactive) w
        (s.modify : Routine V P σ ε → Act V P σ ε (Except DuplicateValue (List T))) := by
  constructor
  · intro k n hn
    obtain ⟨x, ms, hbegins⟩ := Node.begins_modify hn
    exact hbegins.unharmed hn ⟨fun _ _ => rfl, fun _ _ => rfl, fun _ _ => rfl, rfl⟩
  · intro s hs
    obtain ⟨q, hq⟩ := hs.publishers s.publisher List.mem_cons_self
    refine (OrderedSet.begins_modify hq).unharmed ⟨nofun, ?_, nofun⟩ ?_
    · exact List.forall_mem_singleton.2 ⟨q, hq⟩
    · exact ⟨fun _ _ => rfl, fun _ _ => rfl, fun _ _ => rfl, rfl⟩

/-- A closed breaker in front of a facade in front of a view of a guarded publisher of lists. -/
def stackedTower : Node (List Nat → List Nat) .reactive :=
  .breaker (.enforced (.view (.rxGuarded ⟨0, 1⟩ ⟨0⟩) ⟨List.reverse, List.reverse⟩) List.dedup ⟨1⟩) ⟨1⟩
    ⟨0⟩

/-- A world in which the publisher of `stackedTower` is being drained. -/
def drainingWorld : World (List Nat) Empty Unit Unit :=
  { World.new () with
    publishers := ⟨[⟨some ⟨0, 1⟩, [3, 4], [3, 4], [⟨0, .ret, []⟩], [], true, 1⟩, .new none [4, 3]]⟩
    bags := ⟨[[⟨0⟩]]⟩
    held := [.lock ⟨0, 1⟩] }

/-- In the middle of a delivery, an observer modifies the tower by a function that panics, or an
ordered set on the breaker's copy. -/
theorem panicking_modify_changes_nothing_draining :
    let st : List (Frame (List Nat) Empty Unit Unit) :=
      [.observe ⟨.ret, []⟩, .deliver ⟨0⟩ [], .leave (.lock ⟨0, 1⟩), .resume .ret]
    (∃ w', AnyRun nofun drainingWorld
        ⟨.run ((stackedTower.map Node.pureRoutine).modify (fun _ => .panic "boom") .ret), st⟩ [] w'
        ⟨.unwind "boom", st⟩ ∧ stackedTower.Same drainingWorld w') ∧
    ∃ w', AnyRun nofun drainingWorld
        ⟨.run ((⟨⟨1⟩, .reject⟩ : OrderedSet).modify (fun _ => .panic "boom")
          fun _ => .ret []), st⟩ [] w' ⟨.unwind "boom", st⟩ ∧
      (Node.rx ⟨1⟩ : Node (List Nat → List Nat) .reactive).Same drainingWorld w' := by
  intro st
  -- who panics at once disturbs nothing
  have panics : ∀ w₀ : World (List Nat) Empty Unit Unit,
      AnyRun nofun w₀ (.start (.panic "boom")) [] w₀ ⟨.unwind "boom", []⟩ := fun w₀ =>
    .single (Thread.moves_iff.1 .panicked) trivial
  have quiet : ∀ (n : Node (List Nat → List Nat) .reactive)
      (w₀ : World (List Nat) Empty Unit Unit) es w' t,
      AnyRun nofun w₀ (.start (.panic "boom")) es w' t → ¬ n.Disturbs w' t := by
    intro n w₀ es w' t hrun hdist
    have hends : t = .start (.panic "boom") ∨ t = ⟨.unwind "boom", []⟩ := by
      rcases hrun.first with ⟨-, -, ht⟩ | ⟨w₁, t₁, es₁, es₂, hstep, -, -, hrest⟩
      · exact Or.inl ht
      · cases hstep
        rcases hrest.first with ⟨-, -, ht⟩ | ⟨_, _, _, _, hstep, -⟩
        · exact Or.inr ht
        · exact nomatch hstep
    rcases hdist with ⟨-, hst⟩ | ⟨-, hop⟩ | ⟨-, ht⟩
    · rcases hends with rfl | rfl <;> exact hst
    · rcases hends with rfl | rfl <;> exact nomatch hop
    · rcases hends with rfl | rfl <;> exact nomatch ht
  obtain ⟨htower, hset⟩ := panicking_modify_changes_nothing nofun drainingWorld
  have hn : stackedTower.Made drainingWorld := by
    refine ⟨nofun, ?_, ?_⟩
    · exact List.forall_mem_cons.2 ⟨⟨_, rfl⟩, List.forall_mem_singleton.2 ⟨_, rfl⟩⟩
    · exact List.forall_mem_singleton.2 ⟨_, rfl⟩
  have hs : (Node.rx ⟨1⟩ : Node (List Nat → List Nat) .reactive).Made drainingWorld :=
    ⟨nofun, List.forall_mem_singleton.2 ⟨_, rfl⟩, nofun⟩
  constructor
  · obtain ⟨x, w₀, h⟩ := htower _ stackedTower hn
    obtain ⟨-, hpanics⟩ := h (fun _ => .panic "boom") .ret st
    obtain ⟨w', hrun, hsame⟩ := hpanics [] w₀ "boom" (panics w₀)
    exact ⟨w', hrun, hsame (quiet _ w₀)⟩
  · obtain ⟨x, w₀, h⟩ := hset ⟨⟨1⟩, .reject⟩ hs
    obtain ⟨-, hpanics⟩ := h (fun _ => .panic "boom") (fun _ => .ret []) st
    obtain ⟨w', hrun, hsame⟩ := hpanics [] w₀ "boom" (panics w₀)
    exact ⟨w', hrun, hsame (quiet _ w₀)⟩

end ReactiveCells
