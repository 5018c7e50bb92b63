import ReactiveCells.Derived
import ReactiveCells.Proofs.Reading
import ReactiveCells.Proofs.Soon
import ReactiveCells.Proofs.Scope

/-!
# Towers — nodes built on a publisher

A view or a facade shows what is below it through a function, and a breaker shows its own copy. So a
reactive node is a tower built on one publisher, and shows a function of what that publisher holds
(`Node.Shows`). Whoever subscribes to it is registered with the publisher, behind a row of gates,
one for each view or facade: a gate passes on what its function makes of a value, and keeps in a
shared list what it passed on last, to pass on only what differs.

A reaction behind gates is not called with every value. But after each value the gates hold what
they make of it, whether the value came through or not, and what came through last is what the tower
shows of it (`World.Kept`).

Main statements: `Shows.reads`, `Shows.subscribes` (a subscription lays a row of new gates) and
`gated_run` (what a row of gates does with a value).
-/

namespace ReactiveCells

variable {V P σ ε : Type}

/-! ## Worlds that differ in little -/

/-- Whether two worlds differ in one publisher and some shared lists only, and what is run in the
one keeps to the same scopes in the other. -/
structure World.Beside (d : PublisherRef) (ms : List MemoRef) (w w' : World V P σ ε) : Prop where
  within : ∀ T reacts hidden, w.Within T reacts hidden → w'.Within T reacts hidden
  grows : w.Grows w'
  publishers : ∀ q, q ≠ d → w'.publisher? q = w.publisher? q
  memos : ∀ m, m ∉ ms → w'.memos.get? m.index = w.memos.get? m.index
  bags : w'.bags = w.bags
  subscriptions : w'.subscriptions = w.subscriptions

namespace World.Beside

variable {w w' w'' : World V P σ ε} {d : PublisherRef} {ms ms' : List MemoRef}

theorem refl (w : World V P σ ε) : w.Beside d ms w :=
  ⟨fun _ _ _ h => h, .refl w, fun _ _ => rfl, fun _ _ => rfl, rfl, rfl⟩

theorem trans (h : w.Beside d ms w') (h' : w'.Beside d ms w'') : w.Beside d ms w'' where
  within T reacts hidden hw := h'.within T reacts hidden (h.within T reacts hidden hw)
  grows := h.grows.trans h'.grows
  publishers q hq := (h'.publishers q hq).trans (h.publishers q hq)
  memos m hm := (h'.memos m hm).trans (h.memos m hm)
  bags := h'.bags.trans h.bags
  subscriptions := h'.subscriptions.trans h.subscriptions

theorem mono (h : w.Beside d ms w') (hms : ms ⊆ ms') : w.Beside d ms' w' :=
  ⟨h.within, h.grows, h.publishers, fun m hm => h.memos m fun hmem => hm (hms hmem), h.bags,
    h.subscriptions⟩

/-- Monitors are nobody's concern. -/
theorem enterAll (w : World V P σ ε) (monitors : List Monitor) :
    w.Beside d ms (w.enterAll monitors) := by
  refine ⟨fun _ _ _ h => h.enterAll monitors, grows_enterAll monitors,
    fun _ _ => publisher?_enterAll monitors, fun _ _ => ?_, ?_, ?_⟩
  all_goals rw [enterAll_eq]

variable [BEq V]

/-- A shared list is changed. -/
theorem memo {m : MemoRef} {f : List V → List V} {vs : List V} {es : List (Event V ε)}
    (hm : m ∈ ms) (h : w.perform (.memo m f) = some (vs, w', es)) : w.Beside d ms w' := by
  have hwithin : ∀ T reacts hidden, w.Within T reacts hidden → w'.Within T reacts hidden :=
    fun _ _ _ hw => hw.performMemo h
  have hgrows : w.Grows w' := grows_perform h
  obtain ⟨vs', -, h⟩ := Option.map_eq_some_iff.1 h
  cases h
  refine ⟨hwithin, hgrows, fun _ _ => rfl, fun m' hm' => Heap.get?_set_ne _ _ _ _ ?_, rfl, rfl⟩
  intro he
  obtain rfl : m = m' := congrArg MemoRef.mk he
  exact hm' hm

/-- A value is committed to the publisher. -/
theorem commit {s s' : Publisher V (Observer V P σ ε)} {v : V} (hs : w.publisher? d = some s)
    (h : s.commit v = some s') : w.Beside d ms (w.setPublisher d s') :=
  ⟨fun _ _ _ hw => hw.commit hs h, grows_setPublisher d s',
    fun _ hq => publisher?_setPublisher_ne hq.symm, fun _ _ => rfl, rfl, rfl⟩

end World.Beside

/-! ## What a tower shows -/

namespace Node

/-- Whether a node is a tower built on a publisher, and shows a function of what that holds. What is
written through the tower may be converted in any way. -/
inductive Shows (p : PublisherRef) : Node (Routine V P σ ε) .reactive → (V → V) → Prop where
  | rx : Shows p (.rx p) id
  | rxGuarded (l : LockId) : Shows p (.rxGuarded l p) id
  | breaker (delegate : Node (Routine V P σ ε) .reactive) (coupling : BagRef) :
      Shows p (.breaker delegate p coupling) id
  | view {root : Node (Routine V P σ ε) .reactive} {g : V → V} (f : V → V)
      (backward : Routine V P σ ε) :
      Shows p root g → Shows p (root.view ⟨pureRoutine f, backward⟩) (f ∘ g)
  | enforced {root : Node (Routine V P σ ε) .reactive} {g : V → V} (f : V → V)
      (s : SubscriptionRef) : Shows p root g → Shows p (root.enforced (pureRoutine f) s) (f ∘ g)

/-- A tower reads as what it shows of the value of its publisher. -/
theorem Shows.reads [BEq V] {body : P → Prog V P σ ε} {w : World V P σ ε} {p : PublisherRef}
    {s : Publisher V (Observer V P σ ε)} {n : Node (Routine V P σ ε) .reactive} {g : V → V}
    (h : n.Shows p g) (hs : w.publisher? p = some s) : n.get.Reads body w (g s.current) := by
  induction h with
  | rx => exact IsBox.rx.reads hs
  | rxGuarded l => exact (IsBox.rxGuarded l).reads hs
  | breaker => exact .current hs
  | view f backward _ ih => exact Act.Reads.map ih f
  | enforced f sub _ ih => exact Act.Reads.map ih f

end Node

/-! ## Gates -/

/-- A gate passes on what its function makes of a value, if that is not what it passed on last. -/
structure Gate (V : Type) where
  last : MemoRef
  shows : V → V

/-- What a row of gates makes of a value. -/
def Gate.through (gates : List (Gate V)) (v : V) : V :=
  gates.foldl (fun v g => g.shows v) v

/-- Whether no gate of a row has passed on anything yet. -/
def World.Blank (w : World V P σ ε) (gates : List (Gate V)) : Prop :=
  ∀ g ∈ gates, w.memos.get? g.last.index = some []

/-- Whether every gate of a row holds what it makes of a value, and `end` is what the row makes of
it. -/
def World.Kept (w : World V P σ ε) (out : V) : List (Gate V) → V → Prop
  | [], v => v = out
  | g :: gates, v => w.memos.get? g.last.index = some [g.shows v] ∧ w.Kept out gates (g.shows v)

/-- What a gate holds after it was given a value. -/
def Gate.pass [BEq V] (g : Gate V) (v : V) (seen : List V) : List V :=
  if seen.any (· == g.shows v) then seen else [g.shows v]

/-- A reaction behind a row of gates. -/
def Gate.before [BEq V] (gates : List (Gate V)) (o : V → Act V P σ ε Unit) :
    V → Act V P σ ε Unit :=
  gates.foldr (fun g o => Node.converting g.last (Node.pureRoutine g.shows) o) o

section Gates

variable {w w' : World V P σ ε} {gates : List (Gate V)} {out v : V}

theorem Gate.through_append (gates gates' : List (Gate V)) (v : V) :
    Gate.through (gates ++ gates') v = Gate.through gates' (Gate.through gates v) :=
  List.foldl_append

/-- Two rows that hold what they make of a value are one such row. -/
theorem World.Kept.append {gates' : List (Gate V)} {mid : V} (h : w.Kept mid gates v)
    (h' : w.Kept out gates' mid) : w.Kept out (gates ++ gates') v := by
  induction gates generalizing v with
  | nil => exact (h : v = mid) ▸ h'
  | cons g gates ih => exact ⟨h.1, ih h.2⟩

theorem World.Kept.through_eq (h : w.Kept out gates v) : Gate.through gates v = out := by
  induction gates generalizing v with
  | nil => exact h
  | cons g gates ih => exact ih h.2

/-- What gates hold is up to their shared lists. -/
theorem World.Kept.same (h : w.Kept out gates v)
    (hmemos : ∀ g ∈ gates, w'.memos.get? g.last.index = w.memos.get? g.last.index) :
    w'.Kept out gates v := by
  induction gates generalizing v with
  | nil => exact h
  | cons g gates ih =>
      refine ⟨(hmemos g List.mem_cons_self).trans h.1, ih h.2 fun g' hg' => ?_⟩
      exact hmemos g' (List.mem_cons_of_mem _ hg')

theorem World.Blank.same (h : w.Blank gates)
    (hmemos : ∀ g ∈ gates, w'.memos.get? g.last.index = w.memos.get? g.last.index) :
    w'.Blank gates :=
  fun g hg => (hmemos g hg).trans (h g hg)

/-- Whether gates hold anything is up to their shared lists, too. -/
theorem World.Kept.primed_same (h : w.Blank gates ∨ ∃ v, w.Kept out gates v)
    (hmemos : ∀ g ∈ gates, w'.memos.get? g.last.index = w.memos.get? g.last.index) :
    w'.Blank gates ∨ ∃ v, w'.Kept out gates v :=
  h.imp (fun hb => hb.same hmemos) fun ⟨v, hv⟩ => ⟨v, hv.same hmemos⟩

variable [BEq V]

/-- A gate that has passed on one value at most holds what it makes of the value it is given. -/
theorem Gate.pass_eq [LawfulBEq V] {g : Gate V} {seen : List V}
    (hone : seen = [] ∨ ∃ u, seen = [u]) (v : V) : g.pass v seen = [g.shows v] := by
  rcases hone with rfl | ⟨u, rfl⟩
  · rfl
  · by_cases h : u = g.shows v <;> simp [Gate.pass, h]

theorem Gate.before_cons (g : Gate V) (gates : List (Gate V)) (o : V → Act V P σ ε Unit) (v : V)
    (k : Unit → Prog V P σ ε) :
    Gate.before (g :: gates) o v k = .atom (.memo g.last (g.pass v)) fun (seen : List V) =>
      if seen.any (· == g.shows v) then k () else Gate.before gates o (g.shows v) k := by
  refine congrArg (Prog.atom (.memo g.last (g.pass v))) (funext fun (seen : List V) => ?_)
  show (if seen.any (· == g.shows v) then pure () else Gate.before gates o (g.shows v) :
    Act V P σ ε Unit) k = _
  split <;> rfl

/-- What is behind gates keeps to a scope with their shared lists. -/
theorem Gate.before_within {T : Terms V P σ ε} {S : Scope} {o : V → Act V P σ ε Unit}
    {k : Unit → Prog V P σ ε} (hgates : ∀ g ∈ gates, .memo g.last ∈ S)
    (ho : ∀ v, (o v k).Within T S) (hk : (k ()).Within T S) (v : V) :
    (Gate.before gates o v k).Within T S := by
  induction gates generalizing v with
  | nil => exact ho v
  | cons g gates ih =>
      have hrest := fun g' hg' => hgates g' (List.mem_cons_of_mem _ hg')
      have hneeds : (Atom.memo g.last (g.pass v) : Atom V σ ε).needs ⊆ S :=
        Set.singleton_subset_iff.2 (hgates g List.mem_cons_self)
      rw [Gate.before_cons]
      refine .atom nofun hneeds fun (seen : List V) => ?_
      by_cases hseen : seen.any (· == g.shows v) = true
      · rw [if_pos hseen]
        exact hk.mono Set.subset_union_left
      · rw [if_neg hseen]
        exact (ih hrest (g.shows v)).mono Set.subset_union_left

variable (body : P → Prog V P σ ε)

/-- A gate that is given a value holds what it makes of it, and passes that on if it is new. -/
theorem gate_run [LawfulBEq V] {g : Gate V} {seen : List V}
    (hseen : w.memos.get? g.last.index = some seen) (hone : seen = [] ∨ ∃ u, seen = [u])
    (d : PublisherRef) (gates : List (Gate V)) (o : V → Act V P σ ε Unit) (v : V)
    (k : Unit → Prog V P σ ε) (st : List (Frame V P σ ε)) :
    ∃ w', w.Beside d [g.last] w' ∧ w'.publishers = w.publishers ∧
      w'.memos.get? g.last.index = some [g.shows v] ∧
      ((seen = [g.shows v] ∧
          CalmRun body w ⟨.run (Gate.before (g :: gates) o v k), st⟩ [] w' ⟨.run (k ()), st⟩) ∨
        CalmRun body w ⟨.run (Gate.before (g :: gates) o v k), st⟩ [] w'
          ⟨.run (Gate.before gates o (g.shows v) k), st⟩) := by
  let w' : World V P σ ε := { w with memos := w.memos.set g.last.index (g.pass v seen) }
  have hpass : w.perform (.memo g.last (g.pass v)) = some (seen, w', []) :=
    World.perform_memo hseen (g.pass v)
  have hset : w'.memos.get? g.last.index = some [g.shows v] :=
    (Heap.get?_set_self _ _ _ _ hseen).trans (congrArg some (Gate.pass_eq hone v))
  have hmove : CalmRun body w ⟨.run (Gate.before (g :: gates) o v k), st⟩ [] w'
      ⟨.run (if seen.any (· == g.shows v) then k () else Gate.before gates o (g.shows v) k),
        st⟩ := by
    rw [Gate.before_cons]
    exact .single (Thread.Moves.performed hpass).step trivial
  have hbeside : w.Beside d [g.last] w' := .memo (List.mem_singleton_self _) hpass
  by_cases hany : seen.any (· == g.shows v) = true
  · -- the gate has passed on the same before
    have hsame : seen = [g.shows v] := by
      rcases hone with rfl | ⟨u, rfl⟩
      · exact nomatch hany
      · simpa using hany
    rw [if_pos hany] at hmove
    exact ⟨w', hbeside, rfl, hset, Or.inl ⟨hsame, hmove⟩⟩
  · rw [if_neg hany] at hmove
    exact ⟨w', hbeside, rfl, hset, Or.inr hmove⟩

/-- A row of gates that is given a value holds it afterwards. Either the value comes through to what
is behind the row, or some gate has passed on the same before. -/
theorem gated_run [LawfulBEq V] (hnodup : (gates.map (·.last)).Nodup)
    (hbefore : w.Blank gates ∨ ∃ u, w.Kept out gates u) (d : PublisherRef)
    (o : V → Act V P σ ε Unit) (v : V) (k : Unit → Prog V P σ ε) (st : List (Frame V P σ ε)) :
    ∃ w', w.Beside d (gates.map (·.last)) w' ∧ w'.publishers = w.publishers ∧
      ((w'.Kept out gates v ∧
          CalmRun body w ⟨.run (Gate.before gates o v k), st⟩ [] w' ⟨.run (k ()), st⟩) ∨
        (w'.Kept (Gate.through gates v) gates v ∧
          CalmRun body w ⟨.run (Gate.before gates o v k), st⟩ [] w'
            ⟨.run (o (Gate.through gates v) k), st⟩)) := by
  induction gates generalizing w v with
  | nil => exact ⟨w, .refl w, rfl, Or.inr ⟨rfl, .refl⟩⟩
  | cons g gates ih =>
      obtain ⟨hnew, hnodup'⟩ := List.nodup_cons.1 hnodup
      obtain ⟨seen, hseen, hone, hpassed⟩ : ∃ seen, w.memos.get? g.last.index = some seen ∧
          (seen = [] ∨ ∃ u, seen = [u]) ∧ (seen = [g.shows v] → w.Kept out gates (g.shows v)) := by
        rcases hbefore with hblank | ⟨u, hu⟩
        · exact ⟨[], hblank g List.mem_cons_self, Or.inl rfl, nofun⟩
        · exact ⟨[g.shows u], hu.1, Or.inr ⟨_, rfl⟩, fun h => (List.cons.inj h).1 ▸ hu.2⟩
      obtain ⟨w₁, hbeside, hpubs, hset, hmove⟩ := gate_run body hseen hone d gates o v k st
      have hbeside₁ : w.Beside d ((g :: gates).map (·.last)) w₁ :=
        hbeside.mono (List.cons_subset_cons _ (List.nil_subset _))
      have helse : ∀ g' ∈ gates,
          w₁.memos.get? g'.last.index = w.memos.get? g'.last.index := by
        refine fun g' hg' => hbeside.memos _ fun hmem => hnew ?_
        exact List.mem_map.2 ⟨g', hg', List.mem_singleton.1 hmem⟩
      rcases hmove with ⟨hsame, hmove⟩ | hmove
      · exact ⟨w₁, hbeside₁, hpubs, Or.inl ⟨⟨hset, (hpassed hsame).same helse⟩, hmove⟩⟩
      · have hrest : w₁.Blank gates ∨ ∃ u, w₁.Kept out gates u := by
          refine World.Kept.primed_same (w := w) ?_ helse
          rcases hbefore with hblank | ⟨u, hu⟩
          · exact Or.inl fun g' hg' => hblank g' (List.mem_cons_of_mem _ hg')
          · exact Or.inr ⟨_, hu.2⟩
        obtain ⟨w', hbeside', hpubs', hend⟩ := ih hnodup' hrest (g.shows v)
        -- the other gates leave this one alone
        have hhere : w'.memos.get? g.last.index = some [g.shows v] :=
          (hbeside'.memos _ hnew).trans hset
        refine ⟨w', hbeside₁.trans (hbeside'.mono (List.subset_cons_self _ _)),
          hpubs'.trans hpubs, ?_⟩
        rcases hend with ⟨hkept, hrun⟩ | ⟨hkept, hrun⟩
        · exact Or.inl ⟨⟨hhere, hkept⟩, hmove.trans hrun⟩
        · exact Or.inr ⟨⟨hhere, hkept⟩, hmove.trans hrun⟩

end Gates

/-! ## Subscribing to a tower -/

/-- Whether a node has a gate of its own. -/
def Node.Filters {F : Type} : {k : Kind} → Node F k → Prop
  | _, .view .. | _, .enforced .. => True
  | _, .plain _ | _, .swap _ | _, .guarded .. => False
  | _, .rx _ | _, .rxGuarded .. | _, .breaker .. => False

/-- A tower without a gate of its own registers with its publisher, and any other one lays its gate
first. -/
theorem Node.Shows.subscribe_cases [BEq V] {p : PublisherRef}
    {n : Node (Routine V P σ ε) .reactive} {g : V → V} (h : n.Shows p g)
    (keeps : List PublisherRef) (o : V → Act V P σ ε Unit) (k : SubscriptionRef → Prog V P σ ε) :
    (¬ n.Filters ∧ g = id ∧ n.subscribe keeps o k = Act.attach p keeps o k) ∨
      ∃ (root : Node (Routine V P σ ε) .reactive) (f g' : V → V), root.Shows p g' ∧ g = f ∘ g' ∧
        n.subscribe keeps o k = .atom (.newMemo []) fun (last : MemoRef) =>
          root.subscribe keeps (Node.converting last (Node.pureRoutine f) o) k := by
  cases h with
  | rx | rxGuarded | breaker => exact Or.inl ⟨not_false, rfl, rfl⟩
  | view f backward hroot => exact Or.inr ⟨_, f, _, hroot, rfl, rfl⟩
  | enforced f s hroot => exact Or.inr ⟨_, f, _, hroot, rfl, rfl⟩

/-- Whoever may read the publisher below a tower may subscribe to the tower. -/
theorem Node.Shows.subscribe_within [BEq V] {T : Terms V P σ ε} {S : Scope} {p : PublisherRef}
    {n : Node (Routine V P σ ε) .reactive} {g : V → V} (h : n.Shows p g) (hp : .read p ∈ S)
    {keeps : List PublisherRef} {o : V → Act V P σ ε Unit} {k : SubscriptionRef → Prog V P σ ε}
    (ho : ∀ v R c, S ⊆ R → c.Within T R → (o v fun _ => c).Within T R)
    (hk : ∀ x, (k x).Within T S) : (n.subscribe keeps o k).Within T S := by
  -- a view subscribes to its root with a gate in front of the observer
  have behind : ∀ {root : Node (Routine V P σ ε) .reactive} {S : Scope}
      {o : V → Act V P σ ε Unit} (f : V → V),
      (∀ v R c, S ⊆ R → c.Within T R → (o v fun _ => c).Within T R) → (∀ x, (k x).Within T S) →
      (∀ {S' : Scope} {o : V → Act V P σ ε Unit}, S ⊆ S' →
        (∀ v R c, S' ⊆ R → c.Within T R → (o v fun _ => c).Within T R) →
        (∀ x, (k x).Within T S') → (root.subscribe keeps o k).Within T S') →
      (Prog.atom (.newMemo []) fun (last : MemoRef) =>
        root.subscribe keeps (Node.converting last (Node.pureRoutine f) o) k).Within T S := by
    intro root S o f ho hk ih
    refine .atom nofun (Set.empty_subset _) fun (last : MemoRef) => ?_
    refine ih Set.subset_union_left (fun v R c hR hc => ?_)
      fun x => (hk x).mono Set.subset_union_left
    have hgate : .memo last ∈ R := hR (Set.mem_union_right _ (Set.mem_singleton _))
    have hgates : ∀ g ∈ [(⟨last, f⟩ : Gate V)], .memo g.last ∈ R := fun g hg =>
      List.mem_singleton.1 hg ▸ hgate
    exact Gate.before_within hgates (fun v => ho v R c (Set.subset_union_left.trans hR) hc) hc v
  induction h generalizing S o with
  | rx | rxGuarded | breaker => exact .attach hp (fun v => ho v S _ subset_rfl (.ret v)) hk
  | view f backward _ ih => exact behind f ho hk fun hS ho hk => ih (hS hp) ho hk
  | enforced f s _ ih => exact behind f ho hk fun hS ho hk => ih (hS hp) ho hk

/-- Whether a row of gates has just been laid: nothing else was done, and the gates are new. -/
structure World.Laid (gates : List (Gate V)) (w w' : World V P σ ε) : Prop where
  same : w' = { w with memos := w'.memos }
  size : w.memos.size ≤ w'.memos.size
  kept : ∀ i vs, w.memos.get? i = some vs → w'.memos.get? i = some vs
  fresh : ∀ g ∈ gates, w.memos.size ≤ g.last.index
  blank : w'.Blank gates
  nodup : (gates.map (·.last)).Nodup

section Subscribing

variable {w w' : World V P σ ε}

/-- A gate is laid before the rest of a row. -/
theorem World.Laid.cons {gates : List (Gate V)} (f : V → V)
    (h : World.Laid gates { w with memos := w.memos.alloc [] } w') :
    World.Laid (gates ++ [⟨⟨w.memos.size⟩, f⟩]) w w' where
  same := h.same
  size := by
    have hsize := h.size
    rw [Heap.size_alloc] at hsize
    exact Nat.le_of_succ_le hsize
  kept i vs hi := h.kept i vs (Heap.get?_alloc_of_some _ _ _ _ hi)
  fresh g hg := by
    rcases List.mem_append.1 hg with hold | hnew
    · have hfresh := h.fresh g hold
      rw [Heap.size_alloc] at hfresh
      exact Nat.le_of_succ_le hfresh
    · rw [List.mem_singleton.1 hnew]
  blank g hg := by
    rcases List.mem_append.1 hg with hold | hnew
    · exact h.blank g hold
    · rw [List.mem_singleton.1 hnew]
      exact h.kept _ _ (Heap.get?_alloc_self _ _)
  nodup := by
    rw [List.map_append, List.nodup_append]
    refine ⟨h.nodup, List.pairwise_singleton _ _, ?_⟩
    intro m hm m' hm' he
    obtain ⟨g, hg, rfl⟩ := List.mem_map.1 hm
    have hfresh := h.fresh g hg
    rw [Heap.size_alloc, he, List.mem_singleton.1 hm'] at hfresh
    exact Nat.lt_irrefl _ hfresh

/-- Whoever subscribes to a tower is registered with its publisher, behind a row of new gates that
make of a value what the tower shows. -/
theorem Node.Shows.subscribes [BEq V] (body : P → Prog V P σ ε) {p : PublisherRef}
    {n : Node (Routine V P σ ε) .reactive} {g : V → V} (h : n.Shows p g) (w : World V P σ ε)
    (keeps : List PublisherRef) (o : V → Act V P σ ε Unit) :
    ∃ gates w', World.Laid gates w w' ∧ Gate.through gates = g ∧ ∀ k st,
      CalmRun body w ⟨.run (n.subscribe keeps o k), st⟩ [] w'
        ⟨.run (Act.attach p keeps (Gate.before gates o) k), st⟩ := by
  have laid : ∀ w : World V P σ ε, World.Laid [] w w := fun w =>
    ⟨rfl, Nat.le_refl _, fun _ _ h => h, nofun, nofun, List.nodup_nil⟩
  -- a view lays its own gate, and its root lays the gates in front of that
  have behind : ∀ {root : Node (Routine V P σ ε) .reactive} {g : V → V} (f : V → V)
      (o : V → Act V P σ ε Unit) (w : World V P σ ε),
      (∀ (w : World V P σ ε) (o : V → Act V P σ ε Unit), ∃ gates w', World.Laid gates w w' ∧
        Gate.through gates = g ∧ ∀ k st, CalmRun body w ⟨.run (root.subscribe keeps o k), st⟩ [] w'
          ⟨.run (Act.attach p keeps (Gate.before gates o) k), st⟩) →
      ∃ gates w', World.Laid gates w w' ∧ Gate.through gates = f ∘ g ∧ ∀ k st,
        CalmRun body w ⟨.run (.atom (.newMemo []) fun (last : MemoRef) =>
            root.subscribe keeps (Node.converting last (Node.pureRoutine f) o) k), st⟩ [] w'
          ⟨.run (Act.attach p keeps (Gate.before gates o) k), st⟩ := by
    intro root g f o w ih
    let w₁ : World V P σ ε := { w with memos := w.memos.alloc [] }
    obtain ⟨gates, w', hlaid, hthrough, hrun⟩ :=
      ih w₁ (Node.converting ⟨w.memos.size⟩ (Node.pureRoutine f) o)
    refine ⟨gates ++ [⟨⟨w.memos.size⟩, f⟩], w', hlaid.cons f, ?_, fun k st => ?_⟩
    · funext v
      rw [Gate.through_append, hthrough]
      rfl
    · rw [Gate.before, List.foldr_append]
      have hnew : w.perform (.newMemo []) = some (⟨w.memos.size⟩, w₁, []) := rfl
      exact .cons (Thread.Moves.performed hnew).step trivial (hrun k st)
  induction h generalizing w o with
  | rx | rxGuarded | breaker => exact ⟨[], w, laid w, rfl, fun _ _ => .refl⟩
  | view f backward _ ih => exact behind f o w ih
  | enforced f s _ ih => exact behind f o w ih

end Subscribing

end ReactiveCells
