import ReactiveCells.Proofs.Fusion
import ReactiveCells.Proofs.History
import ReactiveCells.Proofs.Sequencing

/-!
# Retrying — how often a function is applied to a cell

A cell is modified by applying a function to the value it holds and storing what comes out, unless
something was stored meanwhile; then the function is applied again, to the value that is there now.
The function may do whatever programs do, to the same cell as well, and something else each time.
What counts is only whether anything was stored into the cell while it ran, be it an equal value:
every store has a stamp of its own. A chain of views adds conversions to each application and
nothing else.

Main statements: `Moves.cell?` (a move stores into a cell, or leaves it as it is), `Course.cell?` (so
does a whole computation) and `modify_retries`.
-/

namespace ReactiveCells

variable {V P σ ε : Type} [BEq V]

/-! ## Stores -/

/-- Whether an operation stores into a cell. -/
def Atom.Stores (w : World V P σ ε) (c : CellRef) : Atom V σ ε → Prop
  | .store c' _ | .swap c' _ => c' = c
  | .exchange c' expect _ => c' = c ∧ ∃ d, w.cell? c = some d ∧ (d.value == expect) = true
  | _ => False

/-- Whether a thread is about to store into a cell. -/
def Thread.Stores (w : World V P σ ε) (c : CellRef) : Thread V P σ ε → Prop
  | ⟨.run (.atom a _), _⟩ => a.Stores w c
  | ⟨.run (.ret _), .swapIn c' stamp _ _ :: _⟩ =>
      c' = c ∧ ∃ d, w.cell? c = some d ∧ d.stamp = stamp
  | _ => False

/-- Whether a move stored into a cell. -/
def Moment.Stores (c : CellRef) (m : Moment V P σ ε) : Prop :=
  m.thread.Stores m.world c

section Stores

variable {body : P → Prog V P σ ε} {w w' : World V P σ ε} {t t' : Thread V P σ ε}
  {es : List (Event V ε)} {c : CellRef} {d : Cell V}

omit [BEq V] in
theorem World.cell?_setCell_ne {b c : CellRef} (h : b ≠ c) (d : Cell V) :
    (w.setCell b d).cell? c = w.cell? c := by
  refine Heap.get?_set_ne _ _ _ _ fun he => h ?_
  cases b
  cases c
  exact congrArg _ he

omit [BEq V] in
@[simp] theorem World.cell?_enterAll (ms : List Monitor) : (w.enterAll ms).cell? c = w.cell? c := by
  rw [World.enterAll_eq]
  rfl

omit [BEq V] in
/-- A store into some cell. -/
theorem World.cell?_setCell {b : CellRef} {e : Cell V} (hb : w.cell? b = some e)
    (hc : w.cell? c = some d) (v : V) :
    (b ≠ c → (w.setCell b (e.store v)).cell? c = some d) ∧
      (b = c → (w.setCell b (e.store v)).cell? c = some (d.store v)) := by
  constructor
  · intro h
    rw [World.cell?_setCell_ne h, hc]
  · rintro rfl
    obtain rfl := Option.some.inj (hb.symm.trans hc)
    exact World.cell?_setCell_self hb _

theorem World.perform_cell? {a : Atom V σ ε} {x : a.Answer} (h : w.perform a = some (x, w', es))
    (hc : w.cell? c = some d) :
    (¬ a.Stores w c → w'.cell? c = some d) ∧
      (a.Stores w c → ∃ v, w'.cell? c = some (d.store v)) := by
  cases a with
  | store b v | swap b v =>
      obtain ⟨e, hb, h⟩ := Option.map_eq_some_iff.1 h
      cases h
      obtain ⟨hne, hself⟩ := World.cell?_setCell hb hc v
      exact ⟨hne, fun hbc => ⟨v, hself hbc⟩⟩
  | exchange b expect update =>
      obtain ⟨e, hb, h⟩ := Option.map_eq_some_iff.1 h
      cases hex : e.exchange expect update with
      | none =>
          rw [hex] at h
          cases h
          refine ⟨fun _ => hc, ?_⟩
          rintro ⟨rfl, e', he', heq⟩
          obtain rfl := Option.some.inj (hb.symm.trans he')
          rw [Cell.exchange, if_pos heq] at hex
          exact nomatch hex
      | some e' =>
          rw [hex] at h
          cases h
          rw [Cell.exchange] at hex
          split at hex
          · next heq =>
              cases hex
              obtain ⟨hne, hself⟩ := World.cell?_setCell hb hc update
              refine ⟨fun hno => hne fun hbc => hno ⟨hbc, e, hbc ▸ hb, heq⟩,
                fun hst => ⟨update, hself hst.1⟩⟩
          · exact nomatch hex
  | newCell v =>
      cases h
      exact ⟨fun _ => Heap.get?_alloc_of_some _ _ _ _ hc, False.elim⟩
  | newLock key => cases key <;> cases h <;> exact ⟨fun _ => hc, False.elim⟩
  | load | current | observerCount | isDisposed | memo | bag =>
      obtain ⟨e, -, h⟩ := Option.map_eq_some_iff.1 h
      cases h
      exact ⟨fun _ => hc, False.elim⟩
  | own | tell | report | isHeld | newPublisher | newDisposed | newMemo | newBag =>
      cases h
      exact ⟨fun _ => hc, False.elim⟩

/-- A move stores a value into a cell under a new stamp, or leaves the cell as it is. -/
theorem Thread.Moves.cell? (hm : Thread.Moves body w t es w' t') (hc : w.cell? c = some d) :
    (¬ t.Stores w c → w'.cell? c = some d) ∧
      (t.Stores w c → ∃ v, w'.cell? c = some (d.store v)) := by
  cases hm with
  | performed ha => exact World.perform_cell? ha hc
  | @swapped v b stamp n f e e' st hb hs =>
      obtain ⟨rfl, rfl⟩ := (Cell.swapIn_eq_some_iff _ _ _ _).1 hs
      obtain ⟨hne, hself⟩ := World.cell?_setCell hb hc v
      refine ⟨fun hno => hne fun hbc => hno ⟨hbc, e, hbc ▸ hb, rfl⟩,
        fun hst => ⟨v, hself hst.1⟩⟩
  | @contended v b stamp n f e st hb hs =>
      refine ⟨fun _ => hc, ?_⟩
      rintro ⟨rfl, e', he', rfl⟩
      obtain rfl := Option.some.inj (hb.symm.trans he')
      exact nomatch hs.symm.trans (if_pos rfl)
  | publishedSame | published | amending | attached =>
      exact ⟨fun _ => (World.cell?_enterAll _).trans hc, False.elim⟩
  | _ => exact ⟨fun _ => hc, False.elim⟩

end Stores

/-! ## Courses -/

/-- What leads a thread from one state to another, with all moves made on the way, the latest
first. -/
inductive Course (body : P → Prog V P σ ε) (w₀ : World V P σ ε) (t₀ : Thread V P σ ε) :
    List (Moment V P σ ε) → World V P σ ε → Thread V P σ ε → Prop where
  | refl : Course body w₀ t₀ [] w₀ t₀
  | step {past : List (Moment V P σ ε)} {es : List (Event V ε)} {w w' : World V P σ ε}
      {t t' : Thread V P σ ε} :
      Course body w₀ t₀ past w t → Thread.Moves body w t es w' t' →
      Course body w₀ t₀ (⟨w, t, es⟩ :: past) w' t'

section Courses

variable {body : P → Prog V P σ ε} {w₀ w : World V P σ ε} {t₀ t : Thread V P σ ε}
  {past : List (Moment V P σ ε)} {es : List (Event V ε)} {c : CellRef} {d : Cell V}

/-- A course is a run of one thread. -/
theorem Course.run (h : Course body w₀ t₀ past w t) : AnyRun body w₀ t₀ (told past) w t := by
  induction h with
  | refl => exact .refl
  | step _ hm ih =>
      rw [told_cons]
      exact .step ih hm.step trivial

/-- Every run of one thread has taken a course. -/
theorem AnyRun.course (h : AnyRun body w₀ t₀ es w t) :
    ∃ past, Course body w₀ t₀ past w t ∧ told past = es := by
  induction h with
  | refl => exact ⟨[], .refl, rfl⟩
  | step _ hstep _ ih =>
      obtain ⟨past, hcourse, rfl⟩ := ih
      exact ⟨_, hcourse.step (Thread.moves_iff.2 hstep), told_cons _ _⟩
  | next _ _ hc _ _ => exact hc.elim

/-- After a computation in which nothing was stored into a cell it is as it was; else it has a later
stamp. -/
theorem Course.cell? (h : Course body w₀ t₀ past w t) (hc : w₀.cell? c = some d) :
    ∃ d', w.cell? c = some d' ∧ ((¬ ∃ m ∈ past, m.Stores c) → d' = d) ∧
      ((∃ m ∈ past, m.Stores c) → d.stamp < d'.stamp) := by
  induction h with
  | refl => exact ⟨d, hc, fun _ => rfl, nofun⟩
  | @step past es w w' t t' _ hm ih =>
      obtain ⟨d₁, hd₁, hsame, hlater⟩ := ih
      obtain ⟨hkept, hstored⟩ := hm.cell? hd₁
      have hle : d.stamp ≤ d₁.stamp := by
        by_cases hany : ∃ m ∈ past, m.Stores c
        · exact Nat.le_of_lt (hlater hany)
        · rw [hsame hany]
      by_cases hnow : t.Stores w c
      · obtain ⟨v, hv⟩ := hstored hnow
        refine ⟨d₁.store v, hv, fun hno => ?_, fun _ => ?_⟩
        · exact absurd ⟨_, List.mem_cons_self, hnow⟩ hno
        · exact Nat.lt_of_le_of_lt hle (d₁.stamp_lt_store v)
      · refine ⟨d₁, hkept hnow, fun hno => hsame ?_, ?_⟩
        · exact fun ⟨m, hm, hst⟩ => hno ⟨m, List.mem_cons_of_mem _ hm, hst⟩
        · rintro ⟨m, hm, hst⟩
          rcases List.mem_cons.1 hm with rfl | hm
          · exact absurd hst hnow
          · exact hlater ⟨m, hm, hst⟩

end Courses

/-! ## Modifications -/

/-- One application of the function that a cell is modified by. -/
structure Trial (V P σ ε : Type) where
  before : World V P σ ε
  given : V
  /-- The moves made meanwhile, the latest first. -/
  past : List (Moment V P σ ε)
  result : V
  after : World V P σ ε

namespace Trial

/-- Whether something was stored into a cell meanwhile. -/
def Disturbed (c : CellRef) (a : Trial V P σ ε) : Prop :=
  ∃ m ∈ a.past, m.Stores c

omit [BEq V] in
/-- Whether the applications are made one after another. -/
def Follow (w : World V P σ ε) : List (Trial V P σ ε) → World V P σ ε → Prop
  | [], w' => w' = w
  | a :: rest, w' => a.before = w ∧ Follow a.after rest w'

omit [BEq V] in
/-- The events while a function is applied over and over, after `n` applications in vain. -/
def told (n : Nat) : List (Trial V P σ ε) → List (Event V ε)
  | [] => []
  | a :: rest =>
      ReactiveCells.told a.past ++ .message (.contended (n + 1)) :: told (n + 1) rest

/-- Whether `f` is applied to what a converter makes of the value that a cell holds, and comes
back. -/
structure Applies (body : P → Prog V P σ ε) (c : CellRef) (conv : Converter (V → V))
    (f : Routine V P σ ε) (a : Trial V P σ ε) : Prop where
  sees : ∃ d, a.before.cell? c = some d ∧ a.given = conv.forward d.value
  course : Course body a.before (.start (f a.given)) a.past a.after ⟨.run (.ret a.result), []⟩

end Trial

/-- Whether a modification through a converter applies `f` time after time: in `vain`, since the
cell is stored into meanwhile, and for the `last` time when it is not. What comes out then is
reverted and stored over the very value that the function has seen, and yielded as the converter
shows it. -/
structure Retries (body : P → Prog V P σ ε) (c : CellRef) (conv : Converter (V → V))
    (f : Routine V P σ ε) (n : Nat) (w : World V P σ ε) (vain : List (Trial V P σ ε))
    (last : Trial V P σ ε) (y : V) (es : List (Event V ε)) (w' : World V P σ ε) : Prop where
  follow : Trial.Follow w vain last.before
  applies : ∀ a ∈ vain ++ [last], a.Applies body c conv f
  disturbed : ∀ a ∈ vain, a.Disturbed c
  undisturbed : ¬ last.Disturbed c
  stored : ∃ d, last.before.cell? c = some d ∧ last.after.cell? c = some d ∧
    w' = last.after.setCell c (d.store (conv.backward last.result))
  yielded : y = conv.forward (conv.backward last.result)
  events : es = Trial.told n vain ++ told last.past

section Modify

variable {body : P → Prog V P σ ε} {c : CellRef} {conv : Converter (V → V)}
  {f : Routine V P σ ε} {n : Nat} {d : Cell V} {w w₁ w' : World V P σ ε} {u y : V}
  {es es₁ : List (Event V ε)} {st : List (Frame V P σ ε)}

/-- A thread that is about to apply `f` to the value of a cell, after `n` applications in vain. -/
def Thread.applying (c : CellRef) (conv : Converter (V → V)) (f : Routine V P σ ε) (n : Nat)
    (d : Cell V) (st : List (Frame V P σ ε)) : Thread V P σ ε :=
  ⟨.run (conv.pure.within f d.value), .swapIn c d.stamp n (conv.pure.within f) :: st⟩

/-- The function is given what the converter makes of the value that is there. -/
theorem Trial.Applies.of_cell {a : Trial V P σ ε} (h : a.Applies body c conv f)
    (hbefore : a.before = w) (hc : w.cell? c = some d) :
    Course body w (.start (f (conv.forward d.value))) a.past a.after ⟨.run (.ret a.result), []⟩ := by
  obtain ⟨⟨d₁, hd₁, hgiven⟩, hcourse⟩ := h
  subst hbefore
  obtain rfl := Option.some.inj (hc.symm.trans hd₁)
  exact hgiven ▸ hcourse

/-- The function comes back, and what it yields is reverted. -/
theorem applied_run (h : AnyRun body w (.start (f (conv.forward d.value))) es w₁ ⟨.run (.ret u), []⟩)
    (st : List (Frame V P σ ε)) :
    AnyRun body w (.applying c conv f n d st) es w₁
      ⟨.run (.ret (conv.backward u)), .swapIn c d.stamp n (conv.pure.within f) :: st⟩ :=
  Run.through h rfl (fun u => .ret (conv.backward u)) _

/-- Where an application was not disturbed its result is stored. -/
theorem stored_run
    (h : AnyRun body w (.start (f (conv.forward d.value))) es w₁ ⟨.run (.ret u), []⟩)
    (hsame : w₁.cell? c = some d) (st : List (Frame V P σ ε)) :
    AnyRun body w (.applying c conv f n d st) es (w₁.setCell c (d.store (conv.backward u)))
      ⟨.run (.ret (conv.backward u)), st⟩ := by
  have hmove : Thread.Moves body w₁
      ⟨.run (.ret (conv.backward u)), .swapIn c d.stamp n (conv.pure.within f) :: st⟩ []
      (w₁.setCell c (d.store (conv.backward u))) ⟨.run (.ret (conv.backward u)), st⟩ :=
    .swapped hsame ((Cell.swapIn_eq_some_iff d _ d.stamp _).2 ⟨rfl, rfl⟩)
  exact List.append_nil es ▸ .step (applied_run h st) hmove.step trivial

/-- Where an application was disturbed the function is applied once more. -/
theorem contended_run {d₁ : Cell V}
    (h : AnyRun body w (.start (f (conv.forward d.value))) es w₁ ⟨.run (.ret u), []⟩)
    (hd₁ : w₁.cell? c = some d₁) (hlater : d.stamp < d₁.stamp) (st : List (Frame V P σ ε)) :
    AnyRun body w (.applying c conv f n d st) (es ++ [.message (.contended (n + 1))]) w₁
      (.applying c conv f (n + 1) d₁ st) :=
  .step (applied_run h st)
    (Thread.Moves.contended hd₁ (if_neg (Nat.ne_of_gt hlater))).step trivial

/-- Where the function is applied as often as it takes, what comes out in the end is stored. -/
theorem Retries.run {vain : List (Trial V P σ ε)} {last : Trial V P σ ε}
    (h : Retries body c conv f n w vain last y es w') (hc : w.cell? c = some d)
    (st : List (Frame V P σ ε)) :
    AnyRun body w (.applying c conv f n d st) es w'
      ⟨.run (.ret (conv.backward last.result)), st⟩ := by
  -- each application in vain goes on from the cell that the next one begins with
  induction vain generalizing n w d es with
  | nil =>
      have hbefore : last.before = w := h.follow
      have hcourse := (h.applies last List.mem_cons_self).of_cell hbefore hc
      obtain ⟨d₁, hd₁, hafter, hw'⟩ := h.stored
      rw [hbefore] at hd₁
      obtain rfl := Option.some.inj (hc.symm.trans hd₁)
      have hes : es = told last.past := h.events
      rw [hw', hes]
      exact stored_run hcourse.run hafter st
  | cons a rest ih =>
      obtain ⟨hbefore, hrest⟩ : a.before = w ∧ Trial.Follow a.after rest last.before := h.follow
      have hcourse := (h.applies a List.mem_cons_self).of_cell hbefore hc
      obtain ⟨d₁, hd₁, -, hlater⟩ := hcourse.cell? hc
      obtain ⟨hdist, hdisturbed⟩ := List.forall_mem_cons.1 h.disturbed
      have hagain := contended_run (n := n) hcourse.run hd₁ (hlater hdist) st
      have hafter : Retries body c conv f (n + 1) a.after rest last y
          (Trial.told (n + 1) rest ++ told last.past) w' :=
        ⟨hrest, fun b hb => h.applies b (List.mem_cons_of_mem _ hb), hdisturbed, h.undisturbed,
          h.stored, h.yielded, rfl⟩
      have hes : es = (told a.past ++ [.message (.contended (n + 1))]) ++
          (Trial.told (n + 1) rest ++ told last.past) := by
        rw [h.events, Trial.told]
        simp
      exact hes ▸ hagain.trans (ih hafter hd₁)

/-- A modification that came back has applied the function as often as it takes. -/
theorem retries_of_run (hc : w.cell? c = some d)
    (h : AnyRun body w (.applying c conv f n d [.resume fun u => .ret (conv.forward u)]) es w'
      ⟨.run (.ret y), []⟩) :
    ∃ vain last, Retries body c conv f n w vain last y es w' := by
  -- every application in vain leaves an event
  induction hlen : es.length using Nat.strong_induction_on generalizing n w d es with
  | h len ih =>
  subst hlen
  obtain ⟨es₁, es₂, w₁, t, o, rfl, hrun, ho, hafter⟩ :=
    Run.passed (c := f (conv.forward d.value)) (g := fun u => .ret (conv.backward u)) h rfl
  rcases Thread.outcome_cases ho with ⟨u, rfl⟩ | ⟨text, rfl⟩
  · cases ho
    obtain ⟨past, hcourse, rfl⟩ := AnyRun.course hrun
    obtain ⟨d₁, hd₁, hsame, hlater⟩ := hcourse.cell? hc
    let a : Trial V P σ ε := ⟨w, conv.forward d.value, past, u, w₁⟩
    have happlies : a.Applies body c conv f := ⟨⟨d, hc, rfl⟩, hcourse⟩
    by_cases hdist : a.Disturbed c
    · have hagain := contended_run (n := n) hrun hd₁ (hlater hdist)
        [.resume fun u => .ret (conv.forward u)]
      obtain ⟨es₃, hes, hrest⟩ := hagain.rest h rfl
      have hshorter : es₃.length < (told past ++ es₂).length := by
        rw [hes]
        simp only [List.length_append, List.length_singleton]
        omega
      obtain ⟨vain, last, hretries⟩ := ih _ hshorter hd₁ hrest rfl
      refine ⟨a :: vain, last, ⟨rfl, hretries.follow⟩, ?_, ?_, hretries.undisturbed,
        hretries.stored, hretries.yielded, ?_⟩
      · exact List.forall_mem_cons.2 ⟨happlies, hretries.applies⟩
      · exact List.forall_mem_cons.2 ⟨hdist, hretries.disturbed⟩
      · rw [hes, hretries.events, Trial.told]
        simp [a]
    · have hkept : w₁.cell? c = some d := hsame hdist ▸ hd₁
      have hreturned := (stored_run (n := n) hrun hkept [.resume fun u => .ret (conv.forward u)]).step
        Thread.Moves.resumed.step trivial
      obtain ⟨hes, hw', hy⟩ := AnyRun.unique hreturned rfl h rfl
      cases hy
      refine ⟨[], a, rfl, List.forall_mem_cons.2 ⟨happlies, nofun⟩, nofun, hdist, ⟨d, hc, hkept, hw'⟩,
        rfl, hes.trans (List.append_nil _)⟩
  · cases ho
    obtain ⟨st', hu, -⟩ := Run.unwinds hafter (by simp)
    exact nomatch hu

/-- Applications leave no cell with an earlier stamp. -/
theorem Trial.Follow.stamp_le {as : List (Trial V P σ ε)} (h : Trial.Follow w as w')
    (happlies : ∀ a ∈ as, a.Applies body c conv f) (hc : w.cell? c = some d) :
    ∃ d', w'.cell? c = some d' ∧ d.stamp ≤ d'.stamp := by
  induction as generalizing w d with
  | nil =>
      obtain rfl : w' = w := h
      exact ⟨d, hc, Nat.le_refl _⟩
  | cons a rest ih =>
      obtain ⟨rfl, hrest⟩ := h
      obtain ⟨ha, hothers⟩ := List.forall_mem_cons.1 happlies
      obtain ⟨d₁, hd₁, hsame, hlater⟩ := ha.course.cell? hc
      obtain ⟨d₂, hd₂, hle⟩ := ih hrest hothers hd₁
      refine ⟨d₂, hd₂, Nat.le_trans ?_ hle⟩
      by_cases hdist : a.Disturbed c
      · exact Nat.le_of_lt (hlater hdist)
      · rw [hsame hdist]

/-- A modification that comes back has stored something. -/
theorem Retries.stamp_lt {vain : List (Trial V P σ ε)} {last : Trial V P σ ε}
    (h : Retries body c conv f n w vain last y es w') (hc : w.cell? c = some d) :
    ∃ d', w'.cell? c = some d' ∧ d.stamp < d'.stamp := by
  obtain ⟨d₁, hd₁, hle⟩ := h.follow.stamp_le
    (fun a ha => h.applies a (List.mem_append_left _ ha)) hc
  obtain ⟨d₂, hd₂, hafter, hw'⟩ := h.stored
  obtain rfl := Option.some.inj (hd₁.symm.trans hd₂)
  rw [hw']
  exact ⟨_, World.cell?_setCell_self hafter _, Nat.lt_succ_of_le hle⟩

omit [BEq V] in
/-- A chain of views on a cell is modified by one retrying application at the cell. -/
theorem modify_chain (cs : List (Converter (V → V))) (f : Routine V P σ ε)
    (k : V → Prog V P σ ε) :
    ((Node.swap c).chain cs).modify f k =
      .retry c ((Converter.fused cs).pure.within f) fun u => k ((Converter.fused cs).forward u) := by
  rw [(Node.fuses_chain (.swap c) cs).modify]
  rfl

theorem modify_comes_iff (body : P → Prog V P σ ε) (hc : w.cell? c = some d)
    (cs : List (Converter (V → V))) (f : Routine V P σ ε) :
    (((Node.swap c).chain cs).modify f).Comes body w y es w' ↔
      ∃ vain last, Retries body c (.fused cs) f 0 w vain last y es w' := by
  constructor
  · intro h
    have hrun := h .ret []
    rw [modify_chain] at hrun
    rcases hrun.first with ⟨-, -, hend⟩ | ⟨w₁, t₁, es₁, es₂, hstep, -, rfl, hrest⟩
    · exact nomatch hend
    · have hmove : Thread.Moves body w (.start (.retry c ((Converter.fused cs).pure.within f)
          fun u => .ret ((Converter.fused cs).forward u))) [] w
          (.applying c (.fused cs) f 0 d
            [.resume fun u => .ret ((Converter.fused cs).forward u)]) := .retried hc
      obtain ⟨rfl, rfl, rfl⟩ := Option.some.inj (hstep.symm.trans hmove.step)
      exact retries_of_run hc hrest
  · rintro ⟨vain, last, h⟩ k st
    rw [modify_chain]
    have happlied := (h.run hc (.resume (fun u => k ((Converter.fused cs).forward u)) :: st)).step
      Thread.Moves.resumed.step trivial
    rw [List.append_nil, ← h.yielded] at happlied
    exact .cons (Thread.Moves.retried hc).step trivial happlied

end Modify

/-- A cell modified directly or through any chain of views. The function is applied to the value that
is there, again and again while the cell is stored into meanwhile, and no further; the result of the
one application that is not disturbed is stored over what that application has seen. Writing,
exchanging, comparing and setting where the values are equal, and modifying disturb; reading, and
comparing and setting where they are not, do not. -/
theorem modify_retries (body : P → Prog V P σ ε) {w : World V P σ ε} {c : CellRef} {d : Cell V}
    (hc : w.cell? c = some d) (cs : List (Converter (V → V))) :
    (∀ f y es w', (((Node.swap c).chain cs).modify f).Comes body w y es w' ↔
      ∃ vain last, Retries body c (.fused cs) f 0 w vain last y es w') ∧
    (∀ (k : V → Prog V P σ ε) st,
      ¬ Thread.Stores w c ⟨.run (((Node.swap c).chain cs).get k), st⟩) ∧
    (∀ v (k : Unit → Prog V P σ ε) st,
      Thread.Stores w c ⟨.run (((Node.swap c).chain cs).set v k), st⟩) ∧
    (∀ v (k : V → Prog V P σ ε) st,
      Thread.Stores w c ⟨.run (((Node.swap c).chain cs).getAndSet v k), st⟩) ∧
    (∀ expect update (k : Bool → Prog V P σ ε) st,
      Thread.Stores w c ⟨.run (((Node.swap c).chain cs).compareAndSet expect update k), st⟩ ↔
        (d.value == (Converter.fused cs).backward expect) = true) ∧
    (∀ f y es w', (((Node.swap c).chain cs).modify f).Comes body w y es w' → ∀ k st past,
      Course body w ⟨.run (((Node.swap c).chain cs).modify f k), st⟩ past w' ⟨.run (k y), st⟩ →
        ∃ m ∈ past, m.Stores c) := by
  have hfuse := Node.fuses_chain (.swap c : Node (Routine V P σ ε) .swap) cs
  refine ⟨fun f y es w' => modify_comes_iff body hc cs f, fun k st => ?_, fun v k st => ?_,
    fun v k st => ?_, fun expect update k st => ?_, fun f y es w' hcomes k st past hcourse => ?_⟩
  · rw [hfuse.get]
    exact id
  · rw [hfuse.set]
    exact rfl
  · rw [Node.getAndSet, hfuse.exchanging]
    exact rfl
  · rw [Node.compareAndSet, hfuse.comparing]
    constructor
    · rintro ⟨-, d', hd', heq⟩
      obtain rfl := Option.some.inj (hc.symm.trans hd')
      exact heq
    · exact fun heq => ⟨rfl, d, hc, heq⟩
  · obtain ⟨vain, last, hretries⟩ := (modify_comes_iff body hc cs f).1 hcomes
    obtain ⟨d₁, hd₁, hlt⟩ := hretries.stamp_lt hc
    obtain ⟨d₂, hd₂, hsame, -⟩ := hcourse.cell? hc
    by_contra hno
    obtain rfl := Option.some.inj (hd₁.symm.trans hd₂)
    exact absurd hlt (by rw [hsame hno]; exact Nat.lt_irrefl _)

/-- Adds one, and on the first application stores 100 into the cell meanwhile. -/
def interfering : Routine Nat Empty Nat Unit := fun v =>
  .atom (.own (· + 1)) fun (n : Nat) =>
    if n = 0 then .atom (.store ⟨0⟩ 100) fun _ => .ret (v + 1) else .ret (v + 1)

/-- A world with nothing but a cell, and a count of applications. -/
def countingWorld (applied : Nat) (d : Cell Nat) : World Nat Empty Nat Unit :=
  { World.new applied with cells := ⟨[d]⟩ }

/-- A cell that holds 1 is set to 100 while the function is applied to it, which makes the function
be applied a second time, to 100. -/
theorem modify_retries_interfering :
    ∃ first last : Trial Nat Empty Nat Unit,
      Retries Empty.elim ⟨0⟩ (.fused []) interfering 0 (countingWorld 0 ⟨1, 0⟩) [first] last 101
        [.message (.contended 1)] (countingWorld 2 ⟨101, 2⟩) ∧
      first.given = 1 ∧ last.given = 100 ∧
      (((Node.swap ⟨0⟩).chain []).modify interfering).Comes Empty.elim (countingWorld 0 ⟨1, 0⟩) 101
        [.message (.contended 1)] (countingWorld 2 ⟨101, 2⟩) := by
  have hfirst : CalmRun Empty.elim (countingWorld 0 ⟨1, 0⟩) (.start (interfering 1)) []
      (countingWorld 1 ⟨100, 1⟩) ⟨.run (.ret 2), []⟩ := Run.of_advance (n := 2) rfl
  have hlast : CalmRun Empty.elim (countingWorld 1 ⟨100, 1⟩) (.start (interfering 100)) []
      (countingWorld 2 ⟨100, 1⟩) ⟨.run (.ret 101), []⟩ := Run.of_advance (n := 1) rfl
  obtain ⟨past₁, hcourse₁, htold₁⟩ := hfirst.any.course
  obtain ⟨past₂, hcourse₂, htold₂⟩ := hlast.any.course
  let first : Trial Nat Empty Nat Unit :=
    ⟨countingWorld 0 ⟨1, 0⟩, 1, past₁, 2, countingWorld 1 ⟨100, 1⟩⟩
  let last : Trial Nat Empty Nat Unit :=
    ⟨countingWorld 1 ⟨100, 1⟩, 100, past₂, 101, countingWorld 2 ⟨100, 1⟩⟩
  have hretries : Retries Empty.elim ⟨0⟩ (.fused []) interfering 0 (countingWorld 0 ⟨1, 0⟩) [first]
      last 101 [.message (.contended 1)] (countingWorld 2 ⟨101, 2⟩) := by
    refine ⟨⟨rfl, rfl⟩, ?_, ?_, ?_, ⟨_, rfl, rfl, rfl⟩, rfl, ?_⟩
    · refine List.forall_mem_cons.2 ⟨⟨⟨_, rfl, rfl⟩, hcourse₁⟩, ?_⟩
      exact List.forall_mem_cons.2 ⟨⟨⟨_, rfl, rfl⟩, hcourse₂⟩, nofun⟩
    · -- the stamps tell which application was disturbed
      obtain ⟨d, hd, hsame, -⟩ := hcourse₁.cell? (c := ⟨0⟩) rfl
      cases hd
      refine List.forall_mem_cons.2 ⟨?_, nofun⟩
      by_contra hno
      exact nomatch hsame hno
    · obtain ⟨d, hd, -, hlater⟩ := hcourse₂.cell? (c := ⟨0⟩) rfl
      cases hd
      exact fun hdist => absurd (hlater hdist) (Nat.lt_irrefl _)
    · rw [Trial.told, Trial.told, htold₁, htold₂]
      rfl
  obtain ⟨hmodify, -⟩ := modify_retries Empty.elim
    (rfl : (countingWorld 0 ⟨1, 0⟩).cell? ⟨0⟩ = some ⟨1, 0⟩) []
  exact ⟨first, last, hretries, rfl, rfl, (hmodify _ _ _ _).2 ⟨_, _, hretries⟩⟩

end ReactiveCells
