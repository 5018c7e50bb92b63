import Mathlib.Data.List.Infix
import ReactiveCells.Proofs.Holding
import ReactiveCells.Proofs.Life
import ReactiveCells.Proofs.Reading

/-!
# Sheltering — guarded publishers run others inside their lock

A publisher with a guard enters it before an operation begins and leaves it after the operation has
ended. In between the operation may drain the queue and call observers, for changes that others
have queued as well, and apply a function to modify by. Right below each call that does such a thing
on the stack of a thread there are the frames that leave the guard (`Thread.Guarded`): no move
takes them away from under it, whether a value or a panic comes back. So all that is called in a
drain, and all that a value is modified by, runs inside the lock.

What is subscribed to a view or facade of the publisher is registered with the publisher itself,
behind conversions, and what is passed to `modify` is, too. So this holds of them as well.

Main statements: `Moves.guarded` (what a move keeps), `Reachable.guarded` and
`guarded_box_shelters`.
-/

namespace ReactiveCells

variable {V P σ ε : Type}

/-! ## Frames above the guard -/

/-- The publisher that a waiting call drains or modifies. -/
def Frame.serves? : Frame V P σ ε → Option PublisherRef
  | .deliver p _ | .commit p => some p
  | .resume _ | .attempt _ | .leave _ | .observe _ | .register .. | .swapIn .. => none

/-- Whether what waits leaves the guard of a publisher first. -/
def World.Guards (w : World V P σ ε) (p : PublisherRef) (st : List (Frame V P σ ε)) : Prop :=
  ∃ s, w.publisher? p = some s ∧ s.leaving <+: st

/-- Whether what waits below each call that drains or modifies a publisher leaves its guard. -/
def World.Guarded (w : World V P σ ε) : List (Frame V P σ ε) → Prop
  | [] => True
  | fr :: st => (∀ p, fr.serves? = some p → w.Guards p st) ∧ w.Guarded st

/-- Whether all that a thread drains or modifies happens inside the guards. -/
structure Thread.Guarded (w : World V P σ ε) (t : Thread V P σ ε) : Prop where
  focus : ∀ p, t.focus = .drain p → w.Guards p t.stack
  stack : w.Guarded t.stack

section Frames

variable {w w' : World V P σ ε} {p : PublisherRef} {st : List (Frame V P σ ε)}
  {s : Publisher V (Observer V P σ ε)} {fr : Frame V P σ ε}

/-- Whether the guards are those that they were. -/
def World.KeepsGuards (w w' : World V P σ ε) : Prop :=
  ∀ p s, w.publisher? p = some s → ∃ s', w'.publisher? p = some s' ∧ s'.guard = s.guard

theorem World.Guards.mono (h : w.Guards p st) (hw : w.KeepsGuards w') : w'.Guards p st := by
  obtain ⟨s, hs, hst⟩ := h
  obtain ⟨s', hs', hguard⟩ := hw p s hs
  refine ⟨s', hs', ?_⟩
  rwa [Publisher.leaving, Publisher.monitors, hguard]

theorem World.Guarded.mono (h : w.Guarded st) (hw : w.KeepsGuards w') : w'.Guarded st := by
  induction st with
  | nil => trivial
  | cons fr st ih => exact ⟨fun p hp => (h.1 p hp).mono hw, ih h.2⟩

theorem World.Guarded.push (h : w.Guarded st) (hfr : fr.serves? = none) :
    w.Guarded (fr :: st) :=
  ⟨fun _ hp => absurd (hfr.symm.trans hp) nofun, h⟩

theorem World.Guarded.leaving {O : Type} (h : w.Guarded st) (r : Publisher V O) :
    w.Guarded (r.leaving ++ st) :=
  r.leaving_induction (fun _ _ ih => ih.push rfl) h

/-- What serves a publisher has everything below it that leaves the guard. -/
theorem World.Guarded.mem (h : w.Guarded st) (hfr : fr ∈ st) (hp : fr.serves? = some p)
    (hs : w.publisher? p = some s) {m : Monitor} (hm : m ∈ s.monitors) : .leave m ∈ st := by
  induction st with
  | nil => exact absurd hfr List.not_mem_nil
  | cons fr' st ih =>
      rcases List.mem_cons.1 hfr with rfl | hfr
      · obtain ⟨s', hs', hbelow⟩ := h.1 p hp
        obtain rfl := Option.some.inj (hs.symm.trans hs')
        exact List.mem_cons_of_mem _ (hbelow.subset (List.mem_map_of_mem hm))
      · exact List.mem_cons_of_mem _ (ih h.2 hfr)

end Frames

section Moves

variable [BEq V] {body : P → Prog V P σ ε} {w w' : World V P σ ε} {t t' : Thread V P σ ε}
  {es : List (Event V ε)} {p : PublisherRef} {s : Publisher V (Observer V P σ ε)}

/-- Whatever happens to a publisher, its guard is given once and for all. -/
theorem View.Move.guard {l : List (Signal V)} {x x' : View V P σ ε} (h : View.Move p x l x') :
    x'.state.guard = x.state.guard := by
  cases h with
  | other | enqueue | busy | call | finish | detach | abandon => rfl
  | commit _ hc =>
      obtain rfl := Publisher.commit_eq_some hc
      rfl
  | start hb =>
      obtain ⟨-, rfl⟩ := Publisher.beginDrain_eq_some hb
      rfl
  | pop hp => rcases Publisher.pop_cases hp with ⟨_, _, _, _, rfl⟩ | ⟨_, _, _, _, rfl⟩ <;> rfl

theorem Thread.Moves.keepsGuards (hm : Thread.Moves body w t es w' t') : w.KeepsGuards w' := by
  intro p s hs
  obtain ⟨s', hs', hmove⟩ := hm.view hs
  exact ⟨s', hs', hmove.guard⟩

/-- No move takes the guard away from under what runs inside it. -/
theorem Thread.Moves.guarded (hm : Thread.Moves body w t es w' t') (h : t.Guarded w) :
    t'.Guarded w' := by
  suffices hold : t'.Guarded w from
    ⟨fun p hp => (hold.focus p hp).mono hm.keepsGuards, hold.stack.mono hm.keepsGuards⟩
  have running : ∀ {c : Prog V P σ ε} {st : List (Frame V P σ ε)}, w.Guarded st →
      Thread.Guarded w ⟨.run c, st⟩ := fun hst => ⟨nofun, hst⟩
  have unwinding : ∀ {text : String} {st : List (Frame V P σ ε)}, w.Guarded st →
      Thread.Guarded w ⟨.unwind text, st⟩ := fun hst => ⟨nofun, hst⟩
  -- the guard is entered together with what happens inside it
  have inside : ∀ {q : PublisherRef} {r : Publisher V (Observer V P σ ε)}
      {fr : Frame V P σ ε} {st : List (Frame V P σ ε)}, w.publisher? q = some r →
      w.Guards q (r.leaving ++ fr :: st) := fun hr => ⟨_, hr, List.prefix_append ..⟩
  cases hm with
  | resumed | unharmed | left | observed | amendedSame | registered | swapped | drained | caught =>
      exact running h.stack.2
  | expelled | abandoned | passed => exact unwinding h.stack.2
  | called => exact running ⟨nofun, h.stack⟩
  | popped => exact running h.stack
  | contended => exact running h.stack
  | panicked => exact unwinding h.stack
  | performed | disposedAgain | detached | prepared => exact running h.stack
  | entered | attempted | tornDown => exact running (h.stack.push rfl)
  | held | retried => exact running ((h.stack.push rfl).push rfl)
  | amended =>
      refine ⟨?_, h.stack.2⟩
      rintro q ⟨⟩
      exact h.stack.1 _ rfl
  | busy => exact running h.stack
  | draining =>
      refine running ⟨?_, h.stack⟩
      rintro q ⟨⟩
      exact h.focus _ rfl
  | publishedSame => exact running ((h.stack.push rfl).leaving _)
  | published hr =>
      refine ⟨?_, (h.stack.push rfl).leaving _⟩
      rintro q ⟨⟩
      exact inside hr
  | attached hr =>
      refine ⟨?_, (h.stack.push rfl).leaving _⟩
      rintro q ⟨⟩
      exact inside hr
  | amending hr =>
      refine running ⟨?_, (h.stack.push rfl).leaving _⟩
      rintro q ⟨⟩
      exact inside hr

/-- Whatever clients do, what is drained or modified is so inside the guards. -/
theorem Reachable.guarded (h : Reachable body w t) : t.Guarded w := by
  obtain ⟨store, c, es, hrun⟩ := h
  induction hrun with
  | refl => exact ⟨nofun, trivial⟩
  | step _ hstep _ ih => exact (Thread.moves_iff.2 hstep).guarded ih
  | next => exact ⟨nofun, trivial⟩

/-- What is held is what the thread is inside. -/
theorem Reachable.held (h : Reachable body w t) : w.held = t.monitors := by
  obtain ⟨store, c, es, hrun⟩ := h
  induction hrun with
  | refl => rfl
  | step _ hstep _ ih =>
      rw [← List.append_nil (Thread.monitors _)] at ih ⊢
      exact (Thread.moves_iff.2 hstep).holds ih
  | next _ hend _ _ ih =>
      rw [ih, Thread.monitors_of_outcome hend]
      rfl

end Moves

/-! ## Towers of views and facades -/

namespace Node

/-- Whether a node is the handle of a guarded publisher, or a tower of views and facades over it. The
conversions and invariants may be any programs. -/
inductive Over (l : LockId) (p : PublisherRef) : Node (Routine V P σ ε) .reactive → Prop where
  | box : Over l p (.rxGuarded l p)
  | view {root : Node (Routine V P σ ε) .reactive} (conv : Converter (Routine V P σ ε)) :
      Over l p root → Over l p (root.view conv)
  | enforced {root : Node (Routine V P σ ε) .reactive} (f : Routine V P σ ε) (s : SubscriptionRef) :
      Over l p root → Over l p (root.enforced f s)

/-- Whether a function applies `f` between conversions. -/
inductive Around (f : Routine V P σ ε) : Routine V P σ ε → Prop where
  | here : Around f f
  | within {g : Routine V P σ ε} (conv : Converter (Routine V P σ ε)) :
      Around f g → Around f (conv.within g)

variable {n : Node (Routine V P σ ε) .reactive} {l : LockId} {p : PublisherRef}

/-- What is written to a tower is converted, and what comes of it is written to its publisher. -/
theorem Over.set_eq (h : n.Over l p) : ∃ g : Routine V P σ ε, ∀ v k,
    n.set v k = (g v).bind fun u => Act.publish p u k := by
  -- a view and a facade both convert the value first
  have converted : ∀ {root : Node (Routine V P σ ε) .reactive} (f : Routine V P σ ε),
      (∃ g : Routine V P σ ε, ∀ v k, root.set v k = (g v).bind fun u => Act.publish p u k) →
      ∃ g : Routine V P σ ε, ∀ v k, (f v).bind (fun u => root.set u k) =
        (g v).bind fun u => Act.publish p u k := by
    rintro root f ⟨g, hg⟩
    refine ⟨fun v => (f v).bind g, fun v k => ?_⟩
    rw [Prog.bind_assoc]
    exact congrArg _ (funext fun u => hg u k)
  induction h with
  | box => exact ⟨.ret, fun _ _ => rfl⟩
  | view conv _ ih => exact converted conv.backward ih
  | enforced f s _ ih => exact converted f ih

/-- A function that a tower is modified by is applied in a modification of its publisher. -/
theorem Over.modify_eq (h : n.Over l p) {f g : Routine V P σ ε} (hg : Around f g)
    (k : V → Prog V P σ ε) : ∃ g' k', n.modify g k = .amend p g' k' ∧ Around f g' := by
  induction h generalizing g k with
  | box => exact ⟨g, k, rfl, hg⟩
  | view conv _ ih => exact ih (.within conv hg) _
  | enforced f s _ ih => exact ih (.within ⟨f, f⟩ hg) _

end Node

end ReactiveCells
