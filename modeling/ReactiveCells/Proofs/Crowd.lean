import Mathlib.Data.Fintype.Basic
import ReactiveCells.Proofs.Run

/-!
# Crowds — several threads in one world

A crowd is a world and any number of threads that take turns in it, one move of the machine at a
time; who is next is open. Two things keep a thread waiting. A monitor is inside one thread at a
time, which may enter it again, and while a function passed to a publisher's `modify` runs no other
thread writes to that publisher. Everything else that a move does to shared state is indivisible
already.

Threads take turns only where the machine has moves of its own. Between two of them lie the
critical sections of a publisher and the calls of its observers, so these are what can be
interleaved.

Main statements: `Moves.monitors` (a thread holds only what it has entered), `Step.exclusive` and
`Run.exclusive` (no monitor is inside two threads) and `Run.of_advance` (a schedule is a run).
-/

namespace ReactiveCells

variable {ι V P σ ε : Type}

/-- The monitor that a waiting call is inside. -/
def Frame.monitor? : Frame V P σ ε → Option Monitor
  | .leave m => some m
  | _ => none

/-- The publisher that a waiting call is going to write to. -/
def Frame.writes? : Frame V P σ ε → Option PublisherRef
  | .commit p => some p
  | _ => none

namespace Thread

/-- The monitors that a thread is inside, the latest entered first. -/
def monitors (t : Thread V P σ ε) : List Monitor :=
  t.stack.filterMap Frame.monitor?

/-- The publishers that a thread is in the middle of modifying. -/
def modifying (t : Thread V P σ ε) : List PublisherRef :=
  t.stack.filterMap Frame.writes?

/-- The monitors that the next move of a thread enters. -/
def enters (w : World V P σ ε) (t : Thread V P σ ε) : List Monitor :=
  match t.focus with
  | .run (.hold m _ _) => [m]
  | .run (.publish p _ _) | .run (.amend p _ _) | .run (.attach p _ _ _) =>
      (w.publisher? p).elim [] Publisher.monitors
  | _ => []

/-- The publishers that the next move of a thread writes to or begins to modify. -/
def writes (t : Thread V P σ ε) : List PublisherRef :=
  match t.focus with
  | .run (.publish p _ _) | .run (.amend p _ _) => [p]
  | _ => []

@[simp] theorem monitors_nil (f : Focus V P σ ε) : monitors ⟨f, []⟩ = [] := rfl

@[simp] theorem monitors_cons_leave (f : Focus V P σ ε) (m : Monitor)
    (st : List (Frame V P σ ε)) : monitors ⟨f, .leave m :: st⟩ = m :: monitors ⟨f, st⟩ := rfl

theorem monitors_cons_of_monitor? {fr : Frame V P σ ε} (h : fr.monitor? = none)
    (f : Focus V P σ ε) (st : List (Frame V P σ ε)) :
    monitors ⟨f, fr :: st⟩ = monitors ⟨f, st⟩ := by
  simp [monitors, h]

/-- The monitors inside which the upper part of a stack runs come before those of the rest. -/
theorem monitors_append (f : Focus V P σ ε) (st rest : List (Frame V P σ ε)) :
    monitors ⟨f, st ++ rest⟩ = monitors ⟨f, st⟩ ++ monitors ⟨f, rest⟩ :=
  List.filterMap_append

@[simp] theorem monitors_leaving {O : Type} (s : Publisher V O) (f : Focus V P σ ε)
    (st : List (Frame V P σ ε)) :
    monitors ⟨f, s.leaving ++ st⟩ = s.monitors ++ monitors ⟨f, st⟩ := by
  have h : ∀ ms : List Monitor,
      monitors (⟨f, ms.map .leave ++ st⟩ : Thread V P σ ε) = ms ++ monitors ⟨f, st⟩ := by
    intro ms
    induction ms with
    | nil => rfl
    | cons m ms ih => exact congrArg (m :: ·) ih
  exact h s.monitors

variable [BEq V] {body : P → Prog V P σ ε} {w w' : World V P σ ε} {t t' : Thread V P σ ε}
  {es : List (Event V ε)} {m : Monitor}

/-- A thread is inside a monitor only after it has entered it. -/
theorem Moves.monitors (h : Moves body w t es w' t') (hm : m ∈ t'.monitors) :
    m ∈ t.monitors ∨ m ∈ t.enters w := by
  cases h with
  | left | expelled => exact Or.inl (List.mem_cons_of_mem _ hm)
  | @passed _ fr _ hfr =>
      have hnone : fr.monitor? = none := by
        cases fr <;> first | rfl | exact hfr.elim
      rw [monitors_cons_of_monitor? hnone]
      exact Or.inl hm
  | held =>
      rcases List.mem_cons.1 hm with rfl | hm
      · exact Or.inr (List.mem_singleton_self _)
      · exact Or.inl hm
  | publishedSame hp | published hp | attached hp =>
      -- the frames that leave a publisher's monitors are pushed as these are entered
      rw [monitors_leaving] at hm
      rcases List.mem_append.1 hm with hm | hm
      · refine Or.inr ?_
        simp only [enters, hp]
        exact hm
      · exact Or.inl hm
  | amending hp =>
      rw [List.cons_append, monitors_cons_of_monitor? rfl, monitors_leaving] at hm
      rcases List.mem_append.1 hm with hm | hm
      · refine Or.inr ?_
        simp only [enters, hp]
        exact hm
      · exact Or.inl hm
  | resumed | unharmed | called | drained | popped | observed | amendedSame | amended | registered
  | swapped | contended | caught | abandoned | busy | draining | panicked | performed | entered
  | attempted | retried | prepared | disposedAgain | tornDown | detached => exact Or.inl hm

end Thread

/-- A world and the threads that move in it. -/
structure Crowd (ι V P σ ε : Type) where
  world : World V P σ ε
  threads : ι → Thread V P σ ε

namespace Crowd

/-- Whether nothing keeps a thread from its next move: no other thread is inside a monitor that it
enters, or in the middle of modifying a publisher that it writes to. -/
def Free (c : Crowd ι V P σ ε) (i : ι) : Prop :=
  ∀ j, j ≠ i →
    (∀ m ∈ (c.threads i).enters c.world, m ∉ (c.threads j).monitors) ∧
      ∀ p ∈ (c.threads i).writes, p ∉ (c.threads j).modifying

instance [Fintype ι] [DecidableEq ι] (c : Crowd ι V P σ ε) (i : ι) : Decidable (c.Free i) := by
  unfold Free
  infer_instance

variable [DecidableEq ι]

/-- The crowd in which one thread has gone on. -/
def put (c : Crowd ι V P σ ε) (i : ι) (w : World V P σ ε) (t : Thread V P σ ε) :
    Crowd ι V P σ ε :=
  ⟨w, Function.update c.threads i t⟩

@[simp] theorem world_put (c : Crowd ι V P σ ε) (i : ι) (w : World V P σ ε)
    (t : Thread V P σ ε) : (c.put i w t).world = w := rfl

@[simp] theorem threads_put_self (c : Crowd ι V P σ ε) (i : ι) (w : World V P σ ε)
    (t : Thread V P σ ε) : (c.put i w t).threads i = t :=
  Function.update_self ..

theorem threads_put_ne {i j : ι} (h : j ≠ i) (c : Crowd ι V P σ ε) (w : World V P σ ε)
    (t : Thread V P σ ε) : (c.put i w t).threads j = c.threads j :=
  Function.update_of_ne h ..

/-- What holds of the thread that goes on and of all others holds of every thread. -/
theorem forall_threads_put {c : Crowd ι V P σ ε} {i : ι} {w : World V P σ ε} {t : Thread V P σ ε}
    {q : ι → Thread V P σ ε → Prop} (hself : q i t) (hne : ∀ j, j ≠ i → q j (c.threads j)) (j : ι) :
    q j ((c.put i w t).threads j) := by
  by_cases hj : j = i
  · subst hj
    rw [threads_put_self]
    exact hself
  · rw [threads_put_ne hj]
    exact hne j hj

variable [BEq V]

/-- One thread makes a move. -/
inductive Step (body : P → Prog V P σ ε) (c : Crowd ι V P σ ε) (i : ι) :
    List (Event V ε) → Crowd ι V P σ ε → Prop where
  | mk {es : List (Event V ε)} {w : World V P σ ε} {t : Thread V P σ ε} :
      c.Free i → Thread.Moves body c.world (c.threads i) es w t → Step body c i es (c.put i w t)

/-- What leads from one crowd to another, with the events on the way. Every thread that moves
satisfies `ok`, and a thread that has ended may start another program out of `starts`. -/
inductive Run (body : P → Prog V P σ ε) (starts : Prog V P σ ε → Prop)
    (ok : Thread V P σ ε → Prop) (c₀ : Crowd ι V P σ ε) :
    List (Event V ε) → Crowd ι V P σ ε → Prop where
  | refl : Run body starts ok c₀ [] c₀
  | step {es es' : List (Event V ε)} {c c' : Crowd ι V P σ ε} {i : ι} :
      Run body starts ok c₀ es c → ok (c.threads i) → Step body c i es' c' →
      Run body starts ok c₀ (es ++ es') c'
  | next {es : List (Event V ε)} {c : Crowd ι V P σ ε} {i : ι} {o : Outcome V}
      {b : Prog V P σ ε} :
      Run body starts ok c₀ es c → (c.threads i).outcome? = some o → starts b →
      Run body starts ok c₀ es (c.put i c.world (.start b))

section Runs

variable {body : P → Prog V P σ ε} {starts : Prog V P σ ε → Prop} {ok : Thread V P σ ε → Prop}
  {c₀ c c' : Crowd ι V P σ ε} {i : ι} {es es' : List (Event V ε)}

theorem Run.trans (h : Run body starts ok c₀ es c) (h' : Run body starts ok c es' c') :
    Run body starts ok c₀ (es ++ es') c' := by
  induction h' with
  | refl => rw [List.append_nil]; exact h
  | step _ hok hstep ih => rw [← List.append_assoc]; exact .step ih hok hstep
  | next _ hend hb ih => exact .next ih hend hb

/-- No monitor is inside two threads. -/
def Exclusive (c : Crowd ι V P σ ε) : Prop :=
  ∀ i j, i ≠ j → ∀ m ∈ (c.threads i).monitors, m ∉ (c.threads j).monitors

omit [DecidableEq ι] [BEq V] in
/-- Threads that are inside no monitor exclude nobody. -/
theorem exclusive_of_monitors_eq_nil (h : ∀ i, (c.threads i).monitors = []) : c.Exclusive := by
  intro i j _ m hm
  rw [h i] at hm
  exact nomatch hm

omit [BEq V] in
/-- No monitor is inside two threads if none is inside the one that goes on and another one. -/
theorem Exclusive.put {w : World V P σ ε} {t : Thread V P σ ε} (hex : c.Exclusive)
    (ht : ∀ j, j ≠ i → ∀ m ∈ t.monitors, m ∉ (c.threads j).monitors) :
    (c.put i w t).Exclusive := by
  intro j k hjk m hmj hmk
  by_cases hj : j = i
  · subst hj
    rw [threads_put_self] at hmj
    rw [threads_put_ne (Ne.symm hjk)] at hmk
    exact ht k (Ne.symm hjk) m hmj hmk
  · rw [threads_put_ne hj] at hmj
    by_cases hk : k = i
    · subst hk
      rw [threads_put_self] at hmk
      exact ht j hj m hmk hmj
    · rw [threads_put_ne hk] at hmk
      exact hex j k hjk m hmj hmk

/-- A monitor is entered only when no other thread is inside it. -/
theorem Step.exclusive (h : Step body c i es c') (hex : c.Exclusive) : c'.Exclusive := by
  cases h with
  | mk hfree hm =>
      refine hex.put ?_
      intro j hj m hmem
      rcases hm.monitors hmem with hold | hnew
      · exact hex i j (Ne.symm hj) m hold
      · exact (hfree j hj).1 m hnew

omit [BEq V] in
/-- A thread that starts a program is inside no monitor yet. -/
theorem Exclusive.next (hex : c.Exclusive) (i : ι) (b : Prog V P σ ε) :
    (c.put i c.world (.start b)).Exclusive :=
  hex.put nofun

theorem Run.exclusive (h : Run body starts ok c₀ es c) (hex : c₀.Exclusive) : c.Exclusive := by
  induction h with
  | refl => exact hex
  | step _ _ hstep ih => exact hstep.exclusive ih
  | next _ _ _ ih => exact ih.next _ _

end Runs

instance : DecidablePred (Thread.Any : Thread V P σ ε → Prop) :=
  fun _ => .isTrue trivial

/-- The crowd and the events that a schedule leads to, if every thread named can move in its turn
and satisfies `ok`. -/
def advance [Fintype ι] (body : P → Prog V P σ ε) (ok : Thread V P σ ε → Prop) [DecidablePred ok] :
    List ι → Crowd ι V P σ ε → Option (Crowd ι V P σ ε × List (Event V ε))
  | [], c => some (c, [])
  | i :: is, c =>
      if ok (c.threads i) ∧ c.Free i then
        match Thread.step body c.world (c.threads i) with
        | none => none
        | some (w, t, es) =>
            (advance body ok is (c.put i w t)).map fun (c', es') => (c', es ++ es')
      else none

/-- What a schedule leads to is reached by a run. -/
theorem Run.of_advance [Fintype ι] {body : P → Prog V P σ ε} {starts : Prog V P σ ε → Prop}
    {ok : Thread V P σ ε → Prop} [DecidablePred ok] {is : List ι} {c c' : Crowd ι V P σ ε}
    {es : List (Event V ε)} (h : advance body ok is c = some (c', es)) :
    Run body starts ok c es c' := by
  induction is generalizing c es with
  | nil =>
      cases h
      exact .refl
  | cons i is ih =>
      unfold advance at h
      split at h
      · next hi =>
          split at h
          · exact nomatch h
          · next w t es₁ hstep =>
              obtain ⟨⟨c₂, es₂⟩, hrest, heq⟩ := Option.map_eq_some_iff.1 h
              cases heq
              have hone : Run body starts ok c ([] ++ es₁) (c.put i w t) :=
                .step .refl hi.1 ⟨hi.2, Thread.moves_iff.2 hstep⟩
              exact hone.trans (ih hrest)
      · exact nomatch h

end Crowd

/-- A thread on its own is a crowd of one. -/
theorem Run.alone [BEq V] {body : P → Prog V P σ ε} {w w' : World V P σ ε} {t t' : Thread V P σ ε}
    {es : List (Event V ε)} (h : AnyRun body w t es w' t') :
    Crowd.Run body (fun _ => False) Thread.Any (⟨w, fun () => t⟩ : Crowd Unit V P σ ε) es
      ⟨w', fun () => t'⟩ := by
  induction h with
  | refl => exact .refl
  | @step es es' w' w'' t t' _ hstep _ ih =>
      have hput : (⟨w', fun () => t⟩ : Crowd Unit V P σ ε).put () w'' t' = ⟨w'', fun () => t'⟩ :=
        congrArg (Crowd.mk w'') (funext fun () => Function.update_self ..)
      have hfree : (⟨w', fun () => t⟩ : Crowd Unit V P σ ε).Free () := fun () hne => absurd rfl hne
      exact hput ▸ ih.step trivial ⟨hfree, Thread.moves_iff.2 hstep⟩
  | next _ _ hc _ _ => exact hc.elim

end ReactiveCells
