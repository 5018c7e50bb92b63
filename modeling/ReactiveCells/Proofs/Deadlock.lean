import Mathlib.Algebra.Group.Fin.Basic
import Mathlib.Algebra.Order.BigOperators.Group.Finset
import Mathlib.Logic.Relation
import ReactiveCells.Lock.Taking
import ReactiveCells.Proofs.Crowd
import ReactiveCells.Proofs.Soon

/-!
# Ordered locks and circular waits

Whoever takes an ordered lock enters monitors of ascending level: the tie-breaker has the lowest
one, and a lock has that of its order key. Follow a cycle of threads of which each holds what the
next one waits for. Every thread waits for something of at least the level that the next one waits
for, so all of them wait for the same level. Then each holds a lock of the level of the one it
waits for, its set has two locks of one key, and it holds the tie-breaker. But the tie-breaker is
inside one thread only.

Main statement: `no_circular_wait`, for sets that are acquired in conflicting orders and for
threads of any number that take any sets again and again.
-/

namespace ReactiveCells

/-- How low a monitor stands in the order of acquisition. -/
def Monitor.level : Monitor → Nat
  | .tieBreaker => 0
  | .lock l => l.key + 1

/-! ## The order of acquisition -/

namespace OrderedLock

variable {ls : List LockId} {m m' : Monitor}

/-- In a list with ascending keys two entries of equal key make two neighbours of equal key. -/
theorem hasCollision_of_sublist {ks : List LockId} {a b : LockId}
    (hs : ks.Pairwise fun a b => a.key ≤ b.key) (hab : [a, b].Sublist ks) (hkey : a.key = b.key) :
    hasCollision ks = true := by
  induction ks with
  | nil => exact nomatch hab
  | cons x rest ih =>
      obtain ⟨hx, hrest⟩ := List.pairwise_cons.1 hs
      cases rest with
      | nil => simpa using hab.length_le
      | cons y rest =>
          rw [hasCollision, Bool.or_eq_true]
          cases hab with
          | cons _ hab => exact Or.inr (ih hrest hab)
          | cons_cons _ hb =>
              left
              have hby : b = y ∨ b ∈ rest := List.mem_cons.1 (List.singleton_sublist.1 hb)
              have hxy : a.key ≤ y.key := hx y List.mem_cons_self
              have hyb : y.key ≤ b.key := by
                rcases hby with rfl | hmem
                · exact Nat.le_refl _
                · exact (List.pairwise_cons.1 hrest).1 b hmem
              simp only [beq_iff_eq]
              omega

/-- Two locks of one key are taken behind the tie-breaker, wherever they stand in the list. -/
theorem needsTieBreaker_of_key {l l' : LockId} (h : l ∈ ls) (h' : l' ∈ ls) (hne : l ≠ l')
    (hkey : l.key = l'.key) : (on ls).needsTieBreaker = true := by
  by_contra hno
  -- without a collision the keys of any two locks differ
  have hkeys : (on ls).locks.Pairwise fun a b => a.key ≠ b.key :=
    List.pairwise_iff_forall_sublist.2 fun hsub heq =>
      hno (hasCollision_of_sublist (sorted_on ls) hsub heq)
  have hsymm : Std.Symm fun a b : LockId => a.key ≠ b.key := ⟨fun _ _ => Ne.symm⟩
  exact hkeys.forall ((mem_on ls l).2 h) ((mem_on ls l').2 h') hne hkey

theorem acquisitions_of_tieBreaker {o : OrderedLock} (h : o.needsTieBreaker = true) :
    o.acquisitions = .tieBreaker :: o.locks.map .lock := by
  simp [acquisitions, h]

/-- Monitors are entered by ascending level. -/
theorem ascending_acquisitions (ls : List LockId) :
    (on ls).acquisitions.Pairwise fun m m' => m.level ≤ m'.level := by
  rw [acquisitions, List.pairwise_append, List.pairwise_map]
  refine ⟨?_, ?_, ?_⟩
  · split <;> simp
  · exact (sorted_on ls).imp Nat.succ_le_succ
  · intro m hm m' _
    split at hm
    · rw [List.mem_singleton.1 hm]
      exact Nat.zero_le _
    · exact nomatch hm

theorem level_le_of_sublist (h : [m, m'].Sublist (on ls).acquisitions) : m.level ≤ m'.level :=
  (List.pairwise_cons.1 ((ascending_acquisitions ls).sublist h)).1 m' (List.mem_singleton_self _)

/-- Two monitors of one level are entered only behind the tie-breaker. -/
theorem needsTieBreaker_of_level (h : [m, m'].Sublist (on ls).acquisitions)
    (hlevel : m.level = m'.level) : (on ls).needsTieBreaker = true := by
  by_contra hno
  have hlocks : (on ls).acquisitions = (on ls).locks.map .lock := by
    simp [acquisitions, hno]
  rw [hlocks] at h
  obtain ⟨ks, hks, hmap⟩ := List.sublist_map_iff.1 h
  obtain ⟨a, ks', rfl, rfl, hmap'⟩ := List.map_eq_cons_iff.1 hmap.symm
  obtain ⟨b, ks'', rfl, rfl, hnil⟩ := List.map_eq_cons_iff.1 hmap'
  obtain rfl := List.map_eq_nil_iff.1 hnil
  exact hno (hasCollision_of_sublist (sorted_on ls) hks (Nat.succ.inj hlevel))

/-- A function that never falls on the way round a circle is constant. -/
theorem eq_of_le_round {n : Nat} {k : Fin (n + 2) → Nat} (h : ∀ i, k i ≤ k (i + 1))
    (i : Fin (n + 2)) : k i = k (i + 1) := by
  have hsum : ∑ i, k i = ∑ i, k (i + 1) := (Equiv.sum_comp (Equiv.addRight 1) k).symm
  exact (Finset.sum_eq_sum_iff_of_le fun i _ => h i).1 hsum i (Finset.mem_univ i)

/-- Sets of locks that are acquired in conflicting orders all need the tie-breaker. -/
theorem needsTieBreaker_of_round {n : Nat} {ls : Fin (n + 2) → List LockId}
    {l : Fin (n + 2) → LockId}
    (h : ∀ i, [Monitor.lock (l i), .lock (l (i + 1))].Sublist (on (ls i)).acquisitions)
    (i : Fin (n + 2)) : (on (ls i)).needsTieBreaker = true :=
  needsTieBreaker_of_level (h i)
    (eq_of_le_round (k := fun i => (Monitor.lock (l i)).level)
      (fun i => level_le_of_sublist (h i)) i)

end OrderedLock

/-! ## A thread that takes an ordered lock -/

variable {ι V P σ ε : Type}

/-- The frames of monitors that were entered one inside the other, the latest first. -/
def nested : List Monitor → List (Frame V P σ ε)
  | [] => []
  | m :: ms => .leave m :: .resume .ret :: nested ms

@[simp] theorem Thread.monitors_nested (f : Focus V P σ ε) (ms : List Monitor) :
    Thread.monitors ⟨f, nested ms⟩ = ms := by
  induction ms with
  | nil => rfl
  | cons m ms ih => exact congrArg (m :: ·) ih

theorem Thread.monitors_over_nested (t : Thread V P σ ε) (ms : List Monitor) :
    (t.over (nested ms)).monitors = t.monitors ++ ms := by
  rw [Thread.over, Thread.monitors_append, Thread.monitors_nested]

/-- A thread that has ended is inside no monitor. -/
theorem Thread.monitors_of_outcome {t : Thread V P σ ε} {o : Outcome V}
    (h : t.outcome? = some o) : t.monitors = [] := by
  rw [Thread.monitors, Thread.stack_of_outcome h]
  rfl

/-- A thread that has ended does not enter anything. -/
theorem Thread.enters_of_outcome {w : World V P σ ε} {t : Thread V P σ ε} {o : Outcome V}
    (h : t.outcome? = some o) (st : List (Frame V P σ ε)) : (t.over st).enters w = [] := by
  rcases Thread.outcome_cases h with ⟨v, rfl⟩ | ⟨text, rfl⟩ <;> rfl

/-- A thread that takes monitors in the order of a list. -/
inductive Taking (ms : List Monitor) : Thread V P σ ε → Prop where
  | before (x : Message) (b : Act V P σ ε V) :
      Taking ms ⟨.run (.atom (.report x) fun _ => (Act.holdAll ms b).prog), []⟩
  | entering {entered rest : List Monitor} (b : Act V P σ ε V) : entered.reverse ++ rest = ms →
      Taking ms ⟨.run (Act.holdAll rest b).prog, nested entered⟩
  /-- Something runs inside all the monitors. -/
  | inside (t : Thread V P σ ε) : Taking ms (t.over (nested ms.reverse))
  /-- What ran inside has ended, and the latest monitors have been left. -/
  | leaving {t : Thread V P σ ε} {o : Outcome V} {entered : List Monitor} :
      t.outcome? = some o → entered <:+ ms.reverse → Taking ms (t.over (nested entered))
  | left {t : Thread V P σ ε} {o : Outcome V} {entered : List Monitor} :
      t.outcome? = some o → entered <:+ ms.reverse →
      Taking ms (t.over (.resume .ret :: nested entered))

namespace Taking

variable {ms : List Monitor} {m : Monitor} {t t' : Thread V P σ ε} {w w' : World V P σ ε}
  {es : List (Event V ε)} {body : P → Prog V P σ ε}

/-- A thread that has ended takes whatever one likes. -/
theorem of_outcome {o : Outcome V} (h : t.outcome? = some o) : Taking ms t := by
  have hend : Taking ms (t.over (nested [])) := .leaving h List.nil_suffix
  rwa [nested, Thread.over, List.append_nil] at hend

/-- What a thread that takes monitors is inside: all of them and perhaps more, or those it entered
first. -/
theorem monitors (h : Taking ms t) :
    (∃ more, t.monitors = more ++ ms.reverse) ∨ t.monitors <:+ ms.reverse := by
  cases h with
  | before => exact Or.inr List.nil_suffix
  | entering b hms =>
      right
      rw [Thread.monitors_nested, ← hms, List.reverse_append, List.reverse_reverse]
      exact List.suffix_append _ _
  | inside t => exact Or.inl ⟨t.monitors, Thread.monitors_over_nested t _⟩
  | leaving ho hsuf =>
      right
      rw [Thread.monitors_over_nested, Thread.monitors_of_outcome ho]
      exact hsuf
  | left ho hsuf =>
      right
      rw [Thread.over, Thread.monitors_append, Thread.monitors_cons_of_monitor? rfl,
        Thread.monitors_nested, Thread.stack_of_outcome ho]
      exact hsuf

/-- Whoever is inside any of the monitors is inside the first one. -/
theorem first (h : Taking (m :: ms) t) (hne : t.monitors ≠ []) : m ∈ t.monitors := by
  rcases h.monitors with ⟨more, hmore⟩ | hsuf
  · rw [hmore]
    simp
  · obtain ⟨left, hleft⟩ := hsuf
    rw [List.reverse_cons] at hleft
    obtain ⟨entered, x, hx⟩ := List.eq_nil_or_concat' t.monitors |>.resolve_left hne
    rw [hx, ← List.append_assoc] at hleft
    obtain ⟨-, hlast⟩ := List.append_inj' hleft rfl
    rw [hx, List.singleton_inj.1 hlast]
    simp

/-- A thread that waits for one of the monitors it takes is inside exactly those before it. -/
theorem waits (h : Taking ms t) (hown : ∀ m ∈ t.enters w, m ∈ ms) (hm : m ∈ t.enters w)
    (hout : m ∉ t.monitors) : ∃ rest, ms = t.monitors.reverse ++ m :: rest := by
  cases h with
  | before => exact nomatch hm
  | @entering entered rest b hms =>
      rw [Thread.monitors_nested] at hout ⊢
      cases rest with
      | nil =>
          rw [List.append_nil] at hms
          exact absurd (List.mem_reverse.1 (hms ▸ hown m hm)) hout
      | cons m' rest =>
          obtain rfl := List.mem_singleton.1 hm
          exact ⟨rest, hms.symm⟩
  | inside t =>
      rw [Thread.monitors_over_nested] at hout
      exact absurd (List.mem_append_right _ (List.mem_reverse.2 (hown m hm))) hout
  | leaving ho | left ho =>
      rw [Thread.enters_of_outcome ho] at hm
      exact nomatch hm

variable [BEq V]

/-- A thread that has ended inside some monitors leaves them one after the other. -/
theorem leave {o : Outcome V} {entered : List Monitor} (ho : t.outcome? = some o)
    (hsuf : entered <:+ ms.reverse) (hm : Thread.Moves body w (t.over (nested entered)) es w' t') :
    Taking ms t' := by
  cases entered with
  | nil =>
      have hend : (t.over []).outcome? = some o := by rwa [Thread.over_nil]
      exact nomatch (Thread.step_of_outcome hend).symm.trans hm.step
  | cons m entered =>
      have hsuf' : entered <:+ ms.reverse := (List.suffix_cons m entered).trans hsuf
      rcases Thread.outcome_cases ho with ⟨v, rfl⟩ | ⟨text, rfl⟩
      · cases hm with
        | left => exact .left (t := ⟨.run (.ret v), []⟩) rfl hsuf'
      · cases hm with
        | expelled => exact .left (t := ⟨.unwind text, []⟩) rfl hsuf'
        | passed hfr => exact hfr.elim

/-- A thread that takes monitors goes on doing so. -/
theorem move (h : Taking ms t) (hm : Thread.Moves body w t es w' t') : Taking ms t' := by
  -- what has not ended inside all the monitors stays there
  have within : ∀ {t : Thread V P σ ε},
      Thread.Moves body w (t.over (nested ms.reverse)) es w' t' → Taking ms t' := by
    intro t hm
    rcases hm.under with ⟨t₁, rfl, -⟩ | ⟨o, ho⟩
    · exact .inside t₁
    · exact leave ho List.suffix_rfl hm
  cases h with
  | before x b =>
      cases hm with
      | performed =>
          show Taking ms ⟨.run (Act.holdAll ms b).prog, nested []⟩
          exact .entering b rfl
  | @entering entered rest b hms =>
      cases rest with
      | nil =>
          have hall : entered = ms.reverse := by
            rw [← hms, List.append_nil, List.reverse_reverse]
          rw [hall] at hm
          exact within (t := ⟨.run b.prog, []⟩) hm
      | cons m rest =>
          have hms' : (m :: entered).reverse ++ rest = ms := by
            rw [List.reverse_cons, List.append_assoc]
            exact hms
          cases hm with
          | held => exact .entering b hms'
  | inside t => exact within hm
  | leaving ho hsuf => exact leave ho hsuf hm
  | left ho hsuf =>
      rcases Thread.outcome_cases ho with ⟨v, rfl⟩ | ⟨text, rfl⟩
      · cases hm with
        | resumed => exact .leaving (t := ⟨.run (.ret v), []⟩) rfl hsuf
      · cases hm with
        | passed => exact .leaving (t := ⟨.unwind text, []⟩) rfl hsuf

end Taking

/-! ## Threads that take ordered locks -/

namespace Crowd

section Waiting

variable {ls : ι → List LockId} {c : Crowd ι V P σ ε} {i j : ι} {m m' : Monitor}

/-- Thread `i` is inside a monitor that thread `j` waits for. -/
def Blocks (c : Crowd ι V P σ ε) (i j : ι) : Prop :=
  i ≠ j ∧ ∃ m ∈ (c.threads j).enters c.world, m ∈ (c.threads i).monitors

/-- Whether a thread waits for a monitor that another thread is inside. -/
def Waits (c : Crowd ι V P σ ε) (j : ι) (m : Monitor) : Prop :=
  m ∈ (c.threads j).enters c.world ∧ m ∉ (c.threads j).monitors

/-- Threads that take ordered locks, each on a list of its own. -/
structure Taken (ls : ι → List LockId) (c : Crowd ι V P σ ε) : Prop where
  taking : ∀ i, Taking (OrderedLock.on (ls i)).acquisitions (c.threads i)
  exclusive : c.Exclusive

/-- Threads that enter nothing but what they take. -/
structure Confined (ls : ι → List LockId) (c : Crowd ι V P σ ε) : Prop extends Taken ls c where
  own : ∀ i, ∀ m ∈ (c.threads i).enters c.world, m ∈ (OrderedLock.on (ls i)).acquisitions

/-- Whoever is inside a monitor of a set that needs the tie-breaker is inside the tie-breaker. -/
theorem Taken.tieBreaker (h : Taken ls c) (hneeds : (OrderedLock.on (ls i)).needsTieBreaker = true)
    (hin : m ∈ (c.threads i).monitors) : .tieBreaker ∈ (c.threads i).monitors := by
  have htaking := h.taking i
  rw [OrderedLock.acquisitions_of_tieBreaker hneeds] at htaking
  exact htaking.first (List.ne_nil_of_mem hin)

theorem Taken.waits (h : Taken ls c) (hb : c.Blocks i j) :
    ∃ m, c.Waits j m ∧ m ∈ (c.threads i).monitors := by
  obtain ⟨hij, m, hm, hin⟩ := hb
  exact ⟨m, ⟨hm, h.exclusive i j hij m hin⟩, hin⟩

/-- Whoever comes last in a chain of waiting threads waits. -/
theorem Taken.waits_of_chain (h : Taken ls c) (hchain : Relation.TransGen c.Blocks i j) :
    ∃ m, c.Waits j m := by
  obtain ⟨k, -, hb⟩ := Relation.TransGen.tail'_iff.1 hchain
  obtain ⟨m, hm, -⟩ := h.waits hb
  exact ⟨m, hm⟩

/-- A thread waits for one monitor at a time. -/
theorem Confined.waits_unique (h : Confined ls c) (hm : c.Waits i m) (hm' : c.Waits i m') :
    m = m' := by
  obtain ⟨rest, hrest⟩ := (h.taking i).waits (h.own i) hm.1 hm.2
  obtain ⟨rest', hrest'⟩ := (h.taking i).waits (h.own i) hm'.1 hm'.2
  exact (List.cons.inj (List.append_cancel_left (hrest.symm.trans hrest'))).1

/-- What a thread is inside comes before what it waits for. -/
theorem Confined.sublist (h : Confined ls c) (hin : m ∈ (c.threads i).monitors)
    (hm : c.Waits i m') : [m, m'].Sublist (OrderedLock.on (ls i)).acquisitions := by
  obtain ⟨rest, hrest⟩ := (h.taking i).waits (h.own i) hm.1 hm.2
  rw [hrest]
  have hfirst : [m].Sublist (c.threads i).monitors.reverse :=
    List.singleton_sublist.2 (List.mem_reverse.2 hin)
  exact hfirst.append (List.singleton_sublist.2 List.mem_cons_self)

/-- Along a chain of waiting threads the level of what they wait for does not rise. -/
theorem Confined.level_le (h : Confined ls c) (hchain : Relation.TransGen c.Blocks i j)
    (hi : c.Waits i m) (hj : c.Waits j m') : m'.level ≤ m.level := by
  induction hchain generalizing m' with
  | single hb =>
      obtain ⟨n, hn, hin⟩ := h.waits hb
      obtain rfl := h.waits_unique hj hn
      exact OrderedLock.level_le_of_sublist (h.sublist hin hi)
  | @tail j k hchain hb ih =>
      obtain ⟨n, hn, hin⟩ := h.waits hb
      obtain rfl := h.waits_unique hj hn
      obtain ⟨n', hn'⟩ := h.waits_of_chain hchain
      have hstep : m'.level ≤ n'.level := OrderedLock.level_le_of_sublist (h.sublist hin hn')
      exact hstep.trans (ih hn')

/-- In a cycle of waiting threads everybody is inside the tie-breaker. -/
theorem Confined.tieBreaker_of_cycle (h : Confined ls c) (hcycle : Relation.TransGen c.Blocks i i) :
    .tieBreaker ∈ (c.threads i).monitors := by
  obtain ⟨j, hb, hback⟩ := Relation.TransGen.head'_iff.1 hcycle
  obtain ⟨m, hm, hin⟩ := h.waits hb
  obtain ⟨m', hm'⟩ := h.waits_of_chain hcycle
  have hback : Relation.TransGen c.Blocks j i := by
    rcases Relation.reflTransGen_iff_eq_or_transGen.1 hback with rfl | hback
    · exact absurd rfl hb.1
    · exact hback
  -- round the cycle the level can neither fall nor rise
  have hle : m.level ≤ m'.level := OrderedLock.level_le_of_sublist (h.sublist hin hm')
  have hge : m'.level ≤ m.level := h.level_le hback hm hm'
  have hneeds := OrderedLock.needsTieBreaker_of_level (h.sublist hin hm') (Nat.le_antisymm hle hge)
  exact h.tieBreaker hneeds hin

/-- Threads that take ordered locks do not wait in a circle. -/
theorem Confined.acyclic (h : Confined ls c) (i : ι) : ¬ Relation.TransGen c.Blocks i i := by
  intro hcycle
  obtain ⟨j, hb, hback⟩ := Relation.TransGen.head'_iff.1 hcycle
  have hcycle' : Relation.TransGen c.Blocks j j := Relation.TransGen.tail' hback hb
  exact h.exclusive i j hb.1 .tieBreaker (h.tieBreaker_of_cycle hcycle)
    (h.tieBreaker_of_cycle hcycle')

end Waiting

section Takers

variable [DecidableEq ι] [BEq V] {body : P → Prog V P σ ε} {ls : ι → List LockId}
  {c c' : Crowd ι V P σ ε} {es : List (Event V ε)}

/-- What threads come to that do nothing but take ordered locks, each as often as it likes and
always on a list of its choice; `ls` has the list of the latest choice of each. -/
inductive Takers (body : P → Prog V P σ ε) : (ι → List LockId) → Crowd ι V P σ ε → Prop where
  | begin {ls : ι → List LockId} {c : Crowd ι V P σ ε} :
      (∀ i, ∃ o, (c.threads i).outcome? = some o) → Takers body ls c
  | take {ls : ι → List LockId} {c : Crowd ι V P σ ε} {i : ι} {o : Outcome V} (l : List LockId)
      (b : Act V P σ ε V) :
      Takers body ls c → (c.threads i).outcome? = some o →
      Takers body (Function.update ls i l)
        (c.put i c.world (.start ((OrderedLock.on l).take b).prog))
  | step {ls : ι → List LockId} {c c' : Crowd ι V P σ ε} {i : ι} {es : List (Event V ε)} :
      Takers body ls c → Step body c i es c' → Takers body ls c'

theorem Takers.run {ok : Thread V P σ ε → Prop} (h : Takers body ls c)
    (hrun : Run body (fun _ => False) ok c es c') : Takers body ls c' := by
  induction hrun with
  | refl => exact h
  | step _ _ hstep ih => exact ih.step hstep
  | next _ _ hb => exact hb.elim

theorem Takers.taken (h : Takers body ls c) : Taken ls c := by
  induction h with
  | begin hend =>
      refine ⟨?_, exclusive_of_monitors_eq_nil ?_⟩
      · intro i
        obtain ⟨o, ho⟩ := hend i
        exact .of_outcome ho
      · intro i
        obtain ⟨o, ho⟩ := hend i
        exact Thread.monitors_of_outcome ho
  | @take ls c i o l b _ _ ih =>
      refine ⟨forall_threads_put ?_ ?_, ih.exclusive.next i _⟩
      · rw [Function.update_self]
        exact .before _ b
      · intro j hj
        rw [Function.update_of_ne hj]
        exact ih.taking j
  | @step ls c c' i es _ hstep ih =>
      refine ⟨?_, hstep.exclusive ih.exclusive⟩
      cases hstep with
      | mk hfree hm => exact forall_threads_put ((ih.taking i).move hm) fun j _ => ih.taking j

end Takers

end Crowd

section Main

variable [DecidableEq ι] [BEq V] {body : P → Prog V P σ ε}

/-- If ordered locks acquire locks in an order that goes round in a circle, each of them needs the
tie-breaker. It is entered before any lock, so threads that take ordered locks are inside a lock of
such a set only while they are inside the tie-breaker. And whenever none of them is about to enter
a monitor that is not of the set it takes, there is no cycle of threads of which each is inside a
monitor that the next one waits for. -/
theorem no_circular_wait :
    (∀ (n : Nat) (ls : Fin (n + 2) → List LockId) (l : Fin (n + 2) → LockId),
      (∀ i, [Monitor.lock (l i), .lock (l (i + 1))].Sublist
        (OrderedLock.on (ls i)).acquisitions) →
      ∀ i, (OrderedLock.on (ls i)).needsTieBreaker = true) ∧
    ∀ (ls : ι → List LockId) (c : Crowd ι V P σ ε), Crowd.Takers body ls c →
      (∀ i, (OrderedLock.on (ls i)).needsTieBreaker = true →
        ∀ m ∈ (c.threads i).monitors, .tieBreaker ∈ (c.threads i).monitors) ∧
      ((∀ i, ∀ m ∈ (c.threads i).enters c.world, m ∈ (OrderedLock.on (ls i)).acquisitions) →
        ∀ i, ¬ Relation.TransGen c.Blocks i i) := by
  refine ⟨?_, ?_⟩
  · intro n ls l h i
    exact OrderedLock.needsTieBreaker_of_round h i
  · intro ls c htakers
    have htaken : Crowd.Taken ls c := htakers.taken
    refine ⟨?_, ?_⟩
    · intro i hneeds m hm
      exact htaken.tieBreaker hneeds hm
    · intro hown i
      exact Crowd.Confined.acyclic ⟨htaken, hown⟩ i

end Main

section Opposed

open Crowd

/-- Two lists of two locks of one key, each of which names first what the other one names last. -/
def opposed : Bool → List LockId
  | true => [⟨0, 5⟩, ⟨1, 5⟩]
  | false => [⟨1, 5⟩, ⟨0, 5⟩]

/-- Of two threads that take two locks of one key in opposite orders, the second one waits for the
tie-breaker, and the first one waits for nobody. -/
theorem no_circular_wait_opposed :
    (∀ i, (OrderedLock.on (opposed i)).needsTieBreaker = true) ∧
    ∃ c : Crowd Bool Nat Empty Unit Unit, Takers nofun opposed c ∧ c.Blocks true false ∧
      ∀ i, ¬ Relation.TransGen c.Blocks i i := by
  have hon : ∀ i, OrderedLock.on (opposed i) = ⟨opposed i, true⟩ := by
    intro i
    have hfirst : OrderedLock.firstAppearances (opposed i) = opposed i := by
      cases i <;> rfl
    have hsorted : ((opposed i).mergeSort fun a b => a.key ≤ b.key) = opposed i :=
      List.mergeSort_of_pairwise (by cases i <;> decide)
    rw [OrderedLock.on, hfirst, hsorted]
    cases i <;> rfl
  obtain ⟨hround, hwait⟩ := @no_circular_wait Bool Nat Empty Unit Unit _ _ nofun
  refine ⟨?_, ?_⟩
  · -- the first list has the first lock before the second one, and the other one the reverse
    have hall := hround 0 (fun i => opposed (i == 0)) (fun i => ⟨i, 5⟩) <| by
      rw [Fin.forall_fin_two]
      refine ⟨?_, ?_⟩
      · show [_, _].Sublist (OrderedLock.on (opposed true)).acquisitions
        rw [hon]
        decide
      · show [_, _].Sublist (OrderedLock.on (opposed false)).acquisitions
        rw [hon]
        decide
    intro i
    cases i with
    | true => exact hall 0
    | false => exact hall 1
  · let taking (i : Bool) : Prog Nat Empty Unit Unit :=
      (OrderedLock.take ⟨opposed i, true⟩ (pure 0)).prog
    let c₀ : Crowd Bool Nat Empty Unit Unit := ⟨World.new (), fun _ => ⟨.run (.ret 0), []⟩⟩
    let c₁ := c₀.put true c₀.world (.start (taking true))
    let c₂ := c₁.put false c₁.world (.start (taking false))
    have hrun : (advance nofun Thread.Any [true, true, true, false] c₂).map
        (fun r => ((r.1.threads true).enters r.1.world, (r.1.threads true).monitors,
          (r.1.threads false).enters r.1.world)) =
        some ([.lock ⟨1, 5⟩], [.lock ⟨0, 5⟩, .tieBreaker], [.tieBreaker]) := by
      decide +kernel
    have htakers : Takers nofun opposed c₂ := by
      have h₀ : Takers nofun (fun _ => []) c₀ := .begin fun _ => ⟨.returned 0, rfl⟩
      have h₁ := h₀.take (i := true) (opposed true) (pure 0) rfl
      rw [hon] at h₁
      have h₂ := h₁.take (i := false) (opposed false) (pure 0) rfl
      rw [hon] at h₂
      have hls : Function.update (Function.update (fun _ => []) true (opposed true)) false
          (opposed false) = opposed := by
        funext i
        cases i <;> rfl
      rw [hls] at h₂
      exact h₂
    obtain ⟨⟨c, es⟩, hadvance, hend⟩ := Option.map_eq_some_iff.1 hrun
    simp only [Prod.mk.injEq] at hend
    obtain ⟨htrue, hin, hfalse⟩ := hend
    have hc : Takers nofun opposed c := htakers.run (.of_advance hadvance)
    refine ⟨c, hc, ⟨by decide, .tieBreaker, ?_, ?_⟩, (hwait opposed c hc).2 ?_⟩
    · rw [hfalse]
      decide
    · rw [hin]
      decide
    · intro i
      cases i with
      | true =>
          rw [htrue, hon]
          decide
      | false =>
          rw [hfalse, hon]
          decide

end Opposed

end ReactiveCells
