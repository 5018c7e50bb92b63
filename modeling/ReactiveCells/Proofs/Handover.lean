import ReactiveCells.Proofs.Crowd
import ReactiveCells.Proofs.Delivery
import ReactiveCells.Proofs.History

/-!
# Handing over — one drain for all threads

A thread that finds a publisher being drained returns at once: what it has queued is left to the
thread that drains. So what one thread knows of a publisher says little, but all threads together
say as much as a single one would. At most one of them has a drain in progress, and the publisher
with the calls due in that drain is a view like any other. Every move of any thread moves this
view, hence the discipline of a publisher holds for it, and with it the contract of delivery.

Main statements: `Shared.move` (what a move of one thread does to the view of all) and
`no_lost_wakeup` (one drain at a time, nothing waits without a drain, nothing is lost).
-/

namespace ReactiveCells

variable {ι V P σ ε : Type}

/-! ## Calls in progress -/

/-- How many calls of observers are in progress in the drains of a publisher. -/
def Frame.observing (p : PublisherRef) : List (Frame V P σ ε) → Nat
  | .observe _ :: .deliver q _ :: st => (if q = p then 1 else 0) + observing p st
  | _ :: st => observing p st
  | [] => 0

/-- A drain calls one observer at a time. -/
theorem Frame.observing_le (p : PublisherRef) (f : Focus V P σ ε) (st : List (Frame V P σ ε)) :
    observing p st ≤ (Thread.due p ⟨f, st⟩).length := by
  fun_induction observing p st with
  | case1 o q calls st ih =>
      rw [Thread.due_cons_of_calls? rfl]
      by_cases hq : q = p
      · subst hq
        rw [Thread.due_cons_deliver_self, if_pos rfl, List.length_cons]
        omega
      · rw [Thread.due_cons_deliver_ne hq, if_neg hq]
        omega
  | case2 fr st _ ih =>
      refine ih.trans ?_
      simp only [Thread.due, List.filterMap_cons]
      split <;> simp
  | case3 => exact Nat.zero_le _

/-! ## The view of all threads -/

namespace View

variable {c₀ : V} {ls : List (Signal V)} {p : PublisherRef} {x x' : View V P σ ε}
  {l : List (Signal V)} {s s' : Publisher V (Observer V P σ ε)}
  {due due' : List (List (Call V (Observer V P σ ε)))} {f f' : Focus V P σ ε}

/-- What is true of a publisher and its observers as long as no panic ends a drain. -/
structure Delivering [BEq V] (c₀ : V) (ls : List (Signal V)) (x : View V P σ ε) : Prop where
  sound : Sound x
  faithful : Faithful c₀ ls x
  inTurn : ∃ n, InTurn c₀ n ls x

variable [BEq V]

theorem delivering_new (guard : Option LockId) (c₀ : V) (f : Focus V P σ ε) :
    Delivering c₀ [] ⟨.new guard c₀, [], f⟩ :=
  ⟨sound_new guard c₀ f, faithful_new guard c₀ f, 0, inTurn_new guard c₀ f⟩

/-- It does not depend on what a thread does next. -/
theorem Delivering.refocus (h : Delivering c₀ ls ⟨s, due, f⟩) (f' : Focus V P σ ε) :
    Delivering c₀ ls ⟨s, due, f'⟩ := by
  obtain ⟨n, hn⟩ := h.inTurn
  exact ⟨⟨h.sound.current, h.sound.lined, h.sound.handed, h.sound.inLine⟩,
    h.faithful.same rfl rfl rfl rfl rfl, n, hn.same rfl rfl rfl rfl⟩

theorem Delivering.move (h : Delivering c₀ ls x) (ho : Single x) (hm : Move p x l x')
    (hkept : x'.focus.Calm ∨ x.due.length ≤ x'.due.length) : Delivering c₀ (ls ++ l) x' := by
  obtain ⟨n, hn⟩ := h.inTurn
  exact ⟨h.sound.kept ho hm hkept, h.faithful.move h.sound ho hm hkept,
    hn.move h.faithful h.sound ho hm hkept⟩

/-- A thread without a drain leaves the drain of another one alone. -/
theorem Move.aside (hm : Move p ⟨s, [], f⟩ l ⟨s', due', f'⟩) (hd : s.draining = true)
    (due : List (List (Call V (Observer V P σ ε)))) :
    due' = [] ∧ Move p ⟨s, due, f⟩ l ⟨s', due, f'⟩ := by
  cases hm with
  | other hf hf' => exact ⟨rfl, .other hf hf'⟩
  | commit hf hc => exact ⟨rfl, .commit hf hc⟩
  | enqueue o hf => exact ⟨rfl, .enqueue o hf⟩
  | start hb =>
      obtain ⟨hrest, -⟩ := Publisher.beginDrain_eq_some hb
      rw [hd] at hrest
      exact nomatch hrest
  | busy hb => exact ⟨rfl, .busy hb⟩
  | detach id hf hf' => exact ⟨rfl, .detach id hf hf'⟩

end View

namespace Crowd

section Led

variable {p : PublisherRef} {due : List (List (Call V (Observer V P σ ε)))}
  {c : Crowd ι V P σ ε} {i : ι} {w : World V P σ ε} {t : Thread V P σ ε}

/-- The calls due to the observers of a publisher are due in a single thread. -/
structure Led (p : PublisherRef) (due : List (List (Call V (Observer V P σ ε))))
    (c : Crowd ι V P σ ε) : Prop where
  all : ∀ i, (c.threads i).due p = [] ∨ (c.threads i).due p = due
  one : ∀ i j, (c.threads i).due p ≠ [] → (c.threads j).due p ≠ [] → i = j
  somebody : due ≠ [] → ∃ i, (c.threads i).due p = due

/-- Next to a thread with all the calls due the others have none. -/
theorem Led.others (h : Led p due c) (hi : (c.threads i).due p = due) {j : ι} (hj : j ≠ i) :
    (c.threads j).due p = [] := by
  by_contra hne
  have hdue : due ≠ [] := by
    rcases h.all j with hnone | hall
    · exact absurd hnone hne
    · exact hall ▸ hne
  exact hj (h.one j i hne (hi ▸ hdue))

variable [DecidableEq ι]

/-- A thread that has all the calls due, or none if none are due, may change them. -/
theorem Led.put (h : Led p due c) (hi : (c.threads i).due p = due) :
    Led p (t.due p) (c.put i w t) := by
  have hnone : ∀ j, j ≠ i → ((c.put i w t).threads j).due p = [] := by
    intro j hj
    rw [threads_put_ne hj]
    exact h.others hi hj
  refine ⟨?_, ?_, fun _ => ⟨i, by rw [threads_put_self]⟩⟩
  · intro j
    by_cases hj : j = i
    · subst hj
      rw [threads_put_self]
      exact Or.inr rfl
    · exact Or.inl (hnone j hj)
  · intro j k hj hk
    have hji : j = i := by
      by_contra hne
      exact hj (hnone j hne)
    have hki : k = i := by
      by_contra hne
      exact hk (hnone k hne)
    rw [hji, hki]

/-- A thread that keeps what is due in it keeps what is due. -/
theorem Led.keep (h : Led p due c) (hi : t.due p = (c.threads i).due p) :
    Led p due (c.put i w t) := by
  have hsame : ∀ j, ((c.put i w t).threads j).due p = (c.threads j).due p :=
    forall_threads_put (q := fun j t => t.due p = (c.threads j).due p) hi fun _ _ => rfl
  refine ⟨?_, ?_, ?_⟩
  · intro j
    rw [hsame]
    exact h.all j
  · intro j k hj hk
    rw [hsame] at hj hk
    exact h.one j k hj hk
  · intro hne
    obtain ⟨j, hj⟩ := h.somebody hne
    exact ⟨j, (hsame j).trans hj⟩

end Led

variable [BEq V] {p : PublisherRef} {c₀ : V} {ls : List (Signal V)}
  {s : Publisher V (Observer V P σ ε)} {due : List (List (Call V (Observer V P σ ε)))}
  {c c' : Crowd ι V P σ ε}

/-- A publisher as all threads together find it. -/
structure Shared (p : PublisherRef) (c₀ : V) (ls : List (Signal V))
    (s : Publisher V (Observer V P σ ε)) (due : List (List (Call V (Observer V P σ ε))))
    (c : Crowd ι V P σ ε) : Prop where
  found : c.world.publisher? p = some s
  led : Led p due c
  /-- What waits in the queue waits for somebody. -/
  awake : s.pending = [] ∨ s.draining = true ∨ ∃ i, (c.threads i).focus = .drain p
  single : ∀ f, View.Single ⟨s, due, f⟩
  delivering : ∀ f, View.Delivering c₀ ls ⟨s, due, f⟩

theorem shared_new {guard : Option LockId} (hp : c.world.publisher? p = some (.new guard c₀))
    (hset : ∀ i, (c.threads i).Settled p) : Shared p c₀ [] (.new guard c₀) [] c := by
  refine ⟨hp, ?_, Or.inl rfl, fun _ => rfl, fun f => View.delivering_new guard c₀ f⟩
  exact ⟨fun i => Or.inl (hset i).due, fun i _ hi => absurd (hset i).due hi,
    fun hne => absurd rfl hne⟩

variable [DecidableEq ι] {body : P → Prog V P σ ε} {i : ι} {es : List (Event V ε)}

/-- A move of one thread that does not give up a drain keeps what all threads find. -/
theorem Shared.move (h : Shared p c₀ ls s due c) (hstep : Step body c i es c')
    (hwhole : ¬ (c.threads i).Breaks p) :
    ∃ s' due', Shared p c₀ (ls ++ signals p es) s' due' c' := by
  cases hstep with
  | @mk w t hfree hm =>
      obtain ⟨s', hs', hv⟩ := hm.view h.found
      have hkept := hm.kept hwhole
      -- the view of the thread that moves is that of all, but for a drain of another thread
      have hall : ∃ due', Led p due' (c.put i w t) ∧
          View.Move p ⟨s, due, (c.threads i).focus⟩ (signals p es) ⟨s', due', t.focus⟩ ∧
          (t.focus.Calm ∨ due.length ≤ due'.length) := by
        by_cases hi : (c.threads i).due p = due
        · rw [Thread.view, hi] at hv
          rw [hi] at hkept
          exact ⟨t.due p, h.led.put hi, hv, hkept⟩
        · have hnone : (c.threads i).due p = [] := (h.led.all i).resolve_right hi
          rw [Thread.view, hnone] at hv
          have hdraining : s.draining = true := by
            have hsome : due ≠ [] := fun he => hi (hnone.trans he.symm)
            obtain ⟨calls, due₁, hdue⟩ := List.exists_cons_of_ne_nil hsome
            exact ((h.single t.focus).only hdue).1
          obtain ⟨hsame, hv'⟩ := hv.aside hdraining due
          exact ⟨due, h.led.keep (hsame.trans hnone.symm), hv', Or.inr (Nat.le_refl _)⟩
      obtain ⟨due', hled, hmove, hkept'⟩ := hall
      have hsingle : View.Single ⟨s', due', t.focus⟩ := (h.single _).move hmove
      have hdel := (h.delivering _).move (h.single _) hmove hkept'
      refine ⟨s', due', hs', hled, ?_, fun _ => hsingle, hdel.refocus⟩
      rcases (h.single _).awake hmove with (hq | hd | hf) | ⟨hf, hq, hsame⟩
      · exact Or.inl hq
      · exact Or.inr (Or.inl hd)
      · exact Or.inr (Or.inr ⟨i, by rw [threads_put_self]; exact hf⟩)
      · -- the thread that moves has nothing to do with what waits
        rcases h.awake with hold | hd | ⟨j, hj⟩
        · exact absurd hold hq
        · exact Or.inr (Or.inl (hsame.trans hd))
        · have hji : j ≠ i := by
            rintro rfl
            exact hf hj
          exact Or.inr (Or.inr ⟨j, by rw [threads_put_ne hji]; exact hj⟩)

/-- A thread that starts a program leaves all as it is. -/
theorem Shared.next {o : Outcome V} (h : Shared p c₀ ls s due c)
    (hend : (c.threads i).outcome? = some o) (b : Prog V P σ ε) :
    Shared p c₀ ls s due (c.put i c.world (.start b)) := by
  have hset : (c.threads i).Settled p := Thread.settled_of_outcome hend
  refine ⟨h.found, h.led.keep hset.due.symm, ?_, h.single, h.delivering⟩
  rcases h.awake with hq | hd | ⟨j, hj⟩
  · exact Or.inl hq
  · exact Or.inr (Or.inl hd)
  · have hji : j ≠ i := by
      rintro rfl
      exact hset.focus hj
    exact Or.inr (Or.inr ⟨j, by rw [threads_put_ne hji]; exact hj⟩)

/-- As long as no drain is given up, all threads together find a publisher in order. -/
theorem Shared.run {starts : Prog V P σ ε → Prop} {c₁ : Crowd ι V P σ ε}
    (h : Shared p c₀ [] s due c₁) (hrun : Run body starts (fun t => ¬ t.Breaks p) c₁ es c) :
    ∃ s' due', Shared p c₀ (signals p es) s' due' c := by
  induction hrun with
  | refl => exact ⟨s, due, h⟩
  | step _ hwhole hstep ih =>
      obtain ⟨s₁, due₁, h₁⟩ := ih
      rw [signals_append]
      exact h₁.move hstep hwhole
  | next _ hend _ ih =>
      obtain ⟨s₁, due₁, h₁⟩ := ih
      exact ⟨s₁, due₁, h₁.next hend _⟩

end Crowd

section Main

variable [DecidableEq ι] [BEq V] {body : P → Prog V P σ ε} {starts : Prog V P σ ε → Prop}
  {p : PublisherRef} {guard : Option LockId} {v₀ : V} {c₀ c : Crowd ι V P σ ε}
  {es : List (Event V ε)}

/-- However threads take turns once a publisher is made, as long as no drain of it is given up by a
panic, at most one drain is in progress in all threads together, and so is at most one call of an
observer. If something waits in the queue, some thread drains or is about to begin. Observers
receive the values held since they subscribed, once and in order. And when no thread drains or is
about to, nothing waits, the value delivered last is the value held, and everybody who was not
removed has received everything. -/
theorem no_lost_wakeup (hp : c₀.world.publisher? p = some (.new guard v₀))
    (hset : ∀ i, (c₀.threads i).Settled p)
    (h : Crowd.Run body starts (fun t => ¬ t.Breaks p) c₀ es c) :
    ∃ s, c.world.publisher? p = some s ∧
      (∀ i, ((c.threads i).due p).length ≤ 1 ∧ Frame.observing p (c.threads i).stack ≤ 1) ∧
      (∀ i j, (c.threads i).due p ≠ [] → (c.threads j).due p ≠ [] → i = j) ∧
      (∀ i j, 0 < Frame.observing p (c.threads i).stack →
        0 < Frame.observing p (c.threads j).stack → i = j) ∧
      (s.pending ≠ [] → ∃ i, (c.threads i).due p ≠ [] ∨ (c.threads i).focus = .drain p) ∧
      Exact v₀ (signals p es) ∧
      ((∀ i, (c.threads i).Settled p) →
        s.pending = [] ∧ s.draining = false ∧ s.delivered = s.current ∧
          ∀ id ∈ subscribed (signals p es), .detached id ∉ signals p es →
            received id (signals p es) =
              (v₀ :: commits (signals p es)).drop (startOf id (signals p es)) ∧
            (received id (signals p es)).getLast? = some s.current) := by
  obtain ⟨s, due, hs⟩ := (Crowd.shared_new hp hset).run h
  have hone : due.length ≤ 1 := by
    have hsingle := hs.single (.drain p)
    simp only [View.Single] at hsingle
    split at hsingle <;> omega
  have hdue : ∀ i, ((c.threads i).due p).length ≤ 1 := by
    intro i
    rcases hs.led.all i with hnone | hall
    · rw [hnone]
      exact Nat.zero_le _
    · rw [hall]
      exact hone
  have hobs : ∀ i, Frame.observing p (c.threads i).stack ≤ ((c.threads i).due p).length :=
    fun i => Frame.observing_le p (c.threads i).focus _
  have hdrains : ∀ i, 0 < Frame.observing p (c.threads i).stack → (c.threads i).due p ≠ [] := by
    intro i hi
    exact List.ne_nil_of_length_pos (Nat.lt_of_lt_of_le hi (hobs i))
  obtain ⟨n, hn⟩ := (hs.delivering (.drain p)).inTurn
  refine ⟨s, hs.found, fun i => ⟨hdue i, (hobs i).trans (hdue i)⟩, hs.led.one,
    fun i j hi hj => hs.led.one i j (hdrains i hi) (hdrains j hj), ?_,
    hn.exact (hs.delivering _).faithful, ?_⟩
  · intro hq
    rcases hs.awake with hnone | hd | ⟨i, hi⟩
    · exact absurd hnone hq
    · have hne : due ≠ [] := by
        intro he
        have hrest := (hs.single (.drain p)).resting he
        rw [hd] at hrest
        exact Bool.noConfusion hrest
      obtain ⟨i, hi⟩ := hs.led.somebody hne
      exact ⟨i, Or.inl (hi ▸ hne)⟩
    · exact ⟨i, Or.inr hi⟩
  · intro hend
    have hnone : due = [] := by
      by_contra hne
      obtain ⟨i, hi⟩ := hs.led.somebody hne
      exact hne (hi ▸ (hend i).due)
    have hdraining : s.draining = false := (hs.single (.drain p)).resting hnone
    have hq : s.pending = [] := by
      rcases hs.awake with hq | hd | ⟨i, hi⟩
      · exact hq
      · rw [hdraining] at hd
        exact Bool.noConfusion hd
      · exact absurd hi (hend i).focus
    subst hnone
    have hdel := hs.delivering (.drain p)
    refine ⟨hq, hdraining, ?_, fun id hid hdet => ?_⟩
    · have hcur := hdel.sound.current
      rw [Publisher.timeline_eq, Publisher.changes_of_empty hq] at hcur
      exact Option.some.inj hcur
    · exact hdel.faithful.all_received hdel.sound rfl hq hid hdet

end Main

/-- Two threads of a publisher: one subscribes an observer that does nothing and then writes 1, the
other one writes 2. -/
def writers : Bool → Prog Nat Empty Unit Unit
  | true => .attach ⟨0⟩ [] .ret fun _ => .publish ⟨0⟩ 1 (.ret 0)
  | false => .publish ⟨0⟩ 2 (.ret 0)

/-- The second thread writes while the first one delivers, and comes back before its value is
delivered. The first one delivers it, and in the end the observer has received all three values. -/
theorem no_lost_wakeup_writers :
    ∃ (c₀ c₁ c₂ : Crowd Bool Nat Empty Unit Unit) (es₁ es₂ : List (Event Nat Unit)),
      Crowd.Run nofun (fun _ => False) (fun t => ¬ t.Breaks ⟨0⟩) c₀ es₁ c₁ ∧
      Crowd.Run nofun (fun _ => False) (fun t => ¬ t.Breaks ⟨0⟩) c₁ es₂ c₂ ∧
      (c₁.threads false).outcome? = some (.returned 0) ∧
      received 0 (signals ⟨0⟩ es₁) = [0] ∧
      (∃ i, (c₁.threads i).due ⟨0⟩ ≠ [] ∨ (c₁.threads i).focus = .drain ⟨0⟩) ∧
      received 0 (signals ⟨0⟩ (es₁ ++ es₂)) = [0, 2, 1] ∧
      ∃ s, c₂.world.publisher? ⟨0⟩ = some s ∧ s.pending = [] ∧
        (received 0 (signals ⟨0⟩ (es₁ ++ es₂))).getLast? = some s.current := by
  let c₀ : Crowd Bool Nat Empty Unit Unit :=
    ⟨{ World.new () with publishers := .alloc .empty (.new none 0) }, fun i => .start (writers i)⟩
  let whole (t : Thread Nat Empty Unit Unit) : Prop := ¬ t.Breaks ⟨0⟩
  have hp : c₀.world.publisher? ⟨0⟩ = some (.new none 0) := rfl
  have hset : ∀ i, (c₀.threads i).Settled ⟨0⟩ := fun i => Thread.settled_start _ _
  have hrun : ((Crowd.advance nofun whole
      [true, true, true, true, false, false, false] c₀).bind fun (c₁, es₁) =>
        (Crowd.advance nofun whole (List.replicate 13 true) c₁).map fun (c₂, es₂) => decide (
          (c₁.threads false).outcome? = some (.returned 0) ∧ received 0 (signals ⟨0⟩ es₁) = [0] ∧
          (c₁.world.publisher? ⟨0⟩).map (fun s => s.changes) = some [2] ∧
          (∀ i, (c₂.threads i).outcome? = some (.returned 0)) ∧
          received 0 (signals ⟨0⟩ (es₁ ++ es₂)) = [0, 2, 1] ∧
          0 ∈ subscribed (signals ⟨0⟩ (es₁ ++ es₂)) ∧
          .detached 0 ∉ signals ⟨0⟩ (es₁ ++ es₂))) = some true := by
    decide +kernel
  obtain ⟨⟨c₁, es₁⟩, hfirst, hrun⟩ := Option.bind_eq_some_iff.1 hrun
  obtain ⟨⟨c₂, es₂⟩, hsecond, hend⟩ := Option.map_eq_some_iff.1 hrun
  obtain ⟨hback, hrec₁, hwaits, hended, hrec₂, hsub, hdet⟩ := decide_eq_true_eq.mp hend
  have h₁ : Crowd.Run nofun (fun _ => False) whole c₀ es₁ c₁ := .of_advance hfirst
  have h₂ : Crowd.Run nofun (fun _ => False) whole c₁ es₂ c₂ := .of_advance hsecond
  refine ⟨c₀, c₁, c₂, es₁, es₂, h₁, h₂, hback, hrec₁, ?_, hrec₂, ?_⟩
  · obtain ⟨s, hs, -, -, -, hawake, -⟩ := no_lost_wakeup hp hset h₁
    refine hawake ?_
    intro hq
    rw [hs, Option.map_some, Publisher.changes_of_empty hq] at hwaits
    exact nomatch Option.some.inj hwaits
  · obtain ⟨s, hs, -, -, -, -, -, hdone⟩ := no_lost_wakeup hp hset (h₁.trans h₂)
    obtain ⟨hq, -, -, hall⟩ := hdone fun i => Thread.settled_of_outcome (hended i)
    exact ⟨s, hs, hq, (hall 0 hsub hdet).2⟩

end ReactiveCells
