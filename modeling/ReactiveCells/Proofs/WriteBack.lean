import ReactiveCells.Proofs.Conservation
import ReactiveCells.Proofs.Mirroring
import ReactiveCells.Proofs.Through

/-!
# Writing back — a closed breaker in the place of a box

The observers of a box may write to it in reaction to a value. With a closed breaker in the place of
the box they write to the breaker, and every write goes on to the delegate, which hands it back to
the copy. As long as the delegate is told of the write that the copy made last, nothing comes of
that (`Breaker.Alone.echo`), so the breaker's copy and the box go through the same states.

The outermost write is the exception. It is passed on when the copy has been drained, and by then
the copy may hold what an observer has written back: the delegate hands the copy the value written
first, which takes the place of the one written last.

Main statement: `closed_breaker_writes_back`.
-/

namespace ReactiveCells

variable {V P σ ε : Type}

/-! ## What a box lends itself to -/

/-- What programs that use the copy of a breaker as a box have no use for: the delegate, and what is
the breaker's own. -/
def Breaker.beyond (b : Breaker) (d : PublisherRef) : Scope :=
  {.read d, .publish d, .amend d, .amend b.copy, .bag b.coupling}

/-- A state in which a box is used that is the copy of a closed breaker in another world: programs
read it, write it and subscribe to it, and have no use for the delegate. -/
structure Alongside [BEq V] (body : P → Prog V P σ ε) (b : Breaker) (d : PublisherRef)
    (T : Terms V P σ ε) (s : Publisher V (Observer V P σ ε)) (w : World V P σ ε)
    (t : Thread V P σ ε) : Prop where
  world : w.Within T.plain (fun _ _ => False) (b.beyond d)
  bodies : ∀ c, (body c).Within T.plain (w.scope (b.beyond d))
  focus : t.focus.Within T.plain (w.scope (b.beyond d))
  stack : ∀ fr ∈ t.stack, fr.Within T.plain (fun _ _ => False) (w.scope (b.beyond d))
  copy : Intact b.copy s w t
  settled : t.Settled d
  delegate : ∃ q, w.publisher? d = some q
  closed : ∃ ss, w.bags.get? b.coupling.index = some ss ∧ ss ≠ []

/-- A delegate at rest that forwards to the copy and has no other observer. -/
structure Breaker.Alone (b : Breaker) (id : Nat) (q : Publisher V (Observer V P σ ε)) : Prop where
  observers : ∃ keeps, q.observers = [⟨id, ⟨b.forward, keeps⟩⟩]
  pending : q.pending = []
  draining : q.draining = false

section Alongside

variable [BEq V] {body : P → Prog V P σ ε} {b : Breaker} {d : PublisherRef} {T : Terms V P σ ε}
  {s : Publisher V (Observer V P σ ε)} {w w' : World V P σ ε} {t t' : Thread V P σ ε}
  {es : List (Event V ε)}

omit [BEq V] in
theorem Breaker.notMem_beyond {u : Use} (hu : u ∈ b.beyond d) : u ∉ w.scope (b.beyond d) :=
  fun h => h.2 hu

omit [BEq V] in
theorem Breaker.delegate_beyond :
    .read d ∈ b.beyond d ∧ .publish d ∈ b.beyond d ∧ .amend d ∈ b.beyond d :=
  ⟨Or.inl rfl, Or.inr (Or.inl rfl), Or.inr (Or.inr (Or.inl rfl))⟩

/-- The box stays one that is used as such, and is written by writes only. -/
theorem Alongside.move (h : Alongside body b d T s w t) (hm : Thread.Moves body w t es w' t') :
    ∃ s', Alongside body b d T s' w' t' ∧
      ((∀ v k, t.focus ≠ .run (.publish b.copy v k)) → s'.current = s.current) := by
  obtain ⟨hread, hpublish, hamend⟩ := Breaker.delegate_beyond (b := b) (d := d)
  have htop : t.focus.Reaches → ∀ fr ∈ t.stack.head?,
      fr.Within T.plain (fun _ _ => False) (w.scope (b.beyond d)) :=
    fun _ fr hfr => h.stack fr (List.mem_of_mem_head? hfr)
  obtain ⟨hgrow, hworld, hstack, hfocus⟩ :=
    hm.within h.bodies h.world htop h.focus fun _ _ _ hspecial => hspecial
  obtain ⟨s', hs', hv⟩ := h.copy.move hm
  obtain ⟨q, hq⟩ := h.delegate
  obtain ⟨q', hq', -⟩ := hm.view hq
  obtain ⟨ss, hss, hne⟩ := h.closed
  have hbag : ∀ f k, t.focus ≠ .run (.atom (.bag b.coupling f) k) := by
    intro f k hf
    have hin := h.focus
    rw [hf] at hin
    cases hin with
    | atom _ hneeds _ =>
        exact Breaker.notMem_beyond (Or.inr (Or.inr (Or.inr (Or.inr rfl)))) (hneeds rfl)
    | special h => exact h.elim
  refine ⟨s', ⟨hworld, fun c => (h.bodies c).mono hgrow.scope, ?_, ?_, hs', ?_, ⟨q', hq'⟩,
    ⟨ss, hm.bag_eq hss hbag, hne⟩⟩, ?_⟩
  · exact hfocus.resolve_right fun ⟨_, _, _, _, _, _, hno, _⟩ => hno
  · intro fr hfr
    exact (hstack fr hfr).elim (fun hold => (h.stack fr hold).mono hgrow.scope) id
  · exact hm.settled hq h.settled h.focus htop (Breaker.notMem_beyond hread)
      (Breaker.notMem_beyond hpublish) (Breaker.notMem_beyond hamend)
  · intro hwrite
    refine hv.current_eq fun v hcommit => ?_
    cases hm.writes hcommit with
    | publish k st => exact hwrite v k rfl
    | commit st =>
        exact Breaker.notMem_beyond (Or.inr (Or.inr (Or.inr (Or.inl rfl))))
          (h.stack _ List.mem_cons_self)

theorem Alongside.run {ok : Thread V P σ ε → Prop} (h : Alongside body b d T s w t)
    (hrun : Run body (fun _ => False) ok w t es w' t') : ∃ s', Alongside body b d T s' w' t' := by
  induction hrun with
  | refl => exact ⟨s, h⟩
  | step _ hstep _ ih =>
      obtain ⟨s₁, h₁⟩ := ih
      obtain ⟨s', h', -⟩ := h₁.move (Thread.moves_iff.2 hstep)
      exact ⟨s', h'⟩
  | next _ _ hc => exact hc.elim

end Alongside

/-! ## The delegate hands back what it is told -/

section Echo

variable [BEq V] [LawfulBEq V] {body : P → Prog V P σ ε} {b : Breaker}
  {n : Node (Routine V P σ ε) .reactive} {d : PublisherRef} {id : Nat}
  {q q₀ s : Publisher V (Observer V P σ ε)} {w : World V P σ ε}

omit [BEq V] [LawfulBEq V] in
theorem World.behind_leaveAll (ms : List Monitor) :
    (w.behind b n d q).leaveAll ms = (w.leaveAll ms).behind b n d q := by
  induction ms generalizing w with
  | nil => rfl
  | cons m ms ih => exact ih (w := w.leave m)

/-- A delegate that is told a new value hands it to the copy. -/
theorem Breaker.Alone.forwards (body : P → Prog V P σ ε) (hq : b.Alone id q)
    (hd : w.publisher? d = some q₀) {v : V} (hv : q.current ≠ v) (k : Prog V P σ ε) (st : List (Frame V P σ ε)) :
    ∃ es q' o, CalmRun body (w.behind b n d q) ⟨.run (.publish d v k), st⟩ es
        ((w.enterAll q.monitors).behind b n d q')
        ⟨.run (b.forward v), .observe o :: .deliver d [] :: q.leaving ++
          .resume (fun _ => k) :: st⟩ ∧
      (∀ p, p ≠ d → signals p es = []) ∧ q'.pop = none ∧ b.Alone id q'.endDrain ∧
      q'.current = v := by
  obtain ⟨⟨keeps, hobs⟩, hpending, hdraining⟩ := hq
  have hd' : (w.enterAll q.monitors).publisher? d = some q₀ :=
    (World.publisher?_enterAll _).trans hd
  let q₁ : Publisher V (Observer V P σ ε) := { q with current := v, pending := [.emit v] }
  let q₂ : Publisher V (Observer V P σ ε) := { q₁ with draining := true }
  let q₃ : Publisher V (Observer V P σ ε) := { q₂ with delivered := v, pending := [] }
  have hcommit : q.commit v = some q₁ := by
    rw [Publisher.commit, if_neg (by simpa using hv), hpending]
    rfl
  have hbegin : q₁.beginDrain = some q₂ := if_neg (by simpa using hdraining)
  have hpop : q₂.pop = some (.round [⟨id, v, ⟨b.forward, keeps⟩⟩], q₃) := by
    show some (Delivery.round (q.observers.map _), q₃) = _
    rw [hobs]
    rfl
  have hpublished : Thread.Moves body (w.behind b n d q) ⟨.run (.publish d v k), st⟩ _ _ _ :=
    .published (World.behind_delegate hd) hcommit
  rw [← World.behind_enterAll, World.behind_setPublisher_delegate] at hpublished
  have hdrain : Thread.Moves body ((w.enterAll q.monitors).behind b n d q₁)
      ⟨.drain d, q.leaving ++ .resume (fun _ => k) :: st⟩ _ _ _ :=
    .draining (World.behind_delegate hd') hbegin
  rw [World.behind_setPublisher_delegate] at hdrain
  have htake : Thread.Moves body ((w.enterAll q.monitors).behind b n d q₂)
      ⟨.run (.ret v), .deliver d [] :: q.leaving ++ .resume (fun _ => k) :: st⟩ _ _ _ :=
    .popped (World.behind_delegate hd') hpop
  rw [World.behind_setPublisher_delegate] at htake
  refine ⟨_, q₃, ⟨b.forward, keeps⟩, .cons hpublished.step trivial (.cons hdrain.step trivial
    (.cons htake.step trivial (.single (Thread.moves_iff.1 .called) trivial))), ?_, rfl,
    ⟨⟨keeps, hobs⟩, rfl, rfl⟩, rfl⟩
  intro p hp
  simp [Delivery.report, hp.symm]

/-- A delegate that is told what the copy holds already leaves everything else as it is. -/
theorem Breaker.Alone.echo (body : P → Prog V P σ ε) (hq : b.Alone id q)
    (hd : w.publisher? d = some q₀) (hne : d ≠ b.copy)
    (hs : w.publisher? b.copy = some s) (k : Prog V P σ ε) (st : List (Frame V P σ ε)) :
    ∃ es q', CalmRun body (w.behind b n d q) ⟨.run (.publish d s.current k), st⟩ es
        (w.behind b n d q') ⟨.run k, st⟩ ∧
      signals b.copy es = [] ∧ b.Alone id q' ∧ q'.current = s.current := by
  by_cases hv : q.current = s.current
  · have hsame : q.commit s.current = none :=
      (q.commit_eq_none_iff _).2 (by rw [hv]; exact beq_self_eq_true _)
    have hleave := leave_run body ((w.behind b n d q).enterAll q.monitors) q.current q.monitors
      (.resume (fun _ => k) :: st)
    rw [World.leaveAll_enterAll] at hleave
    refine ⟨_, q, .cons (Thread.moves_iff.1 (.publishedSame (World.behind_delegate hd) hsame))
      trivial (hleave.trans (.single (Thread.moves_iff.1 .resumed) trivial)), rfl, hq, hv⟩
  · obtain ⟨es, q', o, hrun, hes, hpop, halone, hcur⟩ :=
      hq.forwards (n := n) body hd hv k st
    -- the copy is written what it holds, and the delegate finds its queue empty
    have hs' : ((w.enterAll q.monitors).behind b n d q').publisher? b.copy =
        some (s.map (Observer.through b n)) := by
      rw [World.behind_publisher? hne.symm, World.publisher?_enterAll, hs]
      rfl
    have hsame : (s.map (Observer.through b n)).commit s.current = none :=
      (Publisher.commit_eq_none_iff _ _).2 (beq_self_eq_true s.current)
    have hwrite : CalmRun body ((w.enterAll q.monitors).behind b n d q')
        ⟨.run (b.forward s.current), .observe o :: .deliver d [] :: q.leaving ++
          .resume (fun _ => k) :: st⟩ [] ((w.enterAll q.monitors).behind b n d q')
        ⟨.run (.ret s.current), .observe o :: .deliver d [] :: q.leaving ++
          .resume (fun _ => k) :: st⟩ := by
      have hleave := leave_run body (((w.enterAll q.monitors).behind b n d q').enterAll s.monitors)
        s.current s.monitors (.resume (fun _ => .ret s.current) ::
          .observe o :: .deliver d [] :: q.leaving ++ .resume (fun _ => k) :: st)
      rw [World.leaveAll_enterAll] at hleave
      exact .cons (Thread.moves_iff.1 (.publishedSame hs' hsame)) trivial
        (hleave.trans (.single (Thread.moves_iff.1 .resumed) trivial))
    have hend : Thread.Moves body ((w.enterAll q.monitors).behind b n d q')
        ⟨.run (.ret s.current), .deliver d [] :: q.leaving ++ .resume (fun _ => k) :: st⟩ _ _ _ :=
      .drained (World.behind_delegate ((World.publisher?_enterAll q.monitors).trans hd)) hpop
    rw [World.behind_setPublisher_delegate] at hend
    have hleave := leave_run body ((w.enterAll q.monitors).behind b n d q'.endDrain) q'.current
      q.monitors (.resume (fun _ => k) :: st)
    rw [World.behind_leaveAll, World.leaveAll_enterAll] at hleave
    refine ⟨_, q'.endDrain, hrun.trans (hwrite.trans (.cons (Thread.moves_iff.1 .observed) trivial
      (.cons hend.step trivial (hleave.trans (.single (Thread.moves_iff.1 .resumed) trivial))))),
      ?_, halone, hcur⟩
    simp [hes b.copy hne.symm]

end Echo

/-! ## Side by side -/

/-- The frames that wait for the end of a write: the monitors are left, and a program goes on. -/
def Publisher.onward {O : Type} (r : Publisher V O) (k : Prog V P σ ε) : List (Frame V P σ ε) :=
  r.leaving ++ [.resume fun _ => k]

/-- How far a write of `x` to a closed breaker has got: the same write to a box, that was the copy
of the breaker in `w₀`, has got as far. -/
inductive Abreast [BEq V] (body : P → Prog V P σ ε) (b : Breaker)
    (n : Node (Routine V P σ ε) .reactive) (d : PublisherRef) (T : Terms V P σ ε) (id : Nat)
    (x v : V) (w₀ : World V P σ ε) (r : Publisher V (Observer V P σ ε)) :
    List (Event V ε) → World V P σ ε → Thread V P σ ε → Prop where
  /-- The copy is being drained. The delegate holds what the copy holds, or the copy still holds
  what the delegate will be told in the end. -/
  | midway {es es' : List (Event V ε)} {w : World V P σ ε} {t : Thread V P σ ε}
      {s q : Publisher V (Observer V P σ ε)} {calls : List (Call V (Observer V P σ ε))} :
      AnyRun body w₀ (.start (.publish b.copy x (.ret v))) es w
        ((t.over [.deliver b.copy calls]).over (r.onward (.ret v))) →
      Alongside body b d T s w
        ((t.over [.deliver b.copy calls]).over (r.onward (.ret v))) →
      b.Alone id q → (s.current = x ∨ q.current = s.current) →
      signals b.copy es' = signals b.copy es →
      Abreast body b n d T id x v w₀ r es' (w.behind b n d q)
        (((t.over [.deliver b.copy calls]).through b n).over
          (r.onward (b.pass d x (.ret v))))
  /-- Both have ended in the same way. -/
  | agreed {es es' : List (Event V ε)} {w : World V P σ ε}
      {s q : Publisher V (Observer V P σ ε)} :
      AnyRun body w₀ (.start (.publish b.copy x (.ret v))) es w ⟨.run (.ret v), []⟩ →
      w.publisher? b.copy = some s → s.current = x → b.Alone id q → q.current = x →
      signals b.copy es' = signals b.copy es →
      Abreast body b n d T id x v w₀ r es' (w.behind b n d q) ⟨.run (.ret v), []⟩
  /-- The box is left with a value that was written back, the copy of the breaker has been written
  once more. -/
  | overwritten {es es' : List (Event V ε)} {w w' : World V P σ ε} {t' : Thread V P σ ε}
      {s : Publisher V (Observer V P σ ε)} {l : List (Signal V)} :
      AnyRun body w₀ (.start (.publish b.copy x (.ret v))) es w ⟨.run (.ret v), []⟩ →
      w.publisher? b.copy = some s → s.current ≠ x →
      signals b.copy es' = signals b.copy es ++ .committed x :: l →
      Abreast body b n d T id x v w₀ r es' w' t'
  /-- A panic will end the write. -/
  | doomed {es' w' text st} : (∀ fr ∈ st, (∃ m, fr = .leave m) ∨ ∃ k, fr = .resume k) →
      Abreast body b n d T id x v w₀ r es' w' ⟨.unwind text, st⟩
  /-- The forwarding subscription has been taken away. -/
  | released {es' w' t'} : .detached id ∈ signals d es' → Abreast body b n d T id x v w₀ r es' w' t'

section Stages

variable [BEq V] [LawfulBEq V] {body : P → Prog V P σ ε} {b : Breaker}
  {n : Node (Routine V P σ ε) .reactive} {d : PublisherRef} {T : Terms V P σ ε} {id : Nat}
  {x v y : V} {q q₀ s r : Publisher V (Observer V P σ ε)} {w w' w₀ : World V P σ ε}
  {t t' : Thread V P σ ε} {es es' : List (Event V ε)} {st : List (Frame V P σ ε)} {k : Prog V P σ ε}

omit [BEq V] [LawfulBEq V] in
theorem World.behind_copy (hne : d ≠ b.copy) (hs : w.publisher? b.copy = some s) :
    (w.behind b n d q).publisher? b.copy = some (s.map (Observer.through b n)) := by
  rw [World.behind_publisher? hne.symm, hs]
  rfl

/-- Passing on what the copy holds leaves everything but the delegate as it is. -/
theorem Breaker.Alone.passes (hq : b.Alone id q) (h : Alongside body b d T s w t)
    (hne : d ≠ b.copy) (body' : P → Prog V P σ ε) (k : Prog V P σ ε) (st : List (Frame V P σ ε)) :
    ∃ es q', CalmRun body' (w.behind b n d q) ⟨.run (b.pass d s.current k), st⟩ es
        (w.behind b n d q') ⟨.run k, st⟩ ∧
      signals b.copy es = [] ∧ b.Alone id q' ∧ q'.current = s.current := by
  obtain ⟨ss, hss, hclosed⟩ := h.closed
  obtain ⟨q₀, hd⟩ := h.delegate
  obtain ⟨es, q', hrun, hes, hq', hcur⟩ := hq.echo (n := n) body' hd hne h.copy.found k st
  have hask := Breaker.asks body' (w := w.behind b n d q) hss
    (fun ss : List SubscriptionRef => if !ss.isEmpty then .publish d s.current k else k) st
  rw [if_pos (Breaker.coupled_of_ne_nil hclosed)] at hask
  exact ⟨_, q', .cons hask.step trivial hrun, hes, hq', hcur⟩

/-- A write in the middle of a drain of the copy comes to the same in both worlds. -/
theorem Alongside.write (h : Alongside body b d T s w ⟨.run (.publish b.copy y k), st⟩)
    (hn : n.IsBox d) (hne : d ≠ b.copy) (hdrain : s.draining = true) (hq : b.Alone id q)
    (body' : P → Prog V P σ ε) (st' : List (Frame V P σ ε)) :
    ∃ es w' s', CalmRun body w ⟨.run (.publish b.copy y k), st⟩ es w' ⟨.run k, st⟩ ∧
      Alongside body b d T s' w' ⟨.run k, st⟩ ∧
      ∃ es₁ w₁ t₁ es₂ q',
        Thread.Moves body' (w.behind b n d q)
          ⟨.run ((Prog.publish b.copy y k).through b n), st'⟩ es₁ w₁ t₁ ∧
        CalmRun body' w₁ t₁ es₂ (w'.behind b n d q') ⟨.run (k.through b n), st'⟩ ∧
        signals b.copy (es₁ ++ es₂) = signals b.copy es ∧ b.Alone id q' ∧
        q'.current = s'.current := by
  have hthrough : (Prog.publish b.copy y k).through b n =
      .publish b.copy y (b.pass d y (k.through b n)) := by
    rw [Prog.through, if_pos rfl, Breaker.set_eq hn]
  have hcommit := s.map_commit (Observer.through b n) y
  have hwrite' := write_draining body' (World.behind_copy (n := n) (q := q) hne h.copy.found) hdrain
    y (b.pass d y (k.through b n)) st'
  rcases write_draining body h.copy.found hdrain y k st with
    ⟨hc, w₁, t₁, hm, hcalm, hrun⟩ | ⟨s', hc, w₁, t₁, hm, hcalm, hrun⟩
  · obtain ⟨-, w₂, t₂, hm', -, hrun'⟩ := hwrite'.resolve_right (by
      rintro ⟨s', hc', -⟩
      rw [hcommit, hc] at hc'
      exact absurd hc'.symm (Option.some_ne_none s'))
    obtain ⟨s', h'⟩ := h.run (.cons hm.step hcalm hrun)
    obtain rfl := Option.some.inj (h.copy.found.symm.trans h'.copy.found)
    have hy : s.current = y := eq_of_beq ((Publisher.commit_eq_none_iff s y).1 hc)
    obtain ⟨es₂, q', hpass, hes₂, hq', hcur⟩ :=
      hq.passes (n := n) h' hne body' (k.through b n) st'
    rw [hy] at hpass
    rw [hthrough]
    refine ⟨_, w, s, .cons hm.step hcalm hrun, h', _, w₂, t₂, _, q', hm', hrun'.trans hpass, ?_, hq',
      hcur⟩
    rw [signals_append, List.nil_append, hes₂, List.append_nil, List.append_nil]
  · obtain ⟨s'', hc', w₂, t₂, hm', -, hrun'⟩ := hwrite'.resolve_left (by
      rintro ⟨hc', -⟩
      rw [hcommit, hc] at hc'
      exact absurd hc' (Option.some_ne_none _))
    rw [hcommit, hc] at hc'
    obtain rfl := Option.some.inj hc'
    rw [← World.behind_setPublisher hne.symm] at hrun'
    obtain ⟨s'', h'⟩ := h.run (.cons hm.step hcalm hrun)
    obtain rfl := Option.some.inj
      ((World.publisher?_setPublisher_self h.copy.found).symm.trans h'.copy.found)
    have hy : s'.current = y := (Publisher.timeline_commit hc).2
    obtain ⟨es₂, q', hpass, hes₂, hq', hcur⟩ :=
      hq.passes (n := n) h' hne body' (k.through b n) st'
    rw [hy] at hpass
    rw [hthrough]
    refine ⟨_, _, s', .cons hm.step hcalm hrun, h', _, w₂, t₂, _, q', hm', hrun'.trans hpass, ?_, hq',
      hcur⟩
    rw [signals_append, List.nil_append, hes₂, List.append_nil, List.append_nil]

/-! ## The machine goes from one such state to the next -/

omit [LawfulBEq V] in
theorem onward_run (body : P → Prog V P σ ε) (r : Publisher V (Observer V P σ ε))
    (w : World V P σ ε) (u : V) (k : Prog V P σ ε) :
    CalmRun body w ⟨.run (.ret u), r.onward k⟩ [] (w.leaveAll r.monitors) ⟨.run k, []⟩ :=
  (leave_run body w u r.monitors [.resume fun _ => k]).trans
    (.single (Thread.moves_iff.1 .resumed) trivial)

omit [BEq V] [LawfulBEq V] in
theorem Thread.Settled.of_over {p : PublisherRef} {rest : List (Frame V P σ ε)}
    (h : (t.over rest).Settled p) : t.Settled p := by
  have hdue : t.due p ++ rest.filterMap (Frame.calls? p) = [] := by
    have hall := h.due
    rw [Thread.due, Thread.over, List.filterMap_append] at hall
    exact hall
  exact ⟨h.focus, (List.append_eq_nil_iff.1 hdue).1⟩

omit [LawfulBEq V] in
/-- What is on top of a drain leaves it in progress, or the drain has come to its end. -/
theorem Thread.Moves.over_deliver {p : PublisherRef} {calls : List (Call V (Observer V P σ ε))}
    (hm : Moves body w (t.over [.deliver p calls]) es w' t') :
    (∃ (t₁ : Thread V P σ ε) (calls' : List (Call V (Observer V P σ ε))),
      t' = t₁.over [.deliver p calls']) ∨ (∃ u, t' = ⟨.run (.ret u), []⟩) ∨
      ∃ text, t' = ⟨.unwind text, []⟩ := by
  rcases hm.under with ⟨t₁, rfl, -⟩ | ⟨o, ho⟩
  · exact Or.inl ⟨t₁, calls, rfl⟩
  · rcases Thread.outcome_cases ho with ⟨v, rfl⟩ | ⟨text, rfl⟩
    · cases hm with
      | @called _ _ c calls => exact Or.inl ⟨⟨_, [.observe c.observer]⟩, calls, rfl⟩
      | popped => exact Or.inl ⟨⟨_, []⟩, _, rfl⟩
      | drained => exact Or.inr (Or.inl ⟨_, rfl⟩)
    · cases hm with
      | abandoned => exact Or.inr (Or.inr ⟨_, rfl⟩)
      | passed hfr => exact hfr.elim

omit [BEq V] [LawfulBEq V] in
/-- The delegate of a box is overlooked. -/
theorem World.behind_replaced (q' : Publisher V (Observer V P σ ε)) :
    (w.setPublisher d q').behind b n d q = w.behind b n d q := by
  refine World.behind_congr (w := w) ?_
  show ((w.publishers.set d.index q').map _).set d.index q = _
  rw [Heap.map_set]
  exact congrArg Heap.mk (List.set_set _)

omit [BEq V] [LawfulBEq V] in
/-- Nobody but the forwarding subscription can be taken away from the delegate. -/
theorem Breaker.Alone.detach (hq : b.Alone id q) {i : Nat} (hi : i ≠ id) : q.detach i = q := by
  obtain ⟨⟨keeps, hobs⟩, hpending, -⟩ := hq
  rw [Publisher.detach, hobs, hpending, List.filter_nil,
    List.filter_cons_of_pos (by simpa using hi.symm), List.filter_nil, ← hobs, ← hpending]

omit [LawfulBEq V] in
/-- As long as the copy is not written, the box follows. -/
theorem Alongside.follow {rest : List (Frame V P σ ε)} (h : Alongside body b d T s w (t.over rest))
    (hne : d ≠ b.copy) (hq : b.Alone id q) (hst : t.stack ≠ [])
    (hwrite : ∀ y k, t.focus ≠ .run (.publish b.copy y k)) {w₁ : World V P σ ε}
    {t₁ : Thread V P σ ε}
    (hm : Thread.Moves (fun c => (body c).through b n) (w.behind b n d q) (t.through b n) es w₁ t₁) :
    .detached id ∈ signals d es ∨ ∃ es' w' t', Thread.Moves body w t es' w' t' ∧
      w₁ = w'.behind b n d q ∧ t₁ = t'.through b n ∧ signals b.copy es = signals b.copy es' := by
  obtain ⟨q₀, hd⟩ := h.delegate
  by_cases hdetach : ∃ x k i, t.focus = .run (.dispose x k) ∧ w.Detaches d i x.index
  · obtain ⟨f, st⟩ := t
    obtain ⟨x, k, i, rfl, hx⟩ := hdetach
    have hx' : (w.behind b n d q).subscriptions.get? x.index = some (some (.detach d i)) := by
      refine (Heap.get?_map _ _ _).trans ?_
      rw [show w.subscriptions.get? x.index = _ from hx]
      rfl
    cases hm.step.symm.trans (Thread.Moves.detached hx' (World.behind_delegate hd)).step
    by_cases hi : i = id
    · exact Or.inl (by simp [hi])
    · refine Or.inr ⟨_, _, _, .detached hx hd, ?_, rfl, ?_⟩
      · rw [hq.detach hi, ← World.behind_dispose, World.behind_setPublisher_delegate,
          World.behind_replaced]
      · simp [hne]
  · obtain ⟨hread, hpublish, hamend⟩ := Breaker.delegate_beyond (b := b) (d := d)
    have hstep := hm.step
    rw [step_through (t := t) h.focus h.settled.of_over (Breaker.notMem_beyond hread)
      (Breaker.notMem_beyond hpublish) (Breaker.notMem_beyond hamend) hd hwrite
      (fun x k hf i hi => hdetach ⟨x, k, i, hf, hi⟩)
      fun _ fr hfr => h.stack fr (List.mem_append_left _ (List.mem_of_mem_head? hfr))] at hstep
    obtain ⟨⟨w', t', es'⟩, hplain, heq⟩ := Option.map_eq_some_iff.1 hstep
    cases heq
    exact Or.inr ⟨_, w', t', Thread.moves_iff.2 hplain, rfl, rfl, rfl⟩

/-- When the copy has been drained the value written first is passed on. -/
theorem Abreast.ending
    (hrun : AnyRun body w₀ (.start (.publish b.copy x (.ret v))) es w
      ⟨.run (.ret y), r.onward (.ret v)⟩)
    (h : Alongside body b d T s w ⟨.run (.ret y), r.onward (.ret v)⟩) (hne : d ≠ b.copy)
    (hq : b.Alone id q) (hlink : s.current = x ∨ q.current = s.current)
    (hes : signals b.copy es' = signals b.copy es) {body' : P → Prog V P σ ε} :
    Soon body' (Abreast body b n d T id x v w₀ r) es' (w.behind b n d q)
      ⟨.run (.ret y), r.onward (b.pass d x (.ret v))⟩ := by
  have hback := onward_run body r w y (.ret v)
  have hback' := onward_run body' r (w.behind b n d q) y (b.pass d x (.ret v))
  rw [World.behind_leaveAll] at hback'
  obtain ⟨s', h'⟩ := h.run hback
  obtain rfl := Option.some.inj
    (((World.publisher?_leaveAll r.monitors).trans h.copy.found).symm.trans h'.copy.found)
  have hrun' := hrun.trans hback.any
  rw [List.append_nil] at hrun'
  refine Soon.of_run hback' ?_
  rw [List.append_nil]
  by_cases hx : s.current = x
  · subst hx
    obtain ⟨es₂, q', hpass, hes₂, hq', hcur⟩ := hq.passes (n := n) h' hne body' (.ret v) []
    refine Soon.of_run hpass (.now (.agreed hrun' h'.copy.found rfl hq' hcur ?_))
    rw [signals_append, hes₂, List.append_nil, hes]
  · -- the delegate does not hold what it is told, and hands it on to the copy
    obtain ⟨ss, hss, hclosed⟩ := h'.closed
    obtain ⟨q₀, hd⟩ := h'.delegate
    have hask := Breaker.asks body' (w := (w.leaveAll r.monitors).behind b n d q) hss
      (fun ss : List SubscriptionRef => if !ss.isEmpty then .publish d x (.ret v) else .ret v) []
    rw [if_pos (Breaker.coupled_of_ne_nil hclosed)] at hask
    have hqx : q.current ≠ x := fun he => hx ((hlink.resolve_left hx).symm.trans he)
    obtain ⟨es₂, q', o, hforward, hes₂, -⟩ :=
      hq.forwards (n := n) body' hd hqx (.ret v) []
    have hs' : (((w.leaveAll r.monitors).enterAll q.monitors).behind b n d q').publisher? b.copy =
        some (s.map (Observer.through b n)) :=
      World.behind_copy hne ((World.publisher?_enterAll _).trans h'.copy.found)
    have hcommit : (s.map (Observer.through b n)).commit x = some _ :=
      if_neg (by simpa [Publisher.map] using hx)
    refine Soon.after hask (Soon.of_run hforward (Soon.after (.published hs' hcommit) (.now ?_)))
    refine .overwritten (l := []) hrun' h'.copy.found hx ?_
    simp only [signals_append, hes₂ b.copy hne.symm, hes, List.append_nil]
    simp

omit [BEq V] [LawfulBEq V] in
/-- A publisher that is being drained somewhere below is marked as such. -/
theorem Intact.draining_over {p : PublisherRef} {calls : List (Call V (Observer V P σ ε))}
    {rest : List (Frame V P σ ε)} (h : Intact p s w ((t.over [.deliver p calls]).over rest)) :
    s.draining = true := by
  have hmem : calls ∈ ((t.over [.deliver p calls]).over rest).due p :=
    List.mem_filterMap.2 ⟨.deliver p calls, List.mem_append_left _ (List.mem_append_right _
      (List.mem_singleton_self _)), if_pos rfl⟩
  have hlen := h.orderly.drains
  cases hd : s.draining with
  | true => rfl
  | false =>
      rw [show (Thread.view p s ((t.over [.deliver p calls]).over rest)).state.draining = _ from hd]
        at hlen
      exact absurd (List.eq_nil_of_length_eq_zero hlen) (List.ne_nil_of_mem hmem)

/-- A write of the copy in the middle of its drain. -/
theorem Abreast.midway_write {rest : List (Frame V P σ ε)}
    {calls : List (Call V (Observer V P σ ε))}
    (hrun : AnyRun body w₀ (.start (.publish b.copy x (.ret v))) es w
      (((⟨.run (.publish b.copy y k), rest⟩ : Thread V P σ ε).over [.deliver b.copy calls]).over
        (r.onward (.ret v))))
    (h : Alongside body b d T s w
      (((⟨.run (.publish b.copy y k), rest⟩ : Thread V P σ ε).over [.deliver b.copy calls]).over
        (r.onward (.ret v))))
    (hn : n.IsBox d) (hne : d ≠ b.copy) (hq : b.Alone id q)
    (hes : signals b.copy es' = signals b.copy es) {es₁ : List (Event V ε)}
    {body' : P → Prog V P σ ε}
    (hm : Thread.Moves body' (w.behind b n d q)
      ((((⟨.run (.publish b.copy y k), rest⟩ : Thread V P σ ε).over
        [.deliver b.copy calls]).through b n).over (r.onward (b.pass d x (.ret v)))) es₁ w' t') :
    Soon body' (Abreast body b n d T id x v w₀ r) (es' ++ es₁) w' t' := by
  have hdrain : s.draining = true := h.copy.draining_over
  obtain ⟨es₂, w₂, s₂, hwrite, h₂, es₃, w₃, t₃, es₄, q', hm', hrun', hsig, hq', hcur⟩ :=
    h.write hn hne hdrain hq body' _
  cases hm.step.symm.trans hm'.step
  refine Soon.of_run hrun' (.now ?_)
  refine .midway (t := ⟨.run k, rest⟩) (hrun.trans hwrite.any) h₂ hq' (Or.inr hcur) ?_
  rw [List.append_assoc, signals_append, hes, hsig, signals_append]

theorem Abreast.move (h : Abreast body b n d T id x v w₀ r es w t) (hn : n.IsBox d) (hne : d ≠ b.copy)
    (hm : Thread.Moves (fun c => (body c).through b n) w t es' w' t') :
    Soon (fun c => (body c).through b n) (Abreast body b n d T id x v w₀ r) (es ++ es') w' t' := by
  cases h with
  | agreed => exact nomatch hm.step
  | @overwritten es₀ _ _ _ _ s l hrun hs hx hes =>
      refine .now (.overwritten (l := l ++ signals b.copy es') hrun hs hx ?_)
      rw [signals_append, hes, List.append_assoc]
      rfl
  | doomed hst =>
      cases hm with
      | caught =>
          obtain ⟨m, hm⟩ | ⟨k, hk⟩ := hst _ List.mem_cons_self
          · exact nomatch hm
          · exact nomatch hk
      | abandoned =>
          obtain ⟨m, hm⟩ | ⟨k, hk⟩ := hst _ List.mem_cons_self
          · exact nomatch hm
          · exact nomatch hk
      | expelled | passed => exact .now (.doomed fun fr hfr => hst fr (List.mem_cons_of_mem _ hfr))
  | released hdet =>
      refine .now (.released ?_)
      rw [signals_append]
      exact List.mem_append_left _ hdet
  | @midway es₀ _ w t s q calls hrun h hq hlink hes =>
      by_cases hwrite : ∃ y k, t.focus = .run (.publish b.copy y k)
      · obtain ⟨f, st⟩ := t
        obtain ⟨y, k, rfl⟩ := hwrite
        exact Abreast.midway_write hrun h hn hne hq hes hm
      have hwrite' : ∀ y k, t.focus ≠ .run (.publish b.copy y k) := fun y k hf => hwrite ⟨y, k, hf⟩
      -- both worlds move in step
      have hstack : (t.over [.deliver b.copy calls]).stack ≠ [] :=
        List.append_ne_nil_of_right_ne_nil _ nofun
      rcases hm.under with ⟨t₁, rfl, hm₁⟩ | ⟨o, ho⟩
      swap
      · exact absurd (Thread.stack_of_outcome ho) (mt List.map_eq_nil_iff.1 hstack)
      rcases h.follow hne hq hstack hwrite' hm₁ with hdet | ⟨es₁, w₁, t₂, hplain, rfl, rfl, hsig⟩
      · refine .now (.released ?_)
        rw [signals_append]
        exact List.mem_append_right _ hdet
      have hmove := hplain.over (r.onward (.ret v))
      obtain ⟨s', h', hcur⟩ := h.move hmove
      have hstep : AnyRun body _ _ _ _ _ := .single hmove.step trivial
      have hrun' := hrun.trans hstep
      have hlink' : s'.current = x ∨ q.current = s'.current := by
        rw [hcur hwrite']
        exact hlink
      have hes' : signals b.copy (es ++ es') = signals b.copy (es₀ ++ es₁) := by
        rw [signals_append, signals_append, hes, hsig]
      rcases hplain.over_deliver with ⟨t₃, calls', rfl⟩ | ⟨u, rfl⟩ | ⟨text, rfl⟩
      · exact .now (.midway hrun' h' hq hlink' hes')
      · exact Abreast.ending hrun' h' hne hq hlink' hes'
      · refine .now (.doomed ?_)
        intro fr hfr
        have hwaits : fr ∈ r.onward (b.pass d x (.ret v)) := hfr
        exact (mem_of_mem_leaving hwaits).imp_right fun hresume => ⟨_, List.mem_singleton.1 hresume⟩

/-- The write begins: the copy is not being drained yet. -/
theorem Abreast.start (h : Alongside body b d T r w₀ (.start (.publish b.copy x (.ret v))))
    (hn : n.IsBox d) (hne : d ≠ b.copy) (hq : b.Alone id q) {body' : P → Prog V P σ ε} :
    Soon body' (Abreast body b n d T id x v w₀ r) [] (w₀.behind b n d q)
      (.start ((b.node n).set x fun _ => .ret v)) := by
  rw [Breaker.set_eq hn]
  have hr := h.copy.found
  have hr' := World.behind_copy (n := n) (q := q) hne hr
  have hcommit := r.map_commit (Observer.through b n) x
  cases hc : r.commit x with
  | none =>
      rw [hc] at hcommit
      have hm : Thread.Moves body w₀ (.start (.publish b.copy x (.ret v))) [] _
          ⟨.run (.ret r.current), r.onward (.ret v)⟩ := .publishedSame hr hc
      have hm' : Thread.Moves body' (w₀.behind b n d q)
          (.start (.publish b.copy x (b.pass d x (.ret v)))) _ _ _ := .publishedSame hr' hcommit
      rw [Publisher.map_monitors, ← World.behind_enterAll] at hm'
      obtain ⟨s, hs, -⟩ := h.move hm
      obtain rfl := Option.some.inj
        (((World.publisher?_enterAll r.monitors).trans hr).symm.trans hs.copy.found)
      refine Soon.after hm' (Abreast.ending (.single hm.step trivial) hs hne hq (Or.inl ?_) rfl)
      exact eq_of_beq ((Publisher.commit_eq_none_iff r x).1 hc)
  | some s =>
      rw [hc] at hcommit
      have hidle := (h.copy.idle (Thread.settled_start _ _)).1
      have hbegin : s.beginDrain = some { s with draining := true } := by
        obtain rfl := Publisher.commit_eq_some hc
        exact if_neg (by simpa using hidle)
      have hbegin' := s.map_beginDrain (Observer.through b n)
      rw [hbegin] at hbegin'
      have hm : Thread.Moves body w₀ (.start (.publish b.copy x (.ret v))) [.committed b.copy x] _
          ⟨.drain b.copy, r.onward (.ret v)⟩ := .published hr hc
      have hm' : Thread.Moves body' (w₀.behind b n d q)
          (.start (.publish b.copy x (b.pass d x (.ret v)))) _ _ _ := .published hr' hcommit
      rw [Publisher.map_monitors, ← World.behind_enterAll, ← World.behind_setPublisher hne.symm]
        at hm'
      have hs : ((w₀.enterAll r.monitors).setPublisher b.copy s).publisher? b.copy = some s :=
        World.publisher?_enterAll_setPublisher hr
      have hd : Thread.Moves body _ ⟨.drain b.copy, r.onward (.ret v)⟩ _ _ _ := .draining hs hbegin
      have hd' : Thread.Moves body' _ ⟨.drain b.copy, r.onward (b.pass d x (.ret v))⟩ _ _ _ :=
        .draining (World.behind_copy (n := n) (q := q) hne hs) hbegin'
      rw [← World.behind_setPublisher hne.symm] at hd'
      have hrun : AnyRun body w₀ (.start (.publish b.copy x (.ret v))) _ _ _ :=
        .cons hm.step trivial (.single hd.step trivial)
      obtain ⟨s', hs'⟩ := h.run hrun
      obtain rfl := Option.some.inj
        ((World.publisher?_setPublisher_self hs).symm.trans hs'.copy.found)
      refine Soon.after hm' (Soon.after hd' (.now ?_))
      exact .midway (t := ⟨.run (.ret s.current), []⟩) hrun hs' hq
        (Or.inl (Publisher.timeline_commit hc).2) rfl

/-- A write to a closed breaker, whose observers and all other programs write to the breaker where
they wrote to a box, comes to the same as the write to the box in which nobody writes back another
value for good: the two worlds, and all that the observers are told, are the same. If the box is
left with a value that was written back, the breaker's observers are told everything that those of
the box are, and then the copy is written once more with the value that was to be replaced. -/
theorem closed_breaker_writes_back (hn : n.IsBox d) (hne : d ≠ b.copy)
    (h : Alongside body b d T r w₀ (.start (.publish b.copy x (.ret v)))) (hq : b.Alone id q)
    (hrun : AnyRun (fun c => (body c).through b n) (w₀.behind b n d q)
      (.start ((b.node n).set x fun _ => .ret v)) es w' ⟨.run (.ret v), []⟩)
    (hstay : .detached id ∉ signals d es) :
    ∃ es' w s, AnyRun body w₀ (.start ((Node.rx b.copy).set x fun _ => .ret v)) es' w
        ⟨.run (.ret v), []⟩ ∧
      w.publisher? b.copy = some s ∧
      (s.current = x → signals b.copy es = signals b.copy es' ∧
        ∃ q', w' = w.behind b n d q' ∧ b.Alone id q' ∧ q'.current = x) ∧
      (s.current ≠ x → ∃ l, signals b.copy es = signals b.copy es' ++ .committed x :: l) := by
  obtain ⟨hsoon, -⟩ := Soon.run (Abreast.start h hn hne hq) trivial hrun
    fun _ _ _ _ _ _ hstage _ hm _ => hstage.move hn hne hm
  have hstage := hsoon.ended rfl
  obtain ⟨t, hend⟩ : ∃ t : Thread V P σ ε, t = ⟨.run (.ret v), []⟩ := ⟨_, rfl⟩
  rw [← hend] at hstage
  cases hstage with
  | midway => exact absurd (congrArg Thread.stack hend) (by simp [Thread.over, Thread.through])
  | doomed => cases hend
  | agreed hplain hs hx hq' hcur hes =>
      exact ⟨_, _, _, hplain, hs, fun _ => ⟨hes, _, rfl, hq', hcur⟩, fun hne => absurd hx hne⟩
  | overwritten hplain hs hx hes =>
      exact ⟨_, _, _, hplain, hs, fun he => absurd he hx, fun _ => ⟨_, hes⟩⟩
  | released hdet => exact absurd hdet hstay

end Stages

/-- An observer of the box `⟨1⟩` that answers 1 with 2. -/
def answering : Routine Nat Empty Unit Unit := fun v =>
  if v = 1 then .publish ⟨1⟩ 2 (.ret v) else .ret v

/-- The same observer with a breaker in the place of the box. -/
def replying : Routine Nat Empty Unit Unit := fun v =>
  if v = 1 then (fuse.node (.rx ⟨0⟩)).set 2 fun _ => .ret v else .ret v

/-- A client that puts a closed breaker in front of a box, subscribes an observer to the breaker that
answers 1 with 2, and writes 1 to the breaker. -/
def consulting : Prog Nat Empty Unit Unit :=
  .atom (.newPublisher none 0) fun d => Breaker.createClosed (.rx d) fun b =>
    .attach b.copy [] replying fun _ => (b.node (.rx d)).set 1 fun _ => .ret 0

theorem answering_through (v : Nat) :
    (answering v).through fuse (.rx ⟨0⟩) = replying v := by
  unfold answering replying
  by_cases hv : v = 1
  · rw [if_pos hv, if_pos hv]
    rfl
  · rw [if_neg hv, if_neg hv]
    rfl

/-- A box with an observer that answers, and the number under which another one would have been
subscribed to a box that nobody uses. -/
def consulted : World Nat Empty Unit Unit :=
  { (World.new () : World Nat Empty Unit Unit) with
    publishers := ⟨[.new none 0, ⟨none, 0, 0, [⟨0, answering, []⟩], [], false, 1⟩]⟩
    subscriptions := ⟨[some (.detach ⟨0⟩ 0), some (.detach ⟨1⟩ 0)]⟩
    bags := ⟨[[⟨0⟩]]⟩ }

theorem consulted_alongside : Alongside Empty.elim fuse ⟨0⟩ .storeless
    ⟨none, 0, 0, [⟨0, answering, []⟩], [], false, 1⟩ consulted
    (.start (.publish ⟨1⟩ 1 (.ret 0))) := by
  have hscope : Use.publish ⟨1⟩ ∈ consulted.scope (fuse.beyond ⟨0⟩) := by
    refine ⟨Nat.one_lt_two, ?_⟩
    rintro (h | h | h | h | h) <;> exact nomatch h
  have hanswering : ∀ v, (answering v).Within Terms.storeless.plain
      (consulted.scope (fuse.beyond ⟨0⟩)) := by
    intro v
    unfold answering
    by_cases hv : v = 1
    · rw [if_pos hv]
      exact .publish hscope (.ret v)
    · rw [if_neg hv]
      exact .ret v
  refine ⟨⟨?_, trivial, ?_, ?_⟩, nofun, .publish hscope (.ret 0), nofun,
    ⟨rfl, ⟨rfl, Or.inl rfl⟩, ?_⟩, Thread.settled_start _ _, ⟨_, rfl⟩,
    ⟨[⟨0⟩], rfl, List.cons_ne_nil _ _⟩⟩
  · rintro u (rfl | rfl | rfl | rfl | rfl)
    · exact Nat.zero_lt_two
    · exact Nat.zero_lt_two
    · exact Nat.zero_lt_two
    · exact Nat.one_lt_two
    · exact Nat.zero_lt_one
  · rintro ⟨i⟩ s hs r hr
    match i with
    | 0 =>
        cases hs
        exact nomatch hr
    | 1 =>
        cases hs
        obtain rfl := List.mem_singleton.1 hr
        exact Or.inl hanswering
    | i + 2 => exact nomatch hs
  · intro i c hc
    match i with
    | 0 | 1 | i + 2 => exact nomatch hc
  · show ([0] ++ [] ++ [1]).Pairwise (· < ·)
    decide

/-- The observer of the box is called with 1 and 2, that of the breaker with 1, 2, 1 and 2. -/
theorem closed_breaker_writes_back_fuse :
    ∃ (w : World Nat Empty Unit Unit) (es : List (Event Nat Unit)) (w' : World Nat Empty Unit Unit)
      (es' : List (Event Nat Unit)) (w₁ : World Nat Empty Unit Unit) (l : List (Signal Nat)),
      Reachable Empty.elim w (.start ((fuse.node (.rx ⟨0⟩)).set 1 fun _ => .ret 0)) ∧
      AnyRun Empty.elim w (.start ((fuse.node (.rx ⟨0⟩)).set 1 fun _ => .ret 0)) es w'
        ⟨.run (.ret 0), []⟩ ∧
      AnyRun Empty.elim consulted (.start ((Node.rx ⟨1⟩).set 1 fun _ => .ret 0)) es' w₁
        ⟨.run (.ret 0), []⟩ ∧
      received 0 (signals ⟨1⟩ es) = [1, 2, 1, 2] ∧ received 0 (signals ⟨1⟩ es') = [1, 2] ∧
      signals ⟨1⟩ es = signals ⟨1⟩ es' ++ .committed 1 :: l := by
  let q : Publisher Nat (Observer Nat Empty Unit Unit) :=
    ⟨none, 0, 0, [⟨0, fuse.forward, [⟨1⟩]⟩], [], false, 1⟩
  obtain ⟨w, es, w', hmade, hw, hadvance, hreceived, hstay⟩ :
      ∃ (w : World Nat Empty Unit Unit) (es : List (Event Nat Unit))
        (w' : World Nat Empty Unit Unit),
      Thread.run Empty.elim (fun _ _ _ => (none : Option Unit)) 26 (World.new ()) (.start consulting) [] =
        (w, .start ((fuse.node (.rx ⟨0⟩)).set 1 fun _ => .ret 0), []) ∧
      w = { (World.new () : World Nat Empty Unit Unit) with
        publishers := ⟨[q, ⟨none, 0, 0, [⟨0, replying, []⟩], [], false, 1⟩]⟩
        subscriptions := ⟨[some (.detach ⟨0⟩ 0), some (.detach ⟨1⟩ 0)]⟩
        bags := ⟨[[⟨0⟩]]⟩ } ∧
      Thread.advance Empty.elim 53 w (.start ((fuse.node (.rx ⟨0⟩)).set 1 fun _ => .ret 0)) =
        some (w', ⟨.run (.ret 0), []⟩, es) ∧
      received 0 (signals ⟨1⟩ es) = [1, 2, 1, 2] ∧ .detached 0 ∉ signals ⟨0⟩ es :=
    ⟨_, _, _, rfl, rfl, rfl, by decide +kernel, by decide +kernel⟩
  obtain rfl : w = consulted.behind fuse (.rx ⟨0⟩) ⟨0⟩ q := by
    rw [hw, ← show (fun v => (answering v).through fuse (.rx ⟨0⟩)) = replying from
      funext answering_through]
    rfl
  obtain ⟨es₂, w₂, s₂, hplain, hreceived', hs₂, hcur⟩ :
      ∃ (es : List (Event Nat Unit)) (w' : World Nat Empty Unit Unit)
        (s : Publisher Nat (Observer Nat Empty Unit Unit)),
      Thread.advance Empty.elim 13 consulted (.start (.publish ⟨1⟩ 1 (.ret 0))) =
        some (w', ⟨.run (.ret 0), []⟩, es) ∧
      received 0 (signals ⟨1⟩ es) = [1, 2] ∧ w'.publisher? ⟨1⟩ = some s ∧ s.current = 2 :=
    ⟨_, _, _, rfl, by decide +kernel, rfl, rfl⟩
  have hprocs : (fun c => (Empty.elim c : Prog Nat Empty Unit Unit).through fuse (.rx ⟨0⟩)) =
      Empty.elim := funext fun c => c.elim
  have hrun : AnyRun Empty.elim (consulted.behind fuse (.rx ⟨0⟩) ⟨0⟩ q)
      (.start ((fuse.node (.rx ⟨0⟩)).set 1 fun _ => .ret 0)) es w' ⟨.run (.ret 0), []⟩ :=
    CalmRun.any (.of_advance hadvance)
  obtain ⟨es₀, hrun₀⟩ := Run.of_run hmade
  obtain ⟨es', w₁, s, hbox, hs, -, hover⟩ := @closed_breaker_writes_back _ _ _ _ _ _ Empty.elim
    fuse _ ⟨0⟩ _ 0 1 0 q _ _ _ _ .rx (show ⟨0⟩ ≠ fuse.copy from nofun) consulted_alongside
    ⟨⟨_, rfl⟩, rfl, rfl⟩ (hprocs ▸ hrun) hstay
  -- the write to the box has one outcome
  obtain ⟨rfl, rfl, -⟩ := Run.unique (.of_advance hplain) rfl hbox rfl trivial
  obtain rfl := Option.some.inj (hs₂.symm.trans hs)
  obtain ⟨l, hl⟩ := hover (by rw [hcur]; decide)
  exact ⟨_, es, w', es', w₁, l, ⟨(), consulting, es₀, hrun₀⟩, hrun, hbox, hreceived, hreceived', hl⟩

end ReactiveCells
