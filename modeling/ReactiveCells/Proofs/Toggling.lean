import ReactiveCells.Proofs.Client
import ReactiveCells.Proofs.Holders
import ReactiveCells.Proofs.Scope

/-!
# Toggling — programs that open and close a breaker

A breaker has three private parts: the right to write its copy, the right to modify its copy, and
the bag for the forwarding subscription. Programs reach them through the operations of the breaker
only (`Breaker.Operation`); they may do anything else at any depth, also in the middle of an
operation, where they run as observers.

While the bag is empty, be it that the breaker is open or that it is half way through closing, all
that runs is such programs, the function of a modification of the copy and the forwarding
subscription (`Loose`), as long as nobody begins to close the breaker. The operations of the breaker
leave the delegate alone then.

Main statements: `setClosed_eq` (what closing and opening are), `Loose.move`, and
`Loose.of_writes_copy` (who writes the copy).
-/

namespace ReactiveCells

variable {V P σ ε : Type}

namespace Breaker

/-! ## Opening and closing step by step -/

section Steps

variable (b : Breaker) (d : PublisherRef) (k : Prog V P σ ε)

/-- What is left of closing once the forwarding subscription is made. -/
def filling (s : SubscriptionRef) : Prog V P σ ε :=
  .atom (.bag b.coupling fun _ => [s]) fun _ => .atom (.report .breakerClosed) fun _ => k

/-- What is left of closing once the delegate has been written. -/
def attaching : Prog V P σ ε :=
  .attach d [b.copy] b.forward (b.filling k)

/-- Closes a breaker that is open. -/
def pushing : Prog V P σ ε :=
  .atom (.current b.copy) fun (v : V) => .publish d v (b.attaching d k)

/-- Disposes what was in the bag. -/
def releasing : List SubscriptionRef → Prog V P σ ε
  | [] => .atom (.report .breakerOpened) fun _ => k
  | s :: ss => .dispose s (releasing ss)

/-- Opens a breaker that is closed. -/
def opening : Prog V P σ ε :=
  .atom (.bag b.coupling fun _ => []) (releasing k)

variable {b d} [BEq V] {n : Node (Routine V P σ ε) .reactive}

theorem close_eq (hn : n.IsBox d) : (b.close n fun _ => k) = b.pushing d k := by
  show Prog.atom (.current b.copy) (fun v => n.set v fun _ => n.subscribe [b.copy]
    (fun v => Act.publish b.copy v) fun s => b.filling k s) = _
  rw [hn.set_eq, hn.subscribe_eq]
  rfl

omit [BEq V] in
theorem disposeEach_eq (ss : List SubscriptionRef) :
    (Registry.disposeEach ss fun _ => .atom (.report .breakerOpened) fun _ => k) =
      releasing k ss := by
  induction ss with
  | nil => rfl
  | cons s ss ih => exact congrArg (Prog.dispose s) ih

omit [BEq V] in
theorem breakOpen_eq : (b.breakOpen fun _ => k) = b.opening k :=
  congrArg (Prog.atom (.bag b.coupling fun _ => [])) (funext (disposeEach_eq k))

/-- Closing and opening first ask which of the two the breaker is. -/
theorem setClosed_eq (hn : n.IsBox d) (closed : Bool) :
    (b.setClosed n closed fun _ => k) =
      .atom (.bag b.coupling id) fun (ss : List SubscriptionRef) =>
        if (!ss.isEmpty) = closed then k else if closed then b.pushing d k else b.opening k := by
  refine congrArg (Prog.atom (.bag b.coupling id)) (funext fun ss => ?_)
  show (if ((!ss.isEmpty) == closed) = true then pure () else
    if closed = true then b.close n else b.breakOpen : Act V P σ ε Unit) (fun _ => k) = _
  by_cases hss : (!ss.isEmpty) = closed
  · rw [if_pos (beq_iff_eq.2 hss), if_pos hss]
    rfl
  · rw [if_neg (mt beq_iff_eq.1 hss), if_neg hss]
    cases closed with
    | true => exact close_eq k hn
    | false => exact breakOpen_eq k

end Steps

/-! ## Private parts -/

variable [BEq V] (b : Breaker) (n : Node (Routine V P σ ε) .reactive)

/-- The operations of a breaker that reach its private parts, with the programs they run. -/
inductive Operation : Prog V P σ ε → Set (Prog V P σ ε) → Prop where
  | set (v : V) (k : Prog V P σ ε) : Operation ((b.node n).set v fun _ => k) {k}
  | modify (f k : V → Prog V P σ ε) :
      Operation ((b.node n).modify f k) (Set.range f ∪ Set.range k)
  | isClosed (k : Bool → Prog V P σ ε) : Operation (b.isClosed k) (Set.range k)
  | setClosed (closed : Bool) (k : Prog V P σ ε) :
      Operation (b.setClosed n closed fun _ => k) {k}

omit [BEq V] in
/-- What only the operations of a breaker reach. -/
def hidden : Scope := {.publish b.copy, .amend b.copy, .bag b.coupling}

omit [BEq V] in
/-- Where the forwarding subscription reacts. -/
def Forwards (d : PublisherRef) (q : PublisherRef) (react : Routine V P σ ε) : Prop :=
  q = d ∧ react = b.forward

/-- The terms on which programs use a breaker. -/
abbrev terms (T : Terms V P σ ε) : Terms V P σ ε :=
  T.allowing (b.Operation n)

end Breaker

section Private

variable [BEq V] {b : Breaker} {d : PublisherRef} {n : Node (Routine V P σ ε) .reactive}
  {T : Terms V P σ ε} {S : Scope} {w w' : World V P σ ε}

omit [BEq V] in
theorem Breaker.notMem_scope {u : Use} (hu : u ∈ b.hidden) : u ∉ w.scope b.hidden :=
  fun h => h.2 hu

/-- The forwarding subscription is no program of a client. -/
theorem not_within_forward (hn : n.IsBox d) (v : V) :
    ¬ (b.forward v).Within (b.terms n T) (w.scope b.hidden) := by
  intro h
  generalize hc : (b.forward v : Prog V P σ ε) = c at h
  cases h with
  | publish hp hk =>
      cases hc
      exact Breaker.notMem_scope (Or.inl rfl) hp
  | special hop hk =>
      cases hop with
      | set u k =>
          rw [Breaker.set_eq hn] at hc
          exact nomatch hc
      | modify f k =>
          rw [Breaker.modify_eq hn] at hc
          exact nomatch hc
      | isClosed k => exact nomatch hc
      | setClosed closed k =>
          rw [Breaker.setClosed_eq k hn] at hc
          exact nomatch hc
  | _ => exact nomatch hc

/-- A program of a client is an operation of the breaker or does not reach its private parts. -/
theorem Prog.Within.operation_or (hn : n.IsBox d) {c : Prog V P σ ε}
    (h : c.Within (b.terms n T) (w.scope b.hidden)) :
    (∃ K, b.Operation n c K ∧ ∀ k ∈ K, k.Within (b.terms n T) (w.scope b.hidden)) ∨
      ∀ K, ¬ b.Operation n c K := by
  by_cases hop : ∃ K, b.Operation n c K
  · refine Or.inl ?_
    -- an operation of the breaker is in scope as such only
    have hbag : ∀ f k, c = .atom (.bag b.coupling f) k →
        ∃ K, b.Operation n c K ∧ ∀ k ∈ K, k.Within (b.terms n T) (w.scope b.hidden) := by
      rintro f k rfl
      cases h with
      | atom _ hneeds _ =>
          exact absurd (hneeds rfl) (Breaker.notMem_scope (Or.inr (Or.inr rfl)))
      | special hop hK => exact ⟨_, hop, hK⟩
    obtain ⟨K, hop⟩ := hop
    cases hop with
    | set v k =>
        generalize hc : ((b.node n).set v fun _ => k) = c at h
        rw [Breaker.set_eq hn] at hc
        cases h with
        | publish hp _ =>
            cases hc
            exact absurd hp (Breaker.notMem_scope (Or.inl rfl))
        | special hop hK => exact ⟨_, hop, hK⟩
        | _ => exact nomatch hc
    | modify f k => exact hbag _ _ (Breaker.modify_eq hn f k)
    | isClosed k => exact hbag _ _ rfl
    | setClosed closed k => exact hbag _ _ (Breaker.setClosed_eq k hn closed)
  · exact Or.inr fun K hK => hop ⟨K, hK⟩

/-- Asking whether the breaker is closed changes nothing. -/
theorem Breaker.ask {body : P → Prog V P σ ε} {t' : Thread V P σ ε} {es : List (Event V ε)}
    {ss : List SubscriptionRef} {k : List SubscriptionRef → Prog V P σ ε}
    {st : List (Frame V P σ ε)} (hslot : w.bags.get? b.coupling.index = some ss)
    (hm : Thread.Moves body w ⟨.run (.atom (.bag b.coupling id) k), st⟩ es w' t') :
    w' = w ∧ es = [] ∧ t' = ⟨.run (k ss), st⟩ := by
  cases hm with
  | performed ha =>
      obtain ⟨ss', hss', ha⟩ := Option.map_eq_some_iff.1 ha
      cases ha
      obtain rfl := Option.some.inj (hslot.symm.trans hss')
      refine ⟨?_, rfl, rfl⟩
      rw [id, Heap.set_of_get? _ _ _ hslot]

theorem Breaker.asks (body : P → Prog V P σ ε) {ss : List SubscriptionRef}
    (hslot : w.bags.get? b.coupling.index = some ss) (k : List SubscriptionRef → Prog V P σ ε)
    (st : List (Frame V P σ ε)) :
    Thread.Moves body w ⟨.run (.atom (.bag b.coupling id) k), st⟩ [] w ⟨.run (k ss), st⟩ := by
  have hask : w.perform (.bag b.coupling id) =
      some (ss, { w with bags := w.bags.set b.coupling.index ss }, []) :=
    World.perform_bag hslot id
  rw [Heap.set_of_get? _ _ _ hslot] at hask
  exact .performed hask

end Private

/-! ## What runs while the bag is as it is -/

/-- What runs in the middle of an operation: a modification of the copy that is about to begin. -/
inductive Breaker.Amends (b : Breaker) (T : Terms V P σ ε) (S : Scope) : Focus V P σ ε → Prop where
  | amend {f k : V → Prog V P σ ε} : (∀ v, (f v).Within T S) → (∀ v, (k v).Within T S) →
      Amends b T S (.run (.amend b.copy f k))

/-- A state between two moves while the bag holds `ss` and no closing is under way. -/
structure Loose [BEq V] (body : P → Prog V P σ ε) (b : Breaker) (d : PublisherRef)
    (n : Node (Routine V P σ ε) .reactive) (T : Terms V P σ ε) (ss : List SubscriptionRef)
    (w : World V P σ ε) (t : Thread V P σ ε) : Prop where
  world : w.Within (b.terms n T) (b.Forwards d) b.hidden
  bodies : ∀ c, (body c).Within (b.terms n T) (w.scope b.hidden)
  slot : w.bags.get? b.coupling.index = some ss
  copy : ∃ s, w.publisher? b.copy = some s
  delegate : ∃ q, w.publisher? d = some q
  focus : t.focus.Within (b.terms n T) (w.scope b.hidden) ∨
    b.Amends (b.terms n T) (w.scope b.hidden) t.focus ∨ ∃ v, t.focus = .run (b.forward v)
  stack : ∀ fr ∈ t.stack, fr.Within (b.terms n T) (b.Forwards d) (w.scope b.hidden) ∨
    fr = .commit b.copy

/-- Such a state after a move; the forwarding subscription is in focus only if it has just been
called. -/
structure Loosely [BEq V] (body : P → Prog V P σ ε) (b : Breaker) (d : PublisherRef)
    (n : Node (Routine V P σ ε) .reactive) (T : Terms V P σ ε) (ss : List SubscriptionRef)
    (t : Thread V P σ ε) (w' : World V P σ ε) (t' : Thread V P σ ε) : Prop where
  loose : Loose body b d n T ss w' t'
  called : ∀ v, t'.focus = .run (b.forward v) → Thread.Calls (b.Forwards d) t t'

section Loose

variable [BEq V] {body : P → Prog V P σ ε} {b : Breaker} {d : PublisherRef}
  {n : Node (Routine V P σ ε) .reactive} {T : Terms V P σ ε} {ss : List SubscriptionRef}
  {w w' : World V P σ ε} {t t' : Thread V P σ ε} {es : List (Event V ε)}

/-- The delegate is nobody's private part. -/
theorem Loose.delegate_mem (h : Loose body b d n T ss w t) (hne : d ≠ b.copy) :
    .read d ∈ w.scope b.hidden ∧ .publish d ∈ w.scope b.hidden ∧
      .amend d ∈ w.scope b.hidden := by
  obtain ⟨q, hq⟩ := h.delegate
  have hmade : d.index < w.publishers.size := (List.getElem?_eq_some_iff.1 hq).1
  refine ⟨⟨hmade, ?_⟩, ⟨hmade, ?_⟩, ⟨hmade, ?_⟩⟩
  · rintro (h | h | h) <;> exact nomatch h
  · rintro (h | h | h) <;> cases h
    exact hne rfl
  · rintro (h | h | h) <;> cases h
    exact hne rfl

/-- What is left of a write to the breaker is in scope. -/
theorem Loose.pass_within (h : Loose body b d n T ss w t) (hne : d ≠ b.copy) {k : Prog V P σ ε}
    (hk : k.Within (b.terms n T) (w.scope b.hidden)) (v : V) :
    (b.pass d v k).Within (b.terms n T) (w.scope b.hidden) := by
  have hask : (b.pass d v k : Prog V P σ ε) =
      b.isClosed fun closed => if closed then .publish d v k else k := rfl
  rw [hask]
  refine .special (.isClosed _) ?_
  rintro c ⟨_ | _, rfl⟩
  · exact hk
  · exact .publish (h.delegate_mem hne).2.1 hk

/-- A move keeps what it does not touch. -/
theorem Loose.next {ss' : List SubscriptionRef} (h : Loose body b d n T ss w t) (hn : n.IsBox d)
    (hm : Thread.Moves body w t es w' t') (hgrow : w.Grows w')
    (hworld : w'.Within (b.terms n T) (b.Forwards d) b.hidden)
    (hslot : w'.bags.get? b.coupling.index = some ss')
    (hstack : ∀ fr ∈ t'.stack, fr ∈ t.stack ∨
      fr.Within (b.terms n T) (b.Forwards d) (w'.scope b.hidden) ∨ fr = .commit b.copy)
    (hfocus : t'.focus.Within (b.terms n T) (w'.scope b.hidden) ∨
      b.Amends (b.terms n T) (w'.scope b.hidden) t'.focus ∨
      Thread.Calls (b.Forwards d) t t') :
    Loosely body b d n T ss' t w' t' := by
  obtain ⟨s, hs⟩ := h.copy
  obtain ⟨q, hq⟩ := h.delegate
  obtain ⟨s', hs', -⟩ := hm.view hs
  obtain ⟨q', hq', -⟩ := hm.view hq
  refine ⟨⟨hworld, fun c => (h.bodies c).mono hgrow.scope, hslot, ⟨s', hs'⟩, ⟨q', hq'⟩, ?_, ?_⟩, ?_⟩
  · refine hfocus.imp_right fun h => h.imp_right ?_
    rintro ⟨u, q, c, calls, st, -, ⟨-, hreact⟩, hf⟩
    exact ⟨c.value, hf.trans (congrArg (fun g => Focus.run (g c.value)) hreact)⟩
  · intro fr hfr
    rcases hstack fr hfr with hold | hnew
    · exact (h.stack fr hold).imp_left fun hin => hin.mono hgrow.scope
    · exact hnew
  · intro v hv
    rcases hfocus with hin | hamend | hcalls
    · rw [hv] at hin
      exact absurd hin (not_within_forward hn v)
    · rw [hv] at hamend
      exact nomatch hamend
    · exact hcalls

/-- A move that neither asks nor changes the bag. -/
theorem Loose.keep (h : Loose body b d n T ss w t) (hn : n.IsBox d)
    (hm : Thread.Moves body w t es w' t')
    (hbag : ∀ f k, t.focus ≠ .run (.atom (.bag b.coupling f) k)) (hgrow : w.Grows w')
    (hworld : w'.Within (b.terms n T) (b.Forwards d) b.hidden)
    (hstack : ∀ fr ∈ t'.stack, fr ∈ t.stack ∨
      fr.Within (b.terms n T) (b.Forwards d) (w'.scope b.hidden) ∨ fr = .commit b.copy)
    (hfocus : t'.focus.Within (b.terms n T) (w'.scope b.hidden) ∨
      b.Amends (b.terms n T) (w'.scope b.hidden) t'.focus ∨
      Thread.Calls (b.Forwards d) t t') :
    Loosely body b d n T ss t w' t' :=
  h.next hn hm hgrow hworld (hm.bag_eq h.slot hbag) hstack hfocus

/-- A client does something else. -/
theorem Loose.plain (h : Loose body b d n T ss w t) (hn : n.IsBox d)
    (hm : Thread.Moves body w t es w' t')
    (hin : t.focus.Within (b.terms n T) (w.scope b.hidden))
    (hplain : ∀ c K, t.focus = .run c → ¬ b.Operation n c K) :
    Loosely body b d n T ss t w' t' := by
  have hbag : ∀ f k, t.focus ≠ .run (.atom (.bag b.coupling f) k) := by
    intro f k hf
    rw [hf] at hin
    cases hin with
    | atom _ hneeds _ => exact Breaker.notMem_scope (Or.inr (Or.inr rfl)) (hneeds rfl)
    | special hop _ => exact hplain _ _ hf hop
  by_cases htop : t.focus.Reaches ∧ t.stack.head? = some (.commit b.copy)
  · -- a modification of the copy comes to its end
    obtain ⟨f, _ | ⟨fr, st⟩⟩ := t
    · exact nomatch htop.2
    obtain rfl : fr = .commit b.copy := Option.some.inj htop.2
    have below : ∀ {w' : World V P σ ε}, ∀ fr ∈ st, fr ∈ (.commit b.copy :: st) ∨
        fr.Within (b.terms n T) (b.Forwards d) (w'.scope b.hidden) ∨ fr = .commit b.copy :=
      fun fr hfr => Or.inl (List.mem_cons_of_mem _ hfr)
    cases f with
    | drain p => exact htop.1.elim
    | unwind text =>
        cases hm with
        | passed hfr => exact h.keep hn (.passed hfr) hbag (.refl w) h.world below (Or.inl trivial)
    | run c =>
        cases c with
        | ret v =>
            cases hm with
            | amendedSame hs hc =>
                exact h.keep hn (.amendedSame hs hc) hbag (.refl w) h.world below (Or.inl (.ret _))
            | amended hs hc =>
                exact h.keep hn (.amended hs hc) hbag (World.grows_setPublisher _ _)
                  (h.world.commit hs hc) below (Or.inl trivial)
        | _ => exact htop.1.elim
  · have htop' : t.focus.Reaches → ∀ fr ∈ t.stack.head?,
        fr.Within (b.terms n T) (b.Forwards d) (w.scope b.hidden) := by
      intro hreach fr hfr
      refine (h.stack fr (List.mem_of_mem_head? hfr)).resolve_right ?_
      rintro rfl
      exact htop ⟨hreach, hfr⟩
    obtain ⟨hgrow, hworld, hstack, hfocus⟩ := hm.within h.bodies h.world htop' hin hplain
    refine h.keep hn hm hbag hgrow hworld (fun fr hfr => (hstack fr hfr).imp_right Or.inl)
      (hfocus.imp_right Or.inr)

/-- A write to the copy comes back to a program in scope. -/
theorem Loose.write (h : Loose body b d n T ss w t) (hn : n.IsBox d) {v : V} {k : Prog V P σ ε}
    (hf : t.focus = .run (.publish b.copy v k)) (hm : Thread.Moves body w t es w' t')
    (hk : k.Within (b.terms n T) (w.scope b.hidden)) : Loosely body b d n T ss t w' t' := by
  obtain ⟨f, st⟩ := t
  obtain rfl : f = .run (.publish b.copy v k) := hf
  have waits : ∀ {w' : World V P σ ε} {s : Publisher V (Observer V P σ ε)}, w.Grows w' →
      ∀ fr ∈ s.leaving ++ .resume (fun _ => k) :: st, fr ∈ st ∨
        fr.Within (b.terms n T) (b.Forwards d) (w'.scope b.hidden) ∨ fr = .commit b.copy := by
    intro w' s hgrow fr hfr
    rcases mem_of_mem_leaving hfr with ⟨m, rfl⟩ | hfr
    · exact Or.inr (Or.inl trivial)
    · rcases List.mem_cons.1 hfr with rfl | hold
      · exact Or.inr (Or.inl fun _ => hk.mono hgrow.scope)
      · exact Or.inl hold
  cases hm with
  | @publishedSame _ _ _ s _ hs hc =>
      have hgrow := World.grows_enterAll (w := w) s.monitors
      exact h.keep hn (.publishedSame hs hc) nofun hgrow (h.world.enterAll _) (waits hgrow)
        (Or.inl (.ret _))
  | @published _ _ _ s s' _ hs hc =>
      have hgrow := (World.grows_enterAll (w := w) s.monitors).trans
        (World.grows_setPublisher b.copy s')
      have hs' := (World.publisher?_enterAll s.monitors).trans hs
      exact h.keep hn (.published hs hc) nofun hgrow ((h.world.enterAll _).commit hs' hc)
        (waits hgrow) (Or.inl trivial)

/-- A modification of the copy begins, or the forwarding subscription writes it. -/
theorem Loose.midway (h : Loose body b d n T ss w t) (hn : n.IsBox d)
    (hm : Thread.Moves body w t es w' t')
    (hmid : b.Amends (b.terms n T) (w.scope b.hidden) t.focus ∨
      ∃ v, t.focus = .run (b.forward v)) :
    Loosely body b d n T ss t w' t' := by
  obtain ⟨f, st⟩ := t
  rcases hmid with hamends | ⟨v, hv⟩
  · cases hamends with
    | @amend f k hf hk =>
      cases hm with
      | @amending _ _ _ s _ hs =>
          have hgrow := World.grows_enterAll (w := w) s.monitors
          refine h.keep hn (.amending hs) nofun hgrow (h.world.enterAll _) ?_
            (Or.inl ((hf _).mono hgrow.scope))
          intro fr hfr
          rcases List.mem_cons.1 hfr with rfl | hfr
          · exact Or.inr (Or.inr rfl)
          rcases mem_of_mem_leaving hfr with ⟨m, rfl⟩ | hfr
          · exact Or.inr (Or.inl trivial)
          rcases List.mem_cons.1 hfr with rfl | hold
          · exact Or.inr (Or.inl fun v => (hk v).mono hgrow.scope)
          · exact Or.inl hold
  · exact h.write hn hv hm (.ret v)

/-- The operations of the breaker leave everything but the copy alone. -/
theorem Loose.operation (h : Loose body b d n T [] w t) (hn : n.IsBox d) (hne : d ≠ b.copy)
    {c : Prog V P σ ε} {K : Set (Prog V P σ ε)} (hf : t.focus = .run c) (hop : b.Operation n c K)
    (hK : ∀ k ∈ K, k.Within (b.terms n T) (w.scope b.hidden))
    (hm : Thread.Moves body w t es w' t')
    (hopen : ∀ k, t.focus ≠ .run (b.setClosed n true fun _ => k)) :
    Loosely body b d n T [] t w' t' := by
  obtain ⟨f, st⟩ := t
  obtain rfl : f = .run c := hf
  -- every operation but a write to the breaker begins by asking whether it is closed
  have asked : ∀ {k : List SubscriptionRef → Prog V P σ ε},
      c = .atom (.bag b.coupling id) k →
      ((Focus.run (k [])).Within (b.terms n T) (w.scope b.hidden) ∨
        b.Amends (b.terms n T) (w.scope b.hidden) (.run (k []))) →
      Loosely body b d n T [] ⟨.run c, st⟩ w' t' := by
    rintro k rfl hk
    obtain ⟨rfl, rfl, rfl⟩ := Breaker.ask h.slot hm
    exact h.next hn hm (.refl w') h.world h.slot (fun fr hfr => Or.inl hfr) (hk.imp_right Or.inl)
  cases hop with
  | set v k =>
      have hk := h.pass_within hne (hK k rfl) v
      exact h.write hn (congrArg Focus.run (Breaker.set_eq hn v k)) hm hk
  | modify f k =>
      refine asked (Breaker.modify_eq hn f k) (Or.inr (.amend ?_ ?_))
      · exact fun v => hK _ (Or.inl ⟨v, rfl⟩)
      · exact fun v => hK _ (Or.inr ⟨v, rfl⟩)
  | isClosed k => exact asked rfl (Or.inl (hK _ ⟨false, rfl⟩))
  | setClosed closed k =>
      cases closed with
      | false => exact asked (Breaker.setClosed_eq k hn false) (Or.inl (hK k rfl))
      | true => exact absurd rfl (hopen k)

/-- What is run next is a client or in the middle of a modification or of forwarding, unless a
client begins to close the breaker. -/
theorem Loose.move (h : Loose body b d n T [] w t) (hn : n.IsBox d) (hne : d ≠ b.copy)
    (hm : Thread.Moves body w t es w' t')
    (hopen : ∀ k, t.focus ≠ .run (b.setClosed n true fun _ => k)) :
    Loosely body b d n T [] t w' t' := by
  rcases h.focus with hin | hmid
  · by_cases hop : ∃ c K, t.focus = .run c ∧ b.Operation n c K ∧
        ∀ k ∈ K, k.Within (b.terms n T) (w.scope b.hidden)
    · obtain ⟨c, K, hf, hop, hK⟩ := hop
      exact h.operation hn hne hf hop hK hm hopen
    · have hplain : ∀ c K, t.focus = .run c → ¬ b.Operation n c K := by
        intro c K hf hK
        have hc : c.Within (b.terms n T) (w.scope b.hidden) := by
          rw [hf] at hin
          exact hin
        rcases hc.operation_or hn with ⟨K', hop', hK'⟩ | hnone
        · exact hop ⟨c, K', hf, hop', hK'⟩
        · exact hnone K hK
      exact h.plain hn hm hin hplain
  · exact h.midway hn hm hmid

end Loose

end ReactiveCells
