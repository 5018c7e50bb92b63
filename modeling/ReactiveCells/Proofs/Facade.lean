import ReactiveCells.Breaker
import ReactiveCells.Proofs.Returning
import ReactiveCells.Proofs.Towers

/-!
# Facades — a closed breaker in front of an enforced facade

A facade changes what is written through it. A breaker in front of it copies what was written first
and waits for the facade to tell it about the correction. The facade tells news only: if the
corrected value is what it showed before, nobody hears of it, and the copy keeps the value that was
written. So the two differ from then on, until the next write that changes what the facade shows.

Writing the box, the facade or the breaker and modifying through any of them leaves what
`Reading.after` says. A client may do so in any order, also from inside a function to modify by, and
read both values at any point (`Work`).

Main statement: `breaker_over_facade` (what both show in every case, and that they differ after
some call exactly if the breaker was written a value whose correction is shown already).
-/

namespace ReactiveCells

variable {V P σ ε : Type}

/-! ## What a client does, and what it reads -/

/-- What a client works through. -/
inductive Place where
  | box
  | facade
  | breaker

/-- What a client does, one thing after another. A function to modify by does such things, too,
before it answers. -/
inductive Work (V : Type) where
  | done
  /-- Reads the facade and the breaker. -/
  | peek (k : V → V → Work V)
  | set (a : Place) (v : V) (rest : Work V)
  /-- Goes on with the value that the modification yields. -/
  | modify (a : Place) (inside : V → Work V) (g : V → V) (rest : V → Work V)

/-- The values that the facade and the breaker show. -/
structure Reading (V : Type) where
  facade : V
  breaker : V

/-- A value that is written to the box, directly or through a facade, or to the breaker. -/
inductive Write (V : Type) where
  | box (v : V)
  | breaker (v : V)

/-- What is shown after a write. The breaker is told of the correction if it changes what the facade
shows. -/
def Reading.after [BEq V] (f : V → V) (x : Reading V) : Write V → Reading V
  | .box v => ⟨f v, if x.facade == f v then x.breaker else f v⟩
  | .breaker v => ⟨f v, if x.facade == f v then v else f v⟩

/-- A value written through a place. -/
def Place.write : Place → V → Write V
  | .box, v | .facade, v => .box v
  | .breaker, v => .breaker v

/-- The values written in the course of some work. -/
def Work.writes [BEq V] (f : V → V) : Work V → Reading V → List (Write V)
  | .done, _ => []
  | .peek k, x => (k x.facade x.breaker).writes f x
  | .set a v rest, x => a.write v :: rest.writes f (x.after f (a.write v))
  | .modify _ inside g rest, x =>
      let ws := (inside x.facade).writes f x ++ [.box (g x.facade)]
      let y := ws.foldl (Reading.after f) x
      ws ++ (rest y.facade).writes f y

/-- The handles of a box, of a facade in front of it and of a breaker in front of that. -/
def Place.node [BEq V] (box : Node (Routine V P σ ε) .reactive) (f : V → V) (d : SubscriptionRef)
    (b : Breaker) : Place → Node (Routine V P σ ε) .reactive
  | .box => box
  | .facade => box.enforced (Node.pureRoutine f) d
  | .breaker => b.node (box.enforced (Node.pureRoutine f) d)

/-- The program of some work. -/
def Work.act (n : Place → Node (Routine V P σ ε) .reactive) : Work V → Act V P σ ε Unit
  | .done => pure ()
  | .peek k => do
      let shown ← (n .facade).get
      let copied ← (n .breaker).get
      (k shown copied).act n
  | .set a v rest => do
      (n a).set v
      rest.act n
  | .modify a inside g rest => do
      let u ← (n a).modify fun v => ((inside v).act n).thenRet (g v)
      (rest u).act n

/-- Puts an enforcer on a box and a closed breaker in front of the facade, does some work, and reads
both. -/
def workThrough [BEq V] (box : Node (Routine V P σ ε) .reactive) (f : V → V) (work : Work V) :
    Act V P σ ε (Reading V) := do
  let d ← Enforcer.enforce box (Node.pureRoutine f)
  let b ← Breaker.createClosed (box.enforced (Node.pureRoutine f) d)
  work.act (Place.node box f d b)
  let shown ← (Place.facade.node box f d b).get
  let copied ← (Place.breaker.node box f d b).get
  return ⟨shown, copied⟩

/-! ## Acts that do not look at what follows -/

/-- Whether it does not matter where what follows ends. -/
def Act.Natural {α : Type} (m : Act V P σ ε α) : Prop :=
  ∀ (k : α → Prog V P σ ε) (g : V → Prog V P σ ε), (m k).bind g = m fun a => (k a).bind g

section Natural

variable {α β : Type} {m : Act V P σ ε α}

theorem Act.Natural.pure (a : α) : (Pure.pure a : Act V P σ ε α).Natural := fun _ _ => rfl

theorem Act.Natural.bind {f : α → Act V P σ ε β} (h : m.Natural) (hf : ∀ a, (f a).Natural) :
    (m >>= f).Natural := fun k g =>
  (h (fun a => f a k) g).trans (congrArg m (funext fun a => hf a k g))

theorem Act.Natural.atom (a : Atom V σ ε) : (Act.atom a : Act V P σ ε a.Answer).Natural :=
  fun _ _ => rfl

theorem Prog.act_natural (c : Prog V P σ ε) : c.act.Natural := fun k g => c.bind_assoc k g

/-- A program goes on with what an act ends with. -/
theorem Act.Natural.prog_bind {m : Act V P σ ε V} (h : m.Natural) (f : V → V) :
    m.prog.bind (Node.pureRoutine f) = (m >>= fun v => Pure.pure (f v)).prog :=
  h .ret (Node.pureRoutine f)

variable [BEq V] {p : PublisherRef} {box : Node (Routine V P σ ε) .reactive} (hb : box.IsBox p)
  (f : V → V) (d : SubscriptionRef) (b : Breaker) (a : Place)
include hb

theorem Place.set_natural (v : V) : ((a.node box f d b).set v).Natural := by
  have hfacade : ((Place.facade.node box f d b).set v).Natural := by
    show (box.set (f v)).Natural
    rw [hb.set_eq]
    exact fun _ _ => rfl
  cases a with
  | box =>
      show (box.set v).Natural
      rw [hb.set_eq]
      exact fun _ _ => rfl
  | facade => exact hfacade
  | breaker =>
      refine .bind (fun _ _ => rfl) fun _ => .bind (.bind (.atom _) fun _ => .pure _) fun coupled => ?_
      cases coupled with
      | false => exact .pure ()
      | true => exact hfacade

theorem Place.modify_natural (g : Routine V P σ ε) : ((a.node box f d b).modify g).Natural := by
  have hfacade : ((Place.facade.node box f d b).modify g).Natural := by
    show (box.modify _ >>= _).Natural
    rw [hb.modify_eq]
    exact .bind (fun _ _ => rfl) fun _ => Prog.act_natural _
  cases a with
  | box =>
      show (box.modify g).Natural
      rw [hb.modify_eq]
      exact fun _ _ => rfl
  | facade => exact hfacade
  | breaker =>
      refine .bind (.bind (.atom _) fun _ => .pure _) fun coupled => ?_
      cases coupled with
      | false => exact fun _ _ => rfl
      | true => exact hfacade

theorem Place.get_natural : ((a.node box f d b).get).Natural := by
  have hbox : box.get.Natural := by
    cases hb <;> exact fun _ _ => rfl
  cases a with
  | box => exact hbox
  | facade => exact .bind hbox fun _ => Prog.act_natural _
  | breaker => exact .atom (.current b.copy)

theorem Work.act_natural (work : Work V) : (work.act (Place.node box f d b)).Natural := by
  induction work with
  | done => exact .pure ()
  | peek k ih =>
      exact .bind (Place.get_natural hb f d b .facade) fun shown =>
        .bind (Place.get_natural hb f d b .breaker) fun copied => ih shown copied
  | set a v rest ih => exact .bind (Place.set_natural hb f d b a v) fun _ => ih
  | modify a inside g rest _ ih => exact .bind (Place.modify_natural hb f d b a _) ih

end Natural

/-! ## The box, the gate and the copy -/

section Fronted

variable [BEq V] {body : P → Prog V P σ ε} {w w' : World V P σ ε} {p : PublisherRef} {f : V → V}
  {b : Breaker} {s s' : Publisher V (Observer V P σ ε)} {last : MemoRef}
  {ds : List SubscriptionRef} {seen : Option V} {c v : V}

/-- The observer that forwards what the facade shows to the copy of a breaker. -/
def forwarder (last : MemoRef) (f : V → V) (copy : PublisherRef) : Routine V P σ ε := fun v =>
  (Node.converting last (Node.pureRoutine f) (Act.publish copy) v).thenRet v

/-- Whether a publisher holds a value and nothing is queued or being delivered. -/
structure Publisher.Rests {O : Type} (s : Publisher V O) (v : V) : Prop where
  current : s.current = v
  pending : s.pending = []
  draining : s.draining = false

/-- The box with its enforcer and the observer that forwards to the copy of a breaker, whose bag
holds `ds`; the facade has told last of `seen`, and the copy holds `c`. -/
structure Fronted (p : PublisherRef) (f : V → V) (b : Breaker) (last : MemoRef)
    (ds : List SubscriptionRef) (seen : Option V) (c : V) (s : Publisher V (Observer V P σ ε))
    (w : World V P σ ε) : Prop where
  found : w.publisher? p = some s
  crew : ∃ i j keeps keeps', s.observers =
    [⟨i, corrector p f, keeps⟩, ⟨j, forwarder last f b.copy, keeps'⟩]
  gate : w.memos.get? last.index = some seen.toList
  copied : ∃ q, w.publisher? b.copy = some q ∧ q.observers = [] ∧ q.Rests c
  coupling : w.bags.get? b.coupling.index = some ds
  apart : b.copy ≠ p

/-- Monitors are nobody's concern. -/
theorem Fronted.same (h : Fronted p f b last ds seen c s w) (hpubs : w'.publishers = w.publishers)
    (hmemos : w'.memos = w.memos) (hbags : w'.bags = w.bags) :
    Fronted p f b last ds seen c s w' := by
  have hfound : ∀ q, w'.publisher? q = w.publisher? q := fun q => by
    rw [World.publisher?, hpubs]
    rfl
  refine ⟨(hfound p).trans h.found, h.crew, hmemos ▸ h.gate, ?_, hbags ▸ h.coupling, h.apart⟩
  rw [hfound]
  exact h.copied

theorem Fronted.enterAll (h : Fronted p f b last ds seen c s w) (ms : List Monitor) :
    Fronted p f b last ds seen c s (w.enterAll ms) := by
  rw [World.enterAll_eq]
  exact h.same rfl rfl rfl

theorem Fronted.leaveAll (h : Fronted p f b last ds seen c s w) (ms : List Monitor) :
    Fronted p f b last ds seen c s (w.leaveAll ms) := by
  rw [World.leaveAll_eq]
  exact h.same rfl rfl rfl

/-- The box changes, and those who are registered stay. -/
theorem Fronted.setBox (h : Fronted p f b last ds seen c s w) (hs : s'.observers = s.observers) :
    Fronted p f b last ds seen c s' (w.setPublisher p s') := by
  refine ⟨World.publisher?_setPublisher_self h.found, hs ▸ h.crew, h.gate, ?_, h.coupling, h.apart⟩
  rw [World.publisher?_setPublisher_ne h.apart.symm]
  exact h.copied

/-- The copy is written. -/
theorem Fronted.write_copy [LawfulBEq V] (h : Fronted p f b last ds seen c s w) (v : V) :
    (Act.publish b.copy v).Returns body w fun _ => Fronted p f b last ds seen v s := by
  obtain ⟨q, hq, hobs, hrests⟩ := h.copied
  refine .publish hq (.alone ((World.publisher?_enterAll _).trans hq) hobs hrests.pending
    hrests.draining fun d => ?_)
  rw [World.enterAll_setPublisher, World.leaveAll_enterAll]
  refine ⟨?_, h.crew, h.gate, ?_, h.coupling, h.apart⟩
  · exact (World.publisher?_setPublisher_ne h.apart).trans h.found
  · exact ⟨_, World.publisher?_setPublisher_self hq, hobs, rfl, hrests.pending, hrests.draining⟩

/-- The forwarding observer is called: the copy hears of what is news to the gate. -/
theorem Fronted.forward [LawfulBEq V] (h : Fronted p f b last ds seen c s w) (v : V) :
    (forwarder last f b.copy v).Ends body w
      (Fronted p f b last ds (some (f v)) (if seen == some (f v) then c else f v) s) := by
  let g : Gate V := ⟨last, f⟩
  have hact : Node.converting last (Node.pureRoutine f) (Act.publish b.copy) v =
      (Act.memo last (g.pass v) >>= fun seen =>
        if seen.any (· == f v) then pure () else Act.publish b.copy (f v) : Act V P σ ε Unit) := rfl
  have hany : seen.toList.any (· == f v) = (seen == some (f v)) := by
    cases seen with
    | none => rfl
    | some u => exact Bool.or_false _
  have hpass : g.pass v seen.toList = [f v] := by
    refine Gate.pass_eq ?_ v
    cases seen with
    | none => exact Or.inl rfl
    | some u => exact Or.inr ⟨u, rfl⟩
  -- the gate holds what it makes of the value, whether it passes that on or not
  have hpassed : Fronted p f b last ds (some (f v)) c s
      { w with memos := w.memos.set last.index (g.pass v seen.toList) } :=
    ⟨h.found, h.crew, (Heap.get?_set_self _ _ _ _ h.gate).trans (congrArg some hpass), h.copied,
      h.coupling, h.apart⟩
  refine Act.Returns.ends (m := Node.converting last _ _ v) ?_ v
  rw [hact]
  refine .bind (.atom (World.perform_memo h.gate (g.pass v)) ?_)
  rw [hany]
  by_cases hv : (seen == some (f v)) = true
  · rw [if_pos hv, if_pos hv]
    exact .pure hpassed
  · rw [if_neg hv, if_neg hv]
    exact hpassed.write_copy (f v)

/-- A publisher whose enforcer has been called with the value held. -/
def Publisher.corrected {O : Type} (s : Publisher V O) (f : V → V) (v : V) : Publisher V O :=
  { s with current := f v, pending := if f v == v then [] else [.emit (f v)] }

/-- The enforcer is called with the value held, which is the last one so far. -/
theorem corrector_ends [LawfulBEq V] (hp : w.publisher? p = some s) (hd : s.draining = true)
    (hcur : s.current = v) (hpend : s.pending = []) {post : World V P σ ε → Prop}
    (hpost : post (w.setPublisher p (s.corrected f v))) : (corrector p f v).Ends body w post := by
  by_cases hv : f v = v
  · have hret : (corrector p f v : Prog V P σ ε) = .ret v :=
      if_neg (by rw [hv, bne_self_eq_false]; exact Bool.false_ne_true)
    have hsame : s.corrected f v = s := by
      rw [Publisher.corrected, if_pos (beq_iff_eq.2 hv), hv, ← hcur, ← hpend]
    rw [hsame, World.setPublisher_self hp] at hpost
    rw [hret]
    exact ⟨w, hpost, fun _ => ⟨[], v, .refl⟩⟩
  · have hact : (corrector p f v : Prog V P σ ε) =
        (Act.report .correcting >>= fun _ => Act.publish p (f v)).thenRet v :=
      if_pos (bne_iff_ne.2 hv)
    have hcommit : s.commit (f v) = some (s.corrected f v) := by
      rw [Publisher.commit, if_neg (fun he => hv ((eq_of_beq he).symm.trans hcur)),
        Publisher.corrected, if_neg (fun he => hv (eq_of_beq he)), hpend]
      rfl
    have hthere := (World.publisher?_enterAll s.monitors).trans hp
    rw [hact]
    refine Act.Returns.ends (.bind (.atom (a := .report .correcting) rfl ?_)) v
    refine .publish hp ⟨s, hthere, Or.inr ⟨_, hcommit, ?_⟩⟩
    refine .busy (World.publisher?_setPublisher_self hthere) hd ?_
    rw [World.enterAll_setPublisher, World.leaveAll_enterAll]
    exact hpost

/-- The enforcer and the forwarding observer are called with the value held. -/
theorem Fronted.round [LawfulBEq V] (h : Fronted p f b last ds seen c s w) (hd : s.draining = true)
    (hcur : s.current = v) (hpend : s.pending = []) {post : World V P σ ε → Prop}
    (hpost : ∀ w', Fronted p f b last ds (some (f v)) (if seen == some (f v) then c else f v)
      (s.corrected f v) w' → post w') : w.Serves body p (s.round v) post := by
  obtain ⟨i, j, keeps, keeps', hcrew⟩ := h.crew
  rw [Publisher.round, hcrew]
  refine .cons (corrector_ends h.found hd hcur hpend (.cons ?_))
  have hqueued : Fronted p f b last ds seen c (s.corrected f v) _ := h.setBox rfl
  obtain ⟨w', hforwarded, hrun⟩ := hqueued.forward v
  exact ⟨w', .nil (hpost w' hforwarded), hrun⟩

/-- The queue is empty and the drain is over. -/
theorem Fronted.drained (h : Fronted p f b last ds seen c s w) (hcur : s.current = v)
    (hpend : s.pending = []) {post : V → World V P σ ε → Prop}
    (hpost : ∀ s' w', Fronted p f b last ds seen c s' w' → s'.Rests v → post v w') :
    w.Drains body p post := by
  refine .done h.found hpend ?_
  rw [hcur]
  exact hpost s.endDrain _ (h.setBox rfl) ⟨hcur, hpend, rfl⟩

/-- A change is delivered, and the correction of it, if it needs one. -/
theorem Fronted.settles [LawfulBEq V] (h : Fronted p f b last ds seen c s w)
    (hf : ∀ v, f (f v) = f v) (hcur : s.current = v) (hpend : s.pending = [.emit v])
    (hd : s.draining = false) {post : V → World V P σ ε → Prop}
    (hpost : ∀ s' w', Fronted p f b last ds (some (f v))
      (if seen == some (f v) then c else f v) s' w' → s'.Rests (f v) → post (f v) w') :
    w.Settles body p post := by
  have hstart : Fronted p f b last ds seen c { s with draining := true } _ := h.setBox rfl
  have hfirst : Publisher.pop { s with draining := true } =
      some (.round (s.round v), { s with delivered := v, pending := [], draining := true }) := by
    simp [Publisher.pop, hpend, Publisher.round]
  refine .of_drains h.found hd (.next hstart.found hfirst ?_)
  have htaken : Fronted p f b last ds seen c
      { s with delivered := v, pending := [], draining := true } _ := hstart.setBox rfl
  refine htaken.round rfl hcur rfl fun w₁ h₁ => ?_
  by_cases hv : (f v == v) = true
  · exact h₁.drained rfl (if_pos hv) hpost
  · -- the correction is delivered, too, and it is accepted
    let s₁ : Publisher V (Observer V P σ ε) :=
      { s with current := f v, delivered := f v, pending := [], draining := true }
    have hsecond : Publisher.pop (Publisher.corrected
        { s with delivered := v, pending := [], draining := true } f v) =
        some (.round (s₁.round (f v)), s₁) := by
      simp [Publisher.pop, Publisher.corrected, hv, Publisher.round, s₁]
    have hnext : Fronted p f b last ds (some (f v)) (if seen == some (f v) then c else f v) s₁ _ :=
      h₁.setBox rfl
    refine .next h₁.found hsecond (hnext.round rfl rfl rfl fun w₂ h₂ => ?_)
    rw [hf, if_pos BEq.rfl] at h₂
    exact h₂.drained (hf v) (if_pos (beq_iff_eq.2 (hf v))) hpost

end Fronted

/-! ## At rest -/

section Faced

variable [BEq V] {body : P → Prog V P σ ε} {w w' : World V P σ ε} {p : PublisherRef} {f : V → V}
  {b : Breaker} {x : Reading V}

/-- A facade and a closed breaker in front of it, with nothing under way. -/
def Faced (p : PublisherRef) (f : V → V) (b : Breaker) (x : Reading V) (w : World V P σ ε) : Prop :=
  ∃ last d ds s, Fronted p f b last (d :: ds) (some x.facade) x.breaker s w ∧ s.Rests x.facade ∧
    f x.facade = x.facade

theorem Faced.enterAll (h : Faced p f b x w) (ms : List Monitor) :
    Faced p f b x (w.enterAll ms) := by
  obtain ⟨last, d, ds, s, hfront, hrests⟩ := h
  exact ⟨last, d, ds, s, hfront.enterAll ms, hrests⟩

theorem Faced.leaveAll (h : Faced p f b x w) (ms : List Monitor) :
    Faced p f b x (w.leaveAll ms) := by
  obtain ⟨last, d, ds, s, hfront, hrests⟩ := h
  exact ⟨last, d, ds, s, hfront.leaveAll ms, hrests⟩

variable [LawfulBEq V]

/-- A value is written to the box. -/
theorem Faced.writes (h : Faced p f b x w) (hf : ∀ v, f (f v) = f v) (v : V) :
    w.Writes body p v fun u w' => u = f v ∧ Faced p f b (x.after f (.box v)) w' := by
  obtain ⟨last, d, ds, s, hfront, hrests, haccepts⟩ := h
  refine ⟨s, hfront.found, ?_⟩
  by_cases hv : (s.current == v) = true
  · obtain rfl : x.facade = v := hrests.current.symm.trans (eq_of_beq hv)
    have hsame : x.after f (.box x.facade) = x := by
      rw [Reading.after, haccepts, if_pos BEq.rfl]
    rw [hsame]
    exact Or.inl ⟨if_pos hv, hrests.current.trans haccepts.symm, last, d, ds, s, hfront, hrests,
      haccepts⟩
  · let s' : Publisher V (Observer V P σ ε) := { s with current := v, pending := [.emit v] }
    have hcommit : s.commit v = some s' := by
      rw [Publisher.commit, if_neg hv, hrests.pending]
      rfl
    have hqueued : Fronted p f b last (d :: ds) (some x.facade) x.breaker s' _ := hfront.setBox rfl
    refine Or.inr ⟨s', hcommit, hqueued.settles hf rfl rfl hrests.draining ?_⟩
    exact fun s'' w' hfront' hrests' => ⟨rfl, last, d, ds, s'', hfront', hrests', hf v⟩

theorem Faced.publish (h : Faced p f b x w) (hf : ∀ v, f (f v) = f v) (v : V) :
    (Act.publish p v).Returns body w fun _ => Faced p f b (x.after f (.box v)) := by
  obtain ⟨last, d, ds, s, hfront, -⟩ := id h
  exact .publish hfront.found (((h.enterAll _).writes hf v).imp fun _ _ hw => hw.2.leaveAll _)

/-- The copy of the breaker is written. -/
theorem Faced.publish_copy (h : Faced p f b x w) (v : V) :
    (Act.publish b.copy v).Returns body w fun _ => Faced p f b { x with breaker := v } := by
  obtain ⟨last, d, ds, s, hfront, hrests⟩ := h
  exact (hfront.write_copy v).imp fun _ _ hcopied => ⟨last, d, ds, s, hcopied, hrests⟩

omit [LawfulBEq V] in
theorem Faced.isCoupled (h : Faced p f b x w) :
    (Node.isCoupled b.coupling).Returns body w fun coupled w' => coupled = true ∧ w' = w := by
  obtain ⟨last, d, ds, s, hfront, -⟩ := h
  refine .bind (.atom (World.perform_bag hfront.coupling id) (.pure ⟨rfl, ?_⟩))
  exact congrArg (fun h => { w with bags := h }) (Heap.set_of_get? _ _ _ hfront.coupling)

variable {box : Node (Routine V P σ ε) .reactive} (hb : box.IsBox p) (hf : ∀ v, f (f v) = f v)
  (d : SubscriptionRef)
include hf

omit [LawfulBEq V] in
/-- A facade corrects what is corrected already. -/
theorem Reading.after_corrected (x : Reading V) (v : V) :
    x.after f (.box (f v)) = x.after f (.box v) := by
  rw [Reading.after, Reading.after, hf]

include hb

/-- A value is written through any of the three. -/
theorem Faced.set (h : Faced p f b x w) (a : Place) (v : V) :
    ((a.node box f d b).set v).Returns body w fun _ => Faced p f b (x.after f (a.write v)) := by
  have hfacade : ∀ {x : Reading V} {w : World V P σ ε}, Faced p f b x w →
      ((Place.facade.node box f d b).set v).Returns body w fun _ =>
        Faced p f b (x.after f (.box v)) := by
    intro x w h
    show (box.set (f v)).Returns body w _
    rw [hb.set_eq, ← Reading.after_corrected hf x v]
    exact h.publish hf (f v)
  cases a with
  | box =>
      show (box.set v).Returns body w _
      rw [hb.set_eq]
      exact h.publish hf v
  | facade => exact hfacade h
  | breaker =>
      refine .bind ((h.publish_copy v).imp fun _ w₁ h₁ => ?_)
      refine .bind (h₁.isCoupled.imp ?_)
      rintro coupled w₂ ⟨rfl, rfl⟩
      exact hfacade h₁

/-- The value is modified through any of the three by something that comes back. -/
theorem Faced.modify {y : Reading V} {v : V} {g : Routine V P σ ε} {inner : Act V P σ ε V}
    (h : Faced p f b x w) (hg : g x.facade = inner.prog) (hnatural : inner.Natural)
    (hinner : ∀ w, Faced p f b x w →
      inner.Returns body w fun u w' => u = v ∧ Faced p f b y w') (a : Place) :
    ((a.node box f d b).modify g).Returns body w fun u w' =>
      u = f v ∧ Faced p f b (y.after f (.box v)) w' := by
  have hamend : ∀ {g : Routine V P σ ε} {inner : Act V P σ ε V} {v : V},
      g x.facade = inner.prog → (∀ w, Faced p f b x w →
        inner.Returns body w fun u w' => u = v ∧ Faced p f b y w') →
      (Act.amend p g).Returns body w fun u w' =>
        u = f v ∧ Faced p f b (y.after f (.box v)) w' := by
    intro g inner v hg hinner
    obtain ⟨last, d, ds, s, hfront, hrests, -⟩ := id h
    refine .amend hfront.found (hrests.current ▸ hg) ((hinner _ (h.enterAll _)).imp ?_)
    rintro u w₁ ⟨rfl, h₁⟩
    exact (h₁.writes hf u).imp fun _ _ hw => ⟨hw.1, hw.2.leaveAll _⟩
  have hfacade : ((Place.facade.node box f d b).modify g).Returns body w fun u w' =>
      u = f v ∧ Faced p f b (y.after f (.box v)) w' := by
    have hwithin : Converter.within ⟨Node.pureRoutine f, Node.pureRoutine f⟩ g x.facade =
        (inner >>= fun u => pure (f u)).prog := by
      obtain ⟨last, -, -, s, -, -, haccepts⟩ := h
      show (g (f x.facade)).bind _ = _
      rw [haccepts, hg]
      exact hnatural.prog_bind f
    show (box.modify _ >>= fun u => pure (f u)).Returns body w _
    rw [hb.modify_eq]
    have hcorrected : ∀ w, Faced p f b x w → (inner >>= fun u => pure (f u)).Returns body w
        fun u w' => u = f v ∧ Faced p f b y w' := fun w h =>
      .bind ((hinner w h).imp fun u w' hu => .pure ⟨congrArg f hu.1, hu.2⟩)
    refine .bind ((hamend hwithin hcorrected).imp fun u w' hu => .pure ⟨?_, ?_⟩)
    · rw [hu.1, hf, hf]
    · exact Reading.after_corrected hf y v ▸ hu.2
  cases a with
  | box =>
      show (box.modify g).Returns body w _
      rw [hb.modify_eq]
      exact hamend hg hinner
  | facade => exact hfacade
  | breaker =>
      refine .bind (h.isCoupled.imp ?_)
      rintro coupled w₂ ⟨rfl, rfl⟩
      exact hfacade

omit hf [LawfulBEq V] in
/-- A facade reads as the correction of what the box holds. -/
theorem facade_reads {s : Publisher V (Observer V P σ ε)} (hp : w.publisher? p = some s) :
    (box.enforced (Node.pureRoutine f) d).get.Reads body w (f s.current) :=
  (hb.reads hp).map f

omit hf [LawfulBEq V] in
/-- Reading the facade and the breaker. -/
theorem Faced.peek {α : Type} {k : V → V → Act V P σ ε α} {post : α → World V P σ ε → Prop}
    (h : Faced p f b x w) (hk : (k x.facade x.breaker).Returns body w post) :
    (do
      let shown ← (Place.facade.node box f d b).get
      let copied ← (Place.breaker.node box f d b).get
      k shown copied : Act V P σ ε α).Returns body w post := by
  obtain ⟨last, _, _, s, hfront, hrests, haccepts⟩ := h
  obtain ⟨q, hq, -, hcopy⟩ := hfront.copied
  refine .bind (.of_reads (facade_reads hb d hfront.found) (.bind ?_))
  refine .of_reads (.current hq) ?_
  rw [hrests.current, haccepts, hcopy.current]
  exact hk

/-- Some work leaves what the values written make of what was shown before. -/
theorem Faced.work (work : Work V) (h : Faced p f b x w) :
    (work.act (Place.node box f d b)).Returns body w fun _ =>
      Faced p f b ((work.writes f x).foldl (Reading.after f) x) := by
  induction work generalizing x w with
  | done => exact .pure h
  | peek k ih => exact h.peek hb d (ih _ _ h)
  | set a v rest ih => exact .bind ((h.set hb hf d a v).imp fun _ _ hset => ih hset)
  | modify a inside g rest ihinside ih =>
      let u := x.facade
      let y := ((inside u).writes f x).foldl (Reading.after f) x
      let inner : Act V P σ ε V :=
        (inside u).act (Place.node box f d b) >>= fun _ => pure (g u)
      have hnatural : inner.Natural := .bind (Work.act_natural hb f d b _) fun _ => .pure _
      have hinner : ∀ w, Faced p f b x w → inner.Returns body w fun v w' =>
          v = g u ∧ Faced p f b y w' := fun w h =>
        .bind ((ihinside u h).imp fun _ _ hy => .pure ⟨rfl, hy⟩)
      refine .bind ((h.modify hb hf d rfl hnatural hinner a).imp ?_)
      rintro v w' ⟨rfl, hw'⟩
      have hwritten : ((inside u).writes f x ++ [Write.box (g u)]).foldl (Reading.after f) x =
          y.after f (.box (g u)) := List.foldl_append
      rw [Work.writes, List.foldl_append, hwritten]
      exact ih (f (g u)) hw'

end Faced

/-! ## Putting them in place -/

section Creation

variable [BEq V] [LawfulBEq V] {body : P → Prog V P σ ε} {w w' : World V P σ ε} {p : PublisherRef}
  {f : V → V} {s : Publisher V (Observer V P σ ε)} {c : V}
  {box : Node (Routine V P σ ε) .reactive} (hb : box.IsBox p) (d : SubscriptionRef)

/-- The box with its enforcer, at rest. -/
def Enforced (p : PublisherRef) (f : V → V) (c : V) (w : World V P σ ε) : Prop :=
  ∃ s i keeps, w.publisher? p = some s ∧ s.observers = [⟨i, corrector p f, keeps⟩] ∧ s.Rests c ∧
    s.delivered = c ∧ f c = c

include hb

/-- A box without observers is given an enforcer, which corrects the value held. -/
theorem enforce_returns (hf : ∀ v, f (f v) = f v) (hp : w.publisher? p = some s)
    (hobs : s.observers = []) (hrests : s.Rests c) (hd : s.delivered = c) :
    (Enforcer.enforce box (Node.pureRoutine f)).Returns body w fun _ => Enforced p f (f c) := by
  let o : Observer V P σ ε := ⟨corrector p f, box.publishers⟩
  let draining : Publisher V (Observer V P σ ε) := { s.enqueue o with draining := true }
  let called : Publisher V (Observer V P σ ε) :=
    { draining with observers := [⟨s.nextId, o⟩], pending := [] }
  have hfound : ∀ s', ((w.enterAll s.monitors).setPublisher p s').publisher? p = some s' := fun s' =>
    World.publisher?_enterAll_setPublisher hp
  have hreplay : draining.pop = some (.replay ⟨s.nextId, c, o⟩ 1, called) := by
    simp [Publisher.pop, Publisher.enqueue, draining, called, hrests.pending, hobs, hd]
  -- whatever the drain ends with, the subscription is handed out
  have hend : ∀ s' : Publisher V (Observer V P σ ε), s'.observers = [⟨s.nextId, o⟩] →
      s'.Rests (f c) → s'.delivered = f c →
      let w' := ((w.enterAll s.monitors).setPublisher p s').leaveAll s.monitors
      let after := w'.newSubscription (some (.detach p s.nextId))
      (Act.report .enforcerAttached >>= fun _ => pure after.1 :
        Act V P σ ε SubscriptionRef).Returns body after.2 fun _ => Enforced p f (f c) := by
    intro s' hobs' hrests' hd'
    rw [World.enterAll_setPublisher, World.leaveAll_enterAll]
    refine .bind (.atom (a := .report .enforcerAttached) rfl
      (.pure ⟨s', s.nextId, box.publishers, ?_⟩))
    exact ⟨World.publisher?_setPublisher_self hp, hobs', hrests', hd', hf c⟩
  show (box.subscribe box.publishers (Enforcer.correct box (Node.pureRoutine f)) >>= _).Returns body
    w _
  rw [hb.subscribe_eq]
  refine .bind (.attach hp (.of_drains (hfound _) hrests.draining ?_))
  rw [World.setPublisher_setPublisher, correct_eq hb]
  refine .next (hfound draining) hreplay (.cons ?_)
  rw [World.setPublisher_setPublisher]
  refine corrector_ends (hfound called) rfl hrests.current rfl (.nil ?_)
  rw [World.setPublisher_setPublisher]
  by_cases hc : (f c == c) = true
  · refine .done (hfound _) (if_pos hc) ?_
    rw [World.setPublisher_setPublisher]
    exact hend _ rfl ⟨rfl, if_pos hc, rfl⟩ (hd.trans (eq_of_beq hc).symm)
  · -- the correction is delivered, too, and it is accepted
    let again : Publisher V (Observer V P σ ε) :=
      { called with current := f c, delivered := f c, pending := [] }
    have hpop : (called.corrected f c).pop = some (.round (again.round (f c)), again) := by
      simp [Publisher.pop, Publisher.corrected, hc, Publisher.round, again, called]
    refine .next (hfound _) hpop (.cons ?_)
    rw [World.setPublisher_setPublisher]
    refine corrector_ends (hfound again) rfl rfl rfl (.nil ?_)
    rw [World.setPublisher_setPublisher]
    have hnone : (again.corrected f (f c)).pending = [] := if_pos (beq_iff_eq.2 (hf c))
    refine .done (hfound _) hnone ?_
    rw [World.setPublisher_setPublisher]
    exact hend _ rfl ⟨hf c, hnone, rfl⟩ rfl

/-- A breaker that is open is closed. -/
theorem close_returns {b : Breaker} (hp : w.publisher? p = some s)
    (hobs : ∃ i keeps, s.observers = [⟨i, corrector p f, keeps⟩]) (hrests : s.Rests c)
    (hd : s.delivered = c) (hc : f c = c) (hcopy : w.publisher? b.copy = some (.new none c))
    (hbag : w.bags.get? b.coupling.index = some []) (hapart : b.copy ≠ p) :
    (b.close (box.enforced (Node.pureRoutine f) d)).Returns body w fun _ => Faced p f b ⟨c, c⟩ := by
  obtain ⟨i, keeps, hobs⟩ := hobs
  let last : MemoRef := ⟨w.memos.size⟩
  let w₁ : World V P σ ε := { w with memos := w.memos.alloc [] }
  let o : Observer V P σ ε := ⟨forwarder last f b.copy, [b.copy]⟩
  let draining : Publisher V (Observer V P σ ε) := { s.enqueue o with draining := true }
  let called : Publisher V (Observer V P σ ε) := { draining with
    observers := [⟨i, corrector p f, keeps⟩, ⟨s.nextId, o⟩], pending := [] }
  have hbox : w₁.publisher? p = some s := hp
  have hfound : ∀ s', ((w₁.enterAll s.monitors).setPublisher p s').publisher? p = some s' := fun s' =>
    World.publisher?_enterAll_setPublisher hbox
  have hreplay : draining.pop = some (.replay ⟨s.nextId, c, o⟩ 2, called) := by
    simp [Publisher.pop, Publisher.enqueue, draining, called, hrests.pending, hobs, hd]
  have hcalled : Fronted p f b last [] none c called (w₁.setPublisher p called) := by
    refine ⟨World.publisher?_setPublisher_self hbox, ⟨i, s.nextId, keeps, [b.copy], rfl⟩,
      Heap.get?_alloc_self _ _, ?_, hbag, hapart⟩
    rw [World.publisher?_setPublisher_ne hapart.symm]
    exact ⟨_, hcopy, rfl, rfl, rfl, rfl⟩
  have hentered : Fronted p f b last [] none c called
      ((w₁.enterAll s.monitors).setPublisher p called) := by
    rw [World.enterAll_setPublisher]
    exact hcalled.enterAll _
  -- the copy is pushed into the facade, which shows it already
  have hpush : ((box.enforced (Node.pureRoutine f) d).set c).Returns body w fun _ w' => w' = w := by
    show (box.set (f c)).Returns body w _
    rw [hb.set_eq, hc]
    refine .publish hp ⟨s, (World.publisher?_enterAll _).trans hp, Or.inl ⟨?_, ?_⟩⟩
    · exact if_pos (beq_iff_eq.2 hrests.current)
    · exact World.leaveAll_enterAll _ _
  refine .bind (.atom (World.perform_current hcopy) (.bind (hpush.imp ?_)))
  rintro _ w' rfl
  show (Act.newMemo [] >>= fun last => box.subscribe [b.copy] _ >>= _).Returns body w' _
  refine .bind (.atom (a := .newMemo []) rfl ?_)
  rw [hb.subscribe_eq]
  refine .bind (.attach hbox (.of_drains (hfound _) hrests.draining ?_))
  rw [World.setPublisher_setPublisher]
  refine .next (hfound draining) hreplay (.cons ?_)
  rw [World.setPublisher_setPublisher]
  obtain ⟨w₂, hforwarded, hrun⟩ := hentered.forward c
  refine ⟨w₂, .nil (hforwarded.drained hrests.current rfl fun s' w₃ hrest hrests' => ?_), hrun⟩
  rw [hc, ite_self] at hrest
  have hleft : Fronted p f b last [] (some c) c s'
      ((w₃.leaveAll s.monitors).newSubscription (some (.detach p s.nextId))).2 :=
    (hrest.leaveAll s.monitors).same rfl rfl rfl
  refine .bind (.atom (World.perform_bag hleft.coupling _)
    (.atom (a := .report .breakerClosed) rfl ?_))
  exact ⟨last, _, [], s', ⟨hleft.found, hleft.crew, hleft.gate, hleft.copied,
    Heap.get?_set_self _ _ _ _ hleft.coupling, hapart⟩, hrests', hc⟩

/-- A breaker is created closed in front of the facade. -/
theorem createClosed_returns (h : Enforced p f c w) :
    (Breaker.createClosed (box.enforced (Node.pureRoutine f) d)).Returns body w fun b =>
      Faced p f b ⟨c, c⟩ := by
  obtain ⟨s, i, keeps, hp, hobs, hrests, hd, hc⟩ := h
  let b : Breaker := ⟨⟨w.publishers.size⟩, ⟨w.bags.size⟩⟩
  let w₁ : World V P σ ε :=
    { w with publishers := w.publishers.alloc (.new none c), bags := w.bags.alloc [] }
  have hbag : w₁.bags.get? b.coupling.index = some [] := Heap.get?_alloc_self _ _
  have hbox : w₁.publisher? p = some s := Heap.get?_alloc_of_some _ _ _ _ hp
  have hcopy : w₁.publisher? b.copy = some (.new none c) := Heap.get?_alloc_self _ _
  have hapart : b.copy ≠ p := by
    rintro rfl
    exact nomatch (Heap.get?_size w.publishers).symm.trans hp
  have hshut : b.setClosed (box.enforced (Node.pureRoutine f) d) true =
      (b.isClosed >>= fun closed => if closed then pure () else
        b.close (box.enforced (Node.pureRoutine f) d) : Act V P σ ε Unit) :=
    congrArg (b.isClosed >>= ·) (funext fun closed => by cases closed <;> rfl)
  have hfalse : b.isClosed.Returns body w₁ fun closed w' => closed = false ∧ w' = w₁ := by
    refine .bind (.atom (World.perform_bag hbag id) (.pure ⟨rfl, ?_⟩))
    exact congrArg (fun h => { w₁ with bags := h }) (Heap.set_of_get? _ _ _ hbag)
  refine .bind (.of_reads (facade_reads hb d hp) ?_)
  rw [hrests.current, hc]
  refine .bind (.bind (.atom (a := .newPublisher none c) rfl (.bind (.atom (a := .newBag) rfl
    (.pure ?_)))))
  refine .bind ?_
  show (b.setClosed _ true).Returns body w₁ _
  rw [hshut]
  refine .bind (hfalse.imp ?_)
  rintro closed w' ⟨rfl, rfl⟩
  have hclosed : (b.close (box.enforced (Node.pureRoutine f) d)).Returns body _ fun _ =>
      Faced p f b ⟨c, c⟩ := close_returns hb d hbox ⟨i, keeps, hobs⟩ hrests hd hc hcopy hbag hapart
  exact hclosed.imp fun _ w' hfaced => .pure hfaced

end Creation

/-! ## What both show -/

section Level

variable [BEq V] [LawfulBEq V] {body : P → Prog V P σ ε} {w : World V P σ ε} {p : PublisherRef}
  {f : V → V} {s : Publisher V (Observer V P σ ε)} {box : Node (Routine V P σ ε) .reactive}

omit [LawfulBEq V] in
/-- A write leaves both the same, unless it writes to the breaker what needs a correction that is
shown already. -/
theorem Reading.after_level [LawfulBEq V] {x : Reading V} (h : x.facade = x.breaker)
    (a : Write V) : (x.after f a).facade = (x.after f a).breaker ↔
      ∀ v, a = .breaker v → x.facade = f v → v = f v := by
  cases a with
  | box v =>
      refine iff_of_true ?_ nofun
      show f v = if x.facade == f v then x.breaker else f v
      split
      · next hv => rw [← h, eq_of_beq hv]
      · rfl
  | breaker v =>
      show (f v = if x.facade == f v then v else f v) ↔ _
      constructor
      · intro hlevel u hu hshown
        cases hu
        rw [if_pos (beq_iff_eq.2 hshown)] at hlevel
        exact hlevel.symm
      · intro hcorrect
        split
        · next hv => exact (hcorrect v rfl (eq_of_beq hv)).symm
        · rfl

theorem Reading.foldl_level {ws : List (Write V)} {x : Reading V} (h : x.facade = x.breaker)
    (hcorrect : ∀ us v, us ++ [.breaker v] <+: ws → (us.foldl (Reading.after f) x).facade = f v →
      v = f v) :
    (ws.foldl (Reading.after f) x).facade = (ws.foldl (Reading.after f) x).breaker := by
  induction ws generalizing x with
  | nil => exact h
  | cons a ws ih =>
      refine ih ((Reading.after_level h a).2 ?_) fun us v hus => hcorrect (a :: us) v ?_
      · rintro v rfl
        exact hcorrect [] v (List.prefix_append [_] ws)
      · exact List.cons_prefix_cons.2 ⟨rfl, hus⟩

/-- A breaker over a facade is created closed whatever the box holds, every call comes back, and
what the two show at the end is what the values written make of it, one after another. After every
one of them the two show the same, exactly if the breaker is never written a value whose correction
is shown already and which is not that correction itself. -/
theorem breaker_over_facade (hb : box.IsBox p) (hp : w.publisher? p = some s)
    (hobs : s.observers = []) (hrests : s.Rests s.delivered) (hf : ∀ v, f (f v) = f v)
    (work : Work V) :
    let start : Reading V := ⟨f s.delivered, f s.delivered⟩
    let written := work.writes f start
    (workThrough box f work).Returns body w (fun seen _ =>
      seen = written.foldl (Reading.after f) start) ∧
    ((∀ ws, ws <+: written → let x := ws.foldl (Reading.after f) start; x.facade = x.breaker) ↔
      ∀ ws v, ws ++ [.breaker v] <+: written →
        (ws.foldl (Reading.after f) start).facade = f v → v = f v) := by
  intro start written
  refine ⟨?_, ?_⟩
  · refine .bind ((enforce_returns hb hf hp hobs hrests rfl).imp fun d w₁ henforced => ?_)
    refine .bind ((createClosed_returns hb d henforced).imp fun b w₂ hfaced => ?_)
    refine .bind ((hfaced.work hb hf d work).imp fun _ w₃ hdone => ?_)
    exact hdone.peek hb d (.pure rfl)
  · constructor
    · intro hlevel ws v hws
      have hbefore := hlevel ws ((List.prefix_append ws _).trans hws)
      have hafter := hlevel (ws ++ [.breaker v]) hws
      rw [List.foldl_append] at hafter
      exact (Reading.after_level hbefore (.breaker v)).1 hafter v rfl
    · intro hcorrect ws hws
      exact Reading.foldl_level rfl fun us v hus => hcorrect us v (hus.trans hws)

end Level

/-- The facade shows 10 at most. The breaker is written 15 while it shows 10, and keeps the 15. -/
theorem breaker_over_facade_full :
    ∃ w : World Nat Empty Unit Unit,
      (workThrough (.rx ⟨0⟩) (min · 10) (.set .breaker 15 .done)).Returns nofun w fun seen _ =>
        seen = ⟨10, 15⟩ := by
  let w₀ : World Nat Empty Unit Unit := World.new ()
  let w₁ : World Nat Empty Unit Unit := { w₀ with publishers := .alloc .empty (.new none 10) }
  have hp : w₁.publisher? ⟨0⟩ = some (.new none 10) := rfl
  have hcap : ∀ v : Nat, min (min v 10) 10 = min v 10 := fun v => by omega
  exact ⟨w₁, (breaker_over_facade .rx hp rfl ⟨rfl, rfl, rfl⟩ hcap (.set .breaker 15 .done)).1⟩

end ReactiveCells
