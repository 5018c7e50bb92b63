import ReactiveCells.Proofs.Comparing
import ReactiveCells.Proofs.Returning

/-!
# Kinds — every container is one cell

A container without more than `get` and `set` reads, computes and writes; an atomic cell retries; a
guarded one stays inside its lock; a publisher drops writes that change nothing and reads again
after its observers have been called. Clients that read, write and modify cannot tell which of them
they work on: each call yields what it yields on a plain cell, of which a view reads through its
conversion and writes through the reverse one, and leaves there what it leaves in that cell.

For publishers this is due to the observers, who may do as they like but write to the publisher or
panic. Two things are to be said then. Whatever comes back has the right value; this needs nothing
but that no observer's write and no panic was on the way (`Node.Unwritten`). And calls come back if
the observers do (`Node.Heard`).

Main statements: `Handing.run` (a write that observers keep away from), `Bystanders.settles` (a
drain of observers that come back), `Ready.set` and `Ready.modify`, and `kinds_agree`.
-/

namespace ReactiveCells

variable {ι V P σ ε : Type}

/-! ## Calls and what they come to on a plain cell -/

/-- A call of a container or a view, with a function that does nothing but compute. -/
inductive Access (V : Type) where
  | get
  | set (v : V)
  | modify (f : V → V)

/-- What a call yields and what it leaves if there is but one cell, seen through a converter. To
modify is to get, to set what the function makes of it, and to get again. A call of `set` yields
nothing, for which the value stands that is set. -/
def Access.apply (c : Converter (V → V)) (x : V) : Access V → V × V
  | .get => (c.forward x, x)
  | .set v => (v, c.backward v)
  | .modify f => (c.forward (c.backward (f (c.forward x))), c.backward (f (c.forward x)))

/-- What calls through one view or another yield, each with the value of the cell after it. -/
def Access.results (views : ι → List (Converter (V → V))) : V → List (ι × Access V) → List (V × V)
  | _, [] => []
  | x, (i, a) :: calls =>
      a.apply (Converter.fused (views i)) x ::
        results views (a.apply (Converter.fused (views i)) x).2 calls

/-- The program that makes a call on a container or a view. -/
def Access.prog {k : Kind} (n : Node (Routine V P σ ε) k) : Access V → Prog V P σ ε
  | .get => n.get.prog
  | .set v => (n.set v).thenRet v
  | .modify f => (n.modify (Node.pureRoutine f)).prog

/-- The same call on the root of views, through one converter. -/
def Access.direct {k : Kind} (c : Converter (V → V)) (n : Node (Routine V P σ ε) k) :
    Access V → Prog V P σ ε
  | .get => n.get fun x => .ret (c.forward x)
  | .set v => n.set (c.backward v) fun _ => .ret v
  | .modify f =>
      n.modify (Node.pureRoutine fun x => c.backward (f (c.forward x))) fun y => .ret (c.forward y)

/-- A call through a chain of views is a call on the root. -/
theorem Access.prog_chain {k : Kind} (n : Node (Routine V P σ ε) k)
    (cs : List (Converter (V → V))) (a : Access V) :
    a.prog (n.chain cs) = a.direct (Converter.fused cs) n := by
  have hfuse := Node.fuses_chain n cs
  cases a with
  | get => exact congrFun hfuse.get _
  | set v => exact congrFun (congrFun hfuse.set v) _
  | modify f => exact congrFun (congrFun hfuse.modify _) _

namespace Node

/-- The containers that are not made of others. -/
inductive IsBase {F : Type} : {k : Kind} → Node F k → Prop where
  | plain (c : CellRef) : IsBase (.plain c)
  | swap (c : CellRef) : IsBase (.swap c)
  | guarded (l : LockId) (c : CellRef) : IsBase (.guarded l c)
  | rx (p : PublisherRef) : IsBase (.rx p)
  | rxGuarded (l : LockId) (p : PublisherRef) : IsBase (.rxGuarded l p)

/-- The value that a container holds, or the root of a view. -/
def stored? (w : World V P σ ε) : {k : Kind} → Node (Routine V P σ ε) k → Option V
  | _, .plain c | _, .swap c | _, .guarded _ c => (w.cell? c).map (·.value)
  | _, .rx p | _, .rxGuarded _ p => (w.publisher? p).map (·.current)
  | _, .view root _ | _, .enforced root _ _ => root.stored? w
  | _, .breaker _ copy _ => (w.publisher? copy).map (·.current)

/-- Whether no panic is under way and no observer is about to write to the publishers of a node. -/
def Unwritten {F : Type} {k : Kind} (n : Node F k) (t : Thread V P σ ε) : Prop :=
  t.Calm ∧ ∀ p ∈ n.publishers, ∀ v, Thread.Writes p v t → ∀ o, .observe o ∉ t.stack

end Node

section Handing

variable [BEq V] {body : P → Prog V P σ ε} {w w' : World V P σ ε} {t t' : Thread V P σ ε}
  {es : List (Event V ε)} {p : PublisherRef} {s : Publisher V (Observer V P σ ε)}
  {k : Routine V P σ ε} {y z u : V}

/-! ## A write that observers keep away from -/

/-- A thread that has written `y` to a publisher: it hands the change out, leaves monitors, and goes
on with the value held. -/
inductive Handing (p : PublisherRef) (k : Routine V P σ ε) (y : V) : Thread V P σ ε → Prop where
  | drain (ms : List Monitor) : Handing p k y ⟨.drain p, ms.map .leave ++ [.resume k]⟩
  | deliver (u : V) (calls : List (Call V (Observer V P σ ε))) (ms : List Monitor) :
      Handing p k y ⟨.run (.ret u), .deliver p calls :: (ms.map .leave ++ [.resume k])⟩
  /-- An observer has been called. -/
  | observe (t : Thread V P σ ε) (o : Observer V P σ ε)
      (calls : List (Call V (Observer V P σ ε))) (ms : List Monitor) :
      Handing p k y (t.over (.observe o :: .deliver p calls :: (ms.map .leave ++ [.resume k])))
  | back (ms : List Monitor) : Handing p k y ⟨.run (.ret y), ms.map .leave ++ [.resume k]⟩
  | done : Handing p k y ⟨.run (k y), []⟩

omit [BEq V] in
/-- Nobody writes but observers. -/
theorem Handing.not_writes (h : Handing p k y t) (hk : k y = .ret z)
    (hobs : ∀ v, Thread.Writes p v t → ∀ o, .observe o ∉ t.stack) (v : V) :
    ¬ Thread.Writes p v t := by
  intro hwrites
  cases h with
  | drain | deliver => cases hwrites
  | observe t o => exact hobs v hwrites o (List.mem_append_right _ List.mem_cons_self)
  | back ms => cases ms <;> cases hwrites
  | done =>
      rw [hk] at hwrites
      cases hwrites

/-- The change is handed out further, and the value stays what it is. -/
theorem Handing.move (h : Handing p k y t) (hk : k y = .ret z) (hp : w.publisher? p = some s)
    (hcur : s.current = y) (hcalm : t.Calm)
    (hobs : ∀ v, Thread.Writes p v t → ∀ o, .observe o ∉ t.stack)
    (hm : Thread.Moves body w t es w' t') :
    Handing p k y t' ∧ ∃ s', w'.publisher? p = some s' ∧ s'.current = y := by
  obtain ⟨s', hs', hv⟩ := hm.view hp
  have hsame : s'.current = s.current :=
    hv.current_eq fun v hcommit => h.not_writes hk hobs v (hm.writes hcommit)
  refine ⟨?_, s', hs', hsame.trans hcur⟩
  cases h with
  | drain ms =>
      cases hm with
      | busy hp' =>
          obtain rfl := Option.some.inj (hp.symm.trans hp')
          exact hcur ▸ .back ms
      | draining => exact .deliver _ [] ms
  | deliver u calls ms =>
      cases hm with
      | @called _ _ c calls => exact .observe ⟨_, []⟩ _ calls ms
      | popped => exact .deliver u _ ms
      | drained hp' =>
          obtain rfl := Option.some.inj (hp.symm.trans hp')
          exact hcur ▸ .back ms
  | observe t o calls ms =>
      -- an observer runs on top and keeps away from the publisher, or it has come back
      rcases hm.above hcalm with ⟨t₁, rfl, -⟩ | ⟨v, -, hback⟩
      · exact .observe t₁ o calls ms
      · cases hback with
        | observed => exact .deliver v calls ms
  | back ms =>
      cases ms with
      | nil =>
          cases hm with
          | resumed => exact .done
      | cons m ms =>
          cases hm with
          | left => exact .back ms
  | done =>
      rw [hk] at hm
      exact nomatch hm.step

/-- A change that is handed out is the value in the end. -/
theorem Handing.run {n : Node (Routine V P σ ε) .reactive} (hn : p ∈ n.publishers)
    (h : Handing p k y t) (hk : k y = .ret z) (hp : w.publisher? p = some s)
    (hcur : s.current = y) (hok : n.Unwritten t)
    (hrun : Run body (fun _ => False) n.Unwritten w t es w' ⟨.run (.ret u), []⟩) :
    u = z ∧ ∃ s', w'.publisher? p = some s' ∧ s'.current = y := by
  have hall : ∀ {es w' t'}, Run body (fun _ => False) n.Unwritten w t es w' t' →
      n.Unwritten t' ∧ Handing p k y t' ∧ ∃ s', w'.publisher? p = some s' ∧ s'.current = y := by
    intro es w' t' hrun
    induction hrun with
    | refl => exact ⟨hok, h, s, hp, hcur⟩
    | step _ hstep hok' ih =>
        obtain ⟨⟨hcalm, hobs⟩, hhanding, s₁, hs₁, hcur₁⟩ := ih
        exact ⟨hok', hhanding.move hk hs₁ hcur₁ hcalm (hobs p hn) (Thread.moves_iff.2 hstep)⟩
    | next _ _ hc _ _ => exact hc.elim
  obtain ⟨-, hend, hs'⟩ := hall hrun
  refine ⟨?_, hs'⟩
  generalize ht : (⟨.run (.ret u), []⟩ : Thread V P σ ε) = t' at hend
  cases hend with
  | drain => exact nomatch (Thread.mk.inj ht).1
  | deliver => exact nomatch (Thread.mk.inj ht).2
  | observe t => exact absurd (Thread.mk.inj ht).2 (by simp)
  | back ms => exact absurd (Thread.mk.inj ht).2 (by simp)
  | done =>
      have hret : (.ret u : Prog V P σ ε) = k y := Focus.run.inj (Thread.mk.inj ht).1
      exact Prog.ret.inj (hret.trans hk)

variable [LawfulBEq V] {n : Node (Routine V P σ ε) .reactive}

/-- A value that is set is the value in the end. -/
theorem Node.publish_unwritten (hn : p ∈ n.publishers) (hp : w.publisher? p = some s)
    (hrun : Run body (fun _ => False) n.Unwritten w (.start (.publish p y (.ret z))) es w'
      ⟨.run (.ret u), []⟩) :
    u = z ∧ ∃ s', w'.publisher? p = some s' ∧ s'.current = y := by
  rcases hrun.first with ⟨-, -, hend⟩ | ⟨w₁, t₁, es₁, es₂, hstep, hok, -, hrest⟩
  · exact nomatch (Thread.mk.inj hend).1
  · have hm : Thread.Moves body w ⟨.run (.publish p y (.ret z)), []⟩ es₁ w₁ t₁ :=
      Thread.moves_iff.2 hstep
    cases hm with
    | publishedSame hp' hc =>
        obtain rfl := Option.some.inj (hp.symm.trans hp')
        obtain rfl : s.current = y := eq_of_beq ((Publisher.commit_eq_none_iff s y).1 hc)
        exact (Handing.back s.monitors).run hn rfl ((World.publisher?_enterAll _).trans hp) rfl hok
          hrest
    | published hp' hc =>
        obtain rfl := Option.some.inj (hp.symm.trans hp')
        exact (Handing.drain s.monitors).run hn rfl (World.publisher?_enterAll_setPublisher hp)
          (Publisher.timeline_commit hc).2 hok hrest

/-- What a function makes of the value is the value in the end. -/
theorem Node.amend_unwritten {g h : V → V} (hn : p ∈ n.publishers) (hp : w.publisher? p = some s)
    (hrun : Run body (fun _ => False) n.Unwritten w
      (.start (.amend p (Node.pureRoutine g) fun y => .ret (h y))) es w' ⟨.run (.ret u), []⟩) :
    u = h (g s.current) ∧ ∃ s', w'.publisher? p = some s' ∧ s'.current = g s.current := by
  rcases hrun.first with ⟨-, -, hend⟩ | ⟨w₁, t₁, es₁, es₂, hstep, -, -, hrest⟩
  · exact nomatch (Thread.mk.inj hend).1
  · have hm : Thread.Moves body w ⟨.run (.amend p (Node.pureRoutine g) fun y => .ret (h y)), []⟩
        es₁ w₁ t₁ := Thread.moves_iff.2 hstep
    cases hm with
    | @amending _ _ _ s₁ _ hp' =>
        obtain rfl := Option.some.inj (hp.symm.trans hp')
        have hthere := (World.publisher?_enterAll s.monitors).trans hp
        rcases hrest.first with ⟨-, -, hend⟩ | ⟨w₂, t₂, es₃, es₄, hstep', hok, -, hrest'⟩
        · exact nomatch (Thread.mk.inj hend).2
        · have hm' : Thread.Moves body (w.enterAll s.monitors) ⟨.run (.ret (g s.current)),
              .commit p :: s.leaving ++ [.resume fun y => .ret (h y)]⟩ es₃ w₂ t₂ :=
            Thread.moves_iff.2 hstep'
          cases hm' with
          | amendedSame hp₁ hc =>
              obtain rfl := Option.some.inj (hthere.symm.trans hp₁)
              have heq : s.current = g s.current :=
                eq_of_beq ((Publisher.commit_eq_none_iff s _).1 hc)
              refine Handing.run (k := fun y => .ret (h y)) hn ?_ rfl hthere heq hok hrest'
              exact heq ▸ .back s.monitors
          | amended hp₁ hc =>
              obtain rfl := Option.some.inj (hthere.symm.trans hp₁)
              exact (Handing.drain s.monitors).run hn rfl
                (World.publisher?_setPublisher_self hthere) (Publisher.timeline_commit hc).2 hok
                hrest'

end Handing

/-! ## Observers that come back -/

section Resting

variable [BEq V] {body : P → Prog V P σ ε} {w : World V P σ ε} {p : PublisherRef}
  {s : Publisher V (Observer V P σ ε)} {passive : Observer V P σ ε → Prop}
  {worlds : Nat → World V P σ ε → Prop} {x : V} {n : Nat}

/-- A publisher that holds `x`, with nothing under way and observers of a given sort. -/
structure Resting (p : PublisherRef) (passive : Observer V P σ ε → Prop)
    (worlds : Nat → World V P σ ε → Prop) (x : V) (s : Publisher V (Observer V P σ ε)) (n : Nat)
    (w : World V P σ ε) : Prop where
  current : s.current = x
  intact : Intact p s w (.start (.ret x))
  observers : ∀ r ∈ s.observers, passive r.observer
  world : worlds n w

/-- Observers that come back without having written anything, whatever is held meanwhile. -/
structure Obliging (body : P → Prog V P σ ε) (p : PublisherRef) (passive : Observer V P σ ε → Prop)
    (worlds : Nat → World V P σ ε → Prop) : Prop where
  bystanders : Bystanders body p [] passive worlds
  steady : ∀ n w h, worlds n w → worlds n { w with held := h }

omit [BEq V] in
theorem Resting.held (h : Resting p passive worlds x s n w)
    (hsteady : ∀ n w h, worlds n w → worlds n { w with held := h }) (ms : Held) :
    Resting p passive worlds x s n { w with held := ms } :=
  ⟨h.current, ⟨h.intact.found, h.intact.orderly, h.intact.lined⟩, h.observers,
    hsteady n w ms h.world⟩

variable [LawfulBEq V]

/-- Where such observers are called a drain comes to its end, and the value held stays. -/
theorem Bystanders.settles (hby : Bystanders body p [] passive worlds)
    (hint : Intact p s w ⟨.drain p, []⟩) (hd : s.draining = false)
    (hobs : ∀ r ∈ s.observers, passive r.observer) (harr : ∀ r ∈ s.arrivals, passive r.observer)
    (hch : ∀ v ∈ s.changes, v = s.current) (hw : worlds n w) :
    w.Settles body p fun u w' => u = s.current ∧
      ∃ s' m, Resting p passive worlds s.current s' m w' := by
  let s₁ : Publisher V (Observer V P σ ε) := { s with draining := true }
  have hbegin : s.beginDrain = some s₁ := if_neg (Bool.eq_false_iff.1 hd)
  have hstart : CalmRun body w ⟨.drain p, []⟩ [] (w.setPublisher p s₁)
      ⟨.run (.ret s.current), [.deliver p []]⟩ :=
    .single (Thread.Moves.draining hint.found hbegin).step trivial
  obtain ⟨s₁', hint₁⟩ := hint.run hstart
  obtain rfl := Option.some.inj
    ((World.publisher?_setPublisher_self hint.found).symm.trans hint₁.found)
  -- there are no invariants to enforce, so all that is queued leads to the value held
  have hconv : Converging p [] [] passive worlds s.current n (w.setPublisher p s₁) s₁ :=
    ⟨⟨nofun, nofun, fun r hr _ => hobs r hr, harr⟩, hby.stable n w s s₁ hw hint.found, hch, rfl⟩
  obtain ⟨es, w', s', m, hrun, hs', hend⟩ := hconv.drain hby ⟨by simp, by simp⟩ hint₁
  obtain ⟨s'', hint'⟩ := hint₁.run hrun
  obtain rfl := Option.some.inj (hs'.symm.trans hint'.found)
  refine ⟨s'.current, w', ⟨hend.current, s', m, hend.current, hint'.next rfl _, ?_, hend.world⟩,
    fun st => ⟨_, CalmRun.over (hstart.trans hrun) st⟩⟩
  exact fun r hr => hend.lineup.others r hr List.not_mem_nil

/-- A write to a publisher at rest comes back to it at rest. -/
theorem Resting.writes (h : Resting p passive worlds x s n w)
    (hby : Bystanders body p [] passive worlds) (y : V) :
    w.Writes body p y fun u w' => u = y ∧ ∃ s' m, Resting p passive worlds y s' m w' := by
  have hint := h.intact.next rfl (.ret y)
  refine ⟨s, hint.found, ?_⟩
  cases hc : s.commit y with
  | none =>
      have hcur : s.current = y := eq_of_beq ((Publisher.commit_eq_none_iff s y).1 hc)
      exact Or.inl ⟨rfl, hcur, s, n, hcur, hint, h.observers, h.world⟩
  | some s' =>
      obtain ⟨hd, hempty⟩ := hint.idle (Thread.settled_start p _)
      have hmid : Intact p s w ⟨.run (.ret y), [.commit p]⟩ :=
        ⟨hint.found, hint.orderly, hint.lined⟩
      have hm : Thread.Moves body w ⟨.run (.ret y), [.commit p]⟩ _ _ _ := .amended hint.found hc
      obtain ⟨s'', hint', -⟩ := hmid.move hm
      obtain rfl := Option.some.inj
        ((World.publisher?_setPublisher_self hint.found).symm.trans hint'.found)
      have hcur : s'.current = y := (Publisher.timeline_commit hc).2
      have hch : s'.changes = [y] := by
        rw [Publisher.changes_commit hc, Publisher.changes_of_empty hempty]
        rfl
      have harr : s'.arrivals = [] := by
        rw [Publisher.arrivals_commit hc, Publisher.arrivals_of_empty hempty]
      have hobs : s'.observers = s.observers := by
        rw [Publisher.commit_eq_some hc]
      have hd' : s'.draining = false := by
        rw [Publisher.commit_eq_some hc]
        exact hd
      refine Or.inr ⟨s', rfl, ?_⟩
      have hsettles := hby.settles hint' hd' (hobs ▸ h.observers) (by simp [harr])
        (by simp [hch, hcur]) (hby.stable n w s s' h.world hint.found)
      rwa [hcur] at hsettles

end Resting

/-! ## One call -/

section Containers

variable [BEq V] {body : P → Prog V P σ ε} {w w' : World V P σ ε} {k : Kind}
  {n : Node (Routine V P σ ε) k} {x y u : V} {es : List (Event V ε)} {c : Converter (V → V)}

/-- Whether a container holds a value and calls on it come back: a publisher has to be at rest, and
its observers have to come back. -/
def Node.Ready (body : P → Prog V P σ ε) (x : V) (w : World V P σ ε) :
    {k : Kind} → Node (Routine V P σ ε) k → Prop
  | _, .rx p | _, .rxGuarded _ p => ∃ passive worlds s n, Obliging body p passive worlds ∧
      Resting p passive worlds x s n w
  | _, n => n.stored? w = some x

/-- A monitor is entered, something comes back, and the monitor is left. -/
theorem Act.Returns.hold {m : Monitor} {b : Act V P σ ε V} {post : V → World V P σ ε → Prop}
    (h : b.Returns body (w.enter m) fun u w' => post u (w'.leave m)) :
    (Act.hold m b).Returns body w post := by
  obtain ⟨u, w', hpost, hrun⟩ := h
  refine ⟨u, w'.leave m, hpost, fun k st => ?_⟩
  obtain ⟨es, hrun⟩ := hrun .ret (.leave m :: .resume k :: st)
  exact ⟨_, .cons Thread.Moves.held.step trivial
    (hrun.trans (.cons Thread.Moves.left.step trivial (.single Thread.Moves.resumed.step trivial)))⟩

section Cell

variable {r : CellRef} {d : Cell V} (hr : w.cell? r = some d)
include hr

theorem Act.Returns.load {post : V → World V P σ ε → Prop} (h : post d.value w) :
    (Act.load r).Returns body w post := by
  have hperf : w.perform (.load r) = some (d.value, w, []) := congrArg (Option.map _) hr
  exact ⟨d.value, w, h, fun _ _ => ⟨[], .single (Thread.Moves.performed hperf).step trivial⟩⟩

theorem Act.Returns.store {post : World V P σ ε → Prop} (h : post (w.setCell r (d.store y))) :
    (Act.store r y).Returns body w fun _ => post := by
  have hperf : w.perform (.store r y) = some ((), w.setCell r (d.store y), []) :=
    congrArg (Option.map _) hr
  exact ⟨(), _, h, fun _ _ => ⟨[], .single (Thread.Moves.performed hperf).step trivial⟩⟩

/-- Where nothing is stored meanwhile a cell is changed at the first attempt. -/
theorem Act.Returns.retry {g : V → V} {post : V → World V P σ ε → Prop}
    (h : post (g d.value) (w.setCell r (d.store (g d.value)))) :
    (Act.retry r (Node.pureRoutine g)).Returns body w post := by
  have hswap : d.swapIn d.stamp (g d.value) = some (d.store (g d.value)) := if_pos rfl
  refine ⟨g d.value, _, h, fun k st => ⟨[], ?_⟩⟩
  exact .cons (Thread.Moves.retried hr).step trivial
    (.cons (Thread.Moves.swapped hr hswap).step trivial
      (.single Thread.Moves.resumed.step trivial))

omit [BEq V] in
/-- What is stored in a cell is its value. -/
theorem World.value_setCell (y : V) :
    ((w.setCell r (d.store y)).cell? r).map (·.value) = some y :=
  congrArg (Option.map _) (World.cell?_setCell_self hr _)

end Cell

/-- A container yields the value it holds. -/
theorem Node.IsBase.get (hb : n.IsBase) (h : n.Ready body x w) :
    n.get.Returns body w fun u w' => u = x ∧ n.Ready body x w' := by
  cases hb with
  | plain r | swap r =>
      obtain ⟨d, hr, hd⟩ := Option.map_eq_some_iff.1 h
      exact .load hr ⟨hd, h⟩
  | guarded l r =>
      obtain ⟨d, hr, hd⟩ := Option.map_eq_some_iff.1 h
      have hr' : (w.enter (.lock l)).cell? r = some d := hr
      exact .hold (.load hr' ⟨hd, h⟩)
  | rx p | rxGuarded l p =>
      obtain ⟨passive, worlds, s, n, hob, hrest⟩ := id h
      refine .of_reads (IsBox.reads ?_ hrest.intact.found) ⟨hrest.current, h⟩
      constructor

variable [LawfulBEq V]

/-- A publisher at rest takes a value. -/
theorem Resting.hands {p : PublisherRef} {s : Publisher V (Observer V P σ ε)}
    {passive : Observer V P σ ε → Prop} {worlds : Nat → World V P σ ε → Prop} {m : Nat}
    (h : Resting p passive worlds x s m w) (hob : Obliging body p passive worlds) (y : V) :
    (w.enterAll s.monitors).Writes body p y fun u w' => u = y ∧
      ∃ passive worlds s' m, Obliging body p passive worlds ∧
        Resting p passive worlds y s' m (w'.leaveAll s.monitors) := by
  have hin : Resting p passive worlds x s m (w.enterAll s.monitors) := by
    rw [World.enterAll_eq]
    exact h.held hob.steady _
  refine (hin.writes hob.bystanders y).imp fun u w' ⟨hu, s', m', hrest⟩ => ?_
  refine ⟨hu, passive, worlds, s', m', hob, ?_⟩
  rw [World.leaveAll_eq]
  exact hrest.held hob.steady _

/-- A container holds the value that is set. -/
theorem Node.IsBase.set (hb : n.IsBase) (h : n.Ready body x w) (y : V) :
    (n.set y).Returns body w fun _ w' => n.Ready body y w' := by
  cases hb with
  | plain r | swap r =>
      obtain ⟨d, hr, -⟩ := Option.map_eq_some_iff.1 h
      exact .store hr (World.value_setCell hr y)
  | guarded l r =>
      obtain ⟨d, hr, -⟩ := Option.map_eq_some_iff.1 h
      have hr' : (w.enter (.lock l)).cell? r = some d := hr
      exact .bind (.hold (.bind (.store hr' (.pure (.pure (World.value_setCell hr' y))))))
  | rx p | rxGuarded l p =>
      obtain ⟨passive, worlds, s, m, hob, hrest⟩ := h
      exact .publish hrest.intact.found ((hrest.hands hob y).imp fun _ _ hafter => hafter.2)

/-- A container holds what a function makes of its value, and yields it. -/
theorem Node.IsBase.modify (hb : n.IsBase) (h : n.Ready body x w) (g : V → V) :
    (n.modify (Node.pureRoutine g)).Returns body w fun u w' => u = g x ∧ n.Ready body (g x) w' := by
  cases hb with
  | plain r =>
      obtain ⟨d, hr, rfl⟩ := Option.map_eq_some_iff.1 h
      have hr' := World.cell?_setCell_self hr (d.store (g d.value))
      exact .bind (.load hr (.bind (.pure (.bind (.store hr
        (.load hr' ⟨rfl, World.value_setCell hr _⟩))))))
  | swap r =>
      obtain ⟨d, hr, rfl⟩ := Option.map_eq_some_iff.1 h
      exact .retry hr ⟨rfl, World.value_setCell hr _⟩
  | guarded l r =>
      obtain ⟨d, hr, rfl⟩ := Option.map_eq_some_iff.1 h
      have hr' : (w.enter (.lock l)).cell? r = some d := hr
      exact .hold (.bind (.load hr' (.bind (.pure (.bind (.store hr'
        (.pure ⟨rfl, World.value_setCell hr' _⟩)))))))
  | rx p | rxGuarded l p =>
      obtain ⟨passive, worlds, s, m, hob, hrest⟩ := h
      obtain rfl := hrest.current
      have hinner : Node.pureRoutine g s.current = (pure (g s.current) : Act V P σ ε V).prog := rfl
      exact .amend hrest.intact.found hinner (.pure (hrest.hands hob (g s.current)))

/-- A call through a converter comes back with what it yields on a plain cell. -/
theorem Node.IsBase.returns (hb : n.IsBase) (h : n.Ready body x w) (c : Converter (V → V))
    (a : Access V) :
    ∃ es w', CalmRun body w (.start (a.direct c n)) es w' ⟨.run (.ret (a.apply c x).1), []⟩ ∧
      n.Ready body (a.apply c x).2 w' := by
  cases a with
  | get =>
      obtain ⟨u, w', ⟨rfl, hready⟩, hrun⟩ := hb.get h
      obtain ⟨es, hrun⟩ := hrun (fun x => .ret (c.forward x)) []
      exact ⟨es, w', hrun, hready⟩
  | set v =>
      obtain ⟨⟨⟩, w', hready, hrun⟩ := hb.set h (c.backward v)
      obtain ⟨es, hrun⟩ := hrun (fun _ => .ret v) []
      exact ⟨es, w', hrun, hready⟩
  | modify f =>
      obtain ⟨u, w', ⟨rfl, hready⟩, hrun⟩ := hb.modify h fun x => c.backward (f (c.forward x))
      obtain ⟨es, hrun⟩ := hrun (fun y => .ret (c.forward y)) []
      exact ⟨es, w', hrun, hready⟩

/-- A call comes back in one way only. -/
theorem Node.IsBase.comes (hb : n.IsBase) (h : n.Ready body x w) {a : Access V}
    (hrun : Run body (fun _ => False) n.Unwritten w (.start (a.direct c n)) es w'
      ⟨.run (.ret u), []⟩) :
    u = (a.apply c x).1 ∧ n.Ready body (a.apply c x).2 w' := by
  obtain ⟨es₁, w₁, hcalm, hready⟩ := hb.returns h c a
  have hok : n.Unwritten (.start (a.direct c n)) := ⟨trivial, fun _ _ _ _ _ => List.not_mem_nil⟩
  obtain ⟨-, rfl, hend⟩ := Run.unique hcalm rfl hrun rfl hok
  cases hend
  exact ⟨rfl, hready⟩

/-- A call on a publisher that comes back has yielded what it yields on a plain cell. -/
theorem Node.IsBox.yields {p : PublisherRef} {b : Node (Routine V P σ ε) .reactive}
    {s : Publisher V (Observer V P σ ε)} (hb : b.IsBox p) (hp : w.publisher? p = some s)
    {a : Access V} (hrun : Run body (fun _ => False) b.Unwritten w (.start (a.direct c b)) es w'
      ⟨.run (.ret u), []⟩) :
    u = (a.apply c s.current).1 ∧
      ∃ s', w'.publisher? p = some s' ∧ s'.current = (a.apply c s.current).2 := by
  have hmem : p ∈ b.publishers := by
    cases hb <;> exact List.mem_singleton_self p
  cases a with
  | get =>
      have hcalm : CalmRun body w (.start (Access.direct c b .get)) [] w
          ⟨.run (.ret (c.forward s.current)), []⟩ :=
        hb.reads hp (fun x => .ret (c.forward x)) []
      obtain ⟨-, rfl, hend⟩ := Run.unique hcalm rfl hrun rfl
        ⟨trivial, fun _ _ _ _ _ => List.not_mem_nil⟩
      cases hend
      exact ⟨rfl, s, hp, rfl⟩
  | set v =>
      have hdirect : Access.direct c b (.set v) = .publish p (c.backward v) (.ret v) :=
        congrFun (congrFun hb.set_eq _) _
      rw [hdirect] at hrun
      exact Node.publish_unwritten hmem hp hrun
  | modify f =>
      have hdirect : Access.direct c b (.modify f) =
          .amend p (Node.pureRoutine fun x => c.backward (f (c.forward x)))
            fun y => .ret (c.forward y) := congrFun (congrFun hb.modify_eq _) _
      rw [hdirect] at hrun
      exact Node.amend_unwritten hmem hp hrun

/-- A call that comes back has yielded what it yields on a plain cell, if no observer's write and no
panic was on the way. -/
theorem Node.IsBase.yields (hb : n.IsBase) (hx : n.stored? w = some x) {a : Access V}
    (hrun : Run body (fun _ => False) n.Unwritten w (.start (a.direct c n)) es w'
      ⟨.run (.ret u), []⟩) :
    u = (a.apply c x).1 ∧ n.stored? w' = some (a.apply c x).2 := by
  have box : ∀ {p : PublisherRef} {b : Node (Routine V P σ ε) .reactive}, b.IsBox p →
      (w.publisher? p).map (·.current) = some x →
      Run body (fun _ => False) b.Unwritten w (.start (a.direct c b)) es w' ⟨.run (.ret u), []⟩ →
      u = (a.apply c x).1 ∧ (w'.publisher? p).map (·.current) = some (a.apply c x).2 := by
    intro p b hbox hx hrun
    obtain ⟨s, hp, rfl⟩ := Option.map_eq_some_iff.1 hx
    obtain ⟨hu, s', hp', hcur⟩ := hbox.yields hp hrun
    exact ⟨hu, Option.map_eq_some_iff.2 ⟨s', hp', hcur⟩⟩
  cases hb with
  | plain r => exact (IsBase.plain r).comes (show Ready body x w (.plain r) from hx) hrun
  | swap r => exact (IsBase.swap r).comes (show Ready body x w (.swap r) from hx) hrun
  | guarded l r =>
      exact (IsBase.guarded l r).comes (show Ready body x w (.guarded l r) from hx) hrun
  | rx p => exact box .rx hx hrun
  | rxGuarded l p => exact box (.rxGuarded l) hx hrun

end Containers

/-! ## Many calls -/

section Sessions

variable [BEq V]

/-- Calls through views of one container, one after the other: each comes back in a run of a given
sort, with what it yields and the value that the container holds then. -/
inductive Session (body : P → Prog V P σ ε) (ok : Thread V P σ ε → Prop) {k : Kind}
    (n : Node (Routine V P σ ε) k) (views : ι → List (Converter (V → V))) :
    World V P σ ε → List (ι × Access V) → List (V × V) → World V P σ ε → Prop where
  | nil (w : World V P σ ε) : Session body ok n views w [] [] w
  | cons {w w₁ w' : World V P σ ε} {i : ι} {a : Access V} {u x : V} {es : List (Event V ε)}
      {calls : List (ι × Access V)} {results : List (V × V)} :
      Run body (fun _ => False) ok w (.start (a.prog (n.chain (views i)))) es w₁
        ⟨.run (.ret u), []⟩ →
      n.stored? w₁ = some x → Session body ok n views w₁ calls results w' →
      Session body ok n views w ((i, a) :: calls) ((u, x) :: results) w'

/-- Whether the observers of a container come back, each time without having written to it. -/
def Node.Heard (body : P → Prog V P σ ε) {k : Kind} (n : Node (Routine V P σ ε) k)
    (w : World V P σ ε) : Prop :=
  ∀ p ∈ n.publishers, ∃ passive worlds m, Obliging body p passive worlds ∧ worlds m w ∧
    ∀ s, w.publisher? p = some s → ∀ r ∈ s.observers, passive r.observer

variable {body : P → Prog V P σ ε} {w w' : World V P σ ε} {k : Kind}
  {n : Node (Routine V P σ ε) k} {x : V} {views : ι → List (Converter (V → V))}
  {calls : List (ι × Access V)}

theorem Node.Ready.stored (h : n.Ready body x w) (hb : n.IsBase) : n.stored? w = some x := by
  cases hb with
  | plain | swap | guarded => exact h
  | rx p | rxGuarded l p =>
      obtain ⟨passive, worlds, s, m, -, hrest⟩ := h
      exact Option.map_eq_some_iff.2 ⟨s, hrest.intact.found, hrest.current⟩

/-- Calls come back in every world that a client has left. -/
theorem Node.IsBase.ready (hb : n.IsBase) (hx : n.stored? w = some x) (hheard : n.Heard body w)
    {t : Thread V P σ ε} {o : Outcome V} (h : Reachable body w t) (ho : t.outcome? = some o) :
    n.Ready body x w := by
  have box : ∀ {p : PublisherRef}, p ∈ n.publishers → (w.publisher? p).map (·.current) = some x →
      ∃ passive worlds s m, Obliging body p passive worlds ∧ Resting p passive worlds x s m w := by
    intro p hp hx
    obtain ⟨s, hs, hcur⟩ := Option.map_eq_some_iff.1 hx
    obtain ⟨passive, worlds, m, hob, hw, hobs⟩ := hheard p hp
    exact ⟨passive, worlds, s, m, hob, hcur, (h.intact hs).next ho _, hobs s hs, hw⟩
  cases hb with
  | plain | swap | guarded => exact hx
  | rx p | rxGuarded l p => exact box (List.mem_singleton_self p) hx

variable [LawfulBEq V]

theorem Session.results_eq {results : List (V × V)} (hb : n.IsBase)
    (h : Session body n.Unwritten n views w calls results w') (hx : n.stored? w = some x) :
    results = Access.results views x calls := by
  induction h generalizing x with
  | nil => rfl
  | @cons w w₁ w' i a u y es calls results hrun hy _ ih =>
      rw [Access.prog_chain] at hrun
      obtain ⟨rfl, hy'⟩ := hb.yields hx hrun
      obtain rfl := Option.some.inj (hy.symm.trans hy')
      exact congrArg _ (ih hy)

theorem Node.Ready.session (h : n.Ready body x w) (hb : n.IsBase)
    (views : ι → List (Converter (V → V))) (calls : List (ι × Access V)) :
    ∃ w', Session body Thread.Calm n views w calls (Access.results views x calls) w' := by
  induction calls generalizing x w with
  | nil => exact ⟨w, .nil w⟩
  | cons call calls ih =>
      obtain ⟨i, a⟩ := call
      obtain ⟨es, w₁, hrun, hready⟩ := hb.returns h (Converter.fused (views i)) a
      rw [← Access.prog_chain] at hrun
      obtain ⟨w', hrest⟩ := ih hready
      exact ⟨w', .cons hrun (hready.stored hb) hrest⟩

/-- Calls of `get`, `set` and `modify` through any views of one container, of whichever kind, yield
what they yield on a plain cell, and after each of them the container holds what the cell holds.
Whatever has come back without a panic has done so if no observer was about to write to the
container. And all calls come back, in every world that a client has left, if the observers of the
container come back without having written to it. -/
theorem kinds_agree (hb : n.IsBase) (views : ι → List (Converter (V → V)))
    (calls : List (ι × Access V)) (hx : n.stored? w = some x) :
    (∀ {body : P → Prog V P σ ε} {results w'}, Session body n.Unwritten n views w calls results w' →
      results = Access.results views x calls) ∧
    ∀ {body : P → Prog V P σ ε} {t o}, Reachable body w t → t.outcome? = some o → n.Heard body w →
      ∃ w', Session body Thread.Calm n views w calls (Access.results views x calls) w' :=
  ⟨fun h => h.results_eq hb hx, fun h ho hheard => (hb.ready hx hheard h ho).session hb views calls⟩

end Sessions

/-- Makes a publisher and subscribes an observer that takes notes. -/
def noting : Prog Nat Empty Unit Unit :=
  .atom (.newPublisher none 0) fun p =>
    .attach p [] (fun v => .atom (.tell ()) fun _ => .ret v) fun _ => .ret 0

/-- The value that is set through a view that doubles is not the one it shows then. -/
theorem kinds_agree_doubling :
    ∃ w w' : World Nat Empty Unit Unit, (Node.rx ⟨0⟩).stored? w = some 0 ∧
      Session Empty.elim Thread.Calm (Node.rx ⟨0⟩) (fun b => if b then [doubling] else []) w
        [(true, .set 7), (true, .get), (false, .modify (· + 1)), (true, .get)]
        [(7, 3), (6, 3), (4, 4), (8, 4)] w' := by
  let note : Observer Nat Empty Unit Unit := ⟨fun v => .atom (.tell ()) fun _ => .ret v, []⟩
  obtain ⟨w, es, hadvance, hp⟩ : ∃ w es,
      Thread.advance Empty.elim 9 (World.new ()) (.start noting) =
        some (w, ⟨.run (.ret 0), []⟩, es) ∧
      w.publisher? ⟨0⟩ = some ⟨none, 0, 0, [⟨0, note⟩], [], false, 1⟩ := ⟨_, _, rfl, rfl⟩
  have hreach : Reachable Empty.elim w ⟨.run (.ret 0), []⟩ := by
    have hcalm : Run Empty.elim (fun _ => True) Thread.Calm (World.new ()) (.start noting) es w
        ⟨.run (.ret 0), []⟩ := .of_advance hadvance
    exact ⟨(), _, es, hcalm.mono (fun _ h => h) fun _ _ => trivial⟩
  have hob : Obliging Empty.elim ⟨0⟩ (· = note) fun _ _ => True := by
    refine ⟨⟨fun _ _ _ _ _ _ => trivial, ?_⟩, fun _ _ _ _ => trivial⟩
    rintro n w s o v - hs - rfl
    have hnote : CalmRun Empty.elim w (.start (note.react v)) _ w ⟨.run (.ret v), []⟩ :=
      .single rfl trivial
    exact ⟨_, w, v, s, n, hnote, hs, ⟨rfl, rfl, fun _ hr _ => hr, fun _ hr => hr, fun _ => Or.inl⟩,
      trivial, Nat.le_refl _⟩
  have hheard :
      (Node.rx ⟨0⟩ : Node (Routine Nat Empty Unit Unit) .reactive).Heard Empty.elim w := by
    intro p hmem
    obtain rfl := List.mem_singleton.1 hmem
    refine ⟨_, _, 0, hob, trivial, fun s hs r hr => ?_⟩
    obtain rfl := Option.some.inj (hp.symm.trans hs)
    obtain rfl := List.mem_singleton.1 hr
    rfl
  have hx : (Node.rx ⟨0⟩ : Node (Routine Nat Empty Unit Unit) .reactive).stored? w = some 0 :=
    Option.map_eq_some_iff.2 ⟨_, hp, rfl⟩
  obtain ⟨w', hsession⟩ := (kinds_agree (.rx ⟨0⟩) (fun b => if b then [doubling] else [])
    [(true, .set 7), (true, .get), (false, .modify (· + 1)), (true, .get)] hx).2 hreach rfl hheard
  exact ⟨w, w', hx, hsession⟩

end ReactiveCells
