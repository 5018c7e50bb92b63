import ReactiveCells.Proofs.Confluence

/-!
# Returning — operations that come back, put together from their parts

Most operations run foreign programs in the middle: observers, functions to modify by. Where all of
these come back, so does the operation, and what it leaves is what they leave one after another.
`Act.Returns` says so of an operation, `World.Serves` of the calls of a delivery, `World.Drains` of
the rest of a drain and `World.Settles` of a whole one. In each of them the world that is left is
described, not named, and nothing is said about the stack, so the parts fit together in any place.

Main statements: `Returns.bind`, `Drains.next` (a queue entry is taken and its calls come back) and
the rules for writing, modifying and subscribing that follow from it.
-/

namespace ReactiveCells

variable {V P σ ε : Type} [BEq V] {body : P → Prog V P σ ε}

/-- Whether a program comes back without a panic, and what it leaves. -/
def Prog.Ends (body : P → Prog V P σ ε) (w : World V P σ ε) (c : Prog V P σ ε)
    (post : World V P σ ε → Prop) : Prop :=
  ∃ w', post w' ∧ ∀ st, ∃ es v, CalmRun body w ⟨.run c, st⟩ es w' ⟨.run (.ret v), st⟩

/-- Whether something that a program does on its way comes back without a panic, what it yields and
what it leaves. -/
def Act.Returns {α : Type} (body : P → Prog V P σ ε) (w : World V P σ ε) (m : Act V P σ ε α)
    (post : α → World V P σ ε → Prop) : Prop :=
  ∃ a w', post a w' ∧ ∀ k st, ∃ es, CalmRun body w ⟨.run (m k), st⟩ es w' ⟨.run (k a), st⟩

/-- Whether the calls of a delivery come back one after another. -/
def World.Serves (body : P → Prog V P σ ε) (p : PublisherRef)
    (calls : List (Call V (Observer V P σ ε))) (w : World V P σ ε)
    (post : World V P σ ε → Prop) : Prop :=
  ∃ w', post w' ∧ ∀ v st, ∃ es v', CalmRun body w ⟨.run (.ret v), .deliver p calls :: st⟩ es w'
    ⟨.run (.ret v'), .deliver p [] :: st⟩

/-- Whether a drain that has no calls left to make comes to its end, and with which value. -/
def World.Drains (body : P → Prog V P σ ε) (p : PublisherRef) (w : World V P σ ε)
    (post : V → World V P σ ε → Prop) : Prop :=
  ∃ u w', post u w' ∧ ∀ v st, ∃ es, CalmRun body w ⟨.run (.ret v), .deliver p [] :: st⟩ es w'
    ⟨.run (.ret u), st⟩

/-- Whether a drain that is about to begin comes to its end, and with which value. -/
def World.Settles (body : P → Prog V P σ ε) (p : PublisherRef) (w : World V P σ ε)
    (post : V → World V P σ ε → Prop) : Prop :=
  ∃ u w', post u w' ∧ ∀ st, ∃ es, CalmRun body w ⟨.drain p, st⟩ es w' ⟨.run (.ret u), st⟩

/-- Whether a value is written to a publisher at rest and everything that follows comes back, and with
which value. -/
def World.Writes (body : P → Prog V P σ ε) (p : PublisherRef) (v : V) (w : World V P σ ε)
    (post : V → World V P σ ε → Prop) : Prop :=
  ∃ s, w.publisher? p = some s ∧ ((s.commit v = none ∧ post s.current w) ∨
    ∃ s', s.commit v = some s' ∧ (w.setPublisher p s').Settles body p post)

section Rules

variable {α β : Type} {w w' : World V P σ ε} {m : Act V P σ ε α} {f : α → Act V P σ ε β}
  {post : α → World V P σ ε → Prop} {post' : β → World V P σ ε → Prop} {p : PublisherRef}
  {s s' : Publisher V (Observer V P σ ε)} {es : List (Event V ε)}

theorem Act.Returns.imp {post' : α → World V P σ ε → Prop} (h : m.Returns body w post)
    (himp : ∀ a w, post a w → post' a w) : m.Returns body w post' := by
  obtain ⟨a, w', hpost, hrun⟩ := h
  exact ⟨a, w', himp a w' hpost, hrun⟩

theorem Act.Returns.pure {a : α} (h : post a w) : (Pure.pure a : Act V P σ ε α).Returns body w post :=
  ⟨a, w, h, fun _ _ => ⟨[], .refl⟩⟩

/-- One thing after another. -/
theorem Act.Returns.bind (h : m.Returns body w fun a w' => (f a).Returns body w' post') :
    (m >>= f).Returns body w post' := by
  obtain ⟨a, w₁, ⟨b, w₂, hpost, hnext⟩, hfirst⟩ := h
  refine ⟨b, w₂, hpost, ?_⟩
  intro k st
  obtain ⟨es₁, hrun₁⟩ := hfirst (fun a => f a k) st
  obtain ⟨es₂, hrun₂⟩ := hnext k st
  exact ⟨es₁ ++ es₂, hrun₁.trans hrun₂⟩

/-- An operation of one step. -/
theorem Act.Returns.atom {a : Atom V σ ε} {x : a.Answer}
    {post : a.Answer → World V P σ ε → Prop} (h : w.perform a = some (x, w', es))
    (hpost : post x w') : (Act.atom a).Returns body w post :=
  ⟨x, w', hpost, fun _ _ => ⟨es, .single (Thread.Moves.performed h).step trivial⟩⟩

/-- An operation that reads comes back with the value read. -/
theorem Act.Returns.of_reads {m : Act V P σ ε V} {v : V} {post : V → World V P σ ε → Prop}
    (h : m.Reads body w v) (hpost : post v w) : m.Returns body w post :=
  ⟨v, w, hpost, fun k st => ⟨[], h k st⟩⟩

/-- An operation that comes back, run for its effects alone. -/
theorem Act.Returns.ends {m : Act V P σ ε Unit} {post : World V P σ ε → Prop}
    (h : m.Returns body w fun _ => post) (v : V) : (m.thenRet v).Ends body w post := by
  obtain ⟨⟨⟩, w', hpost, hrun⟩ := h
  refine ⟨w', hpost, fun st => ?_⟩
  obtain ⟨es, hrun⟩ := hrun (fun _ => .ret v) st
  exact ⟨es, v, hrun⟩

/-! ## Deliveries and drains -/

theorem World.Serves.nil {post : World V P σ ε → Prop} (h : post w) : w.Serves body p [] post :=
  ⟨w, h, fun v _ => ⟨[], v, .refl⟩⟩

/-- The next observer is called and comes back. -/
theorem World.Serves.cons {c : Call V (Observer V P σ ε)} {calls : List (Call V (Observer V P σ ε))}
    {post : World V P σ ε → Prop}
    (h : (c.observer.react c.value).Ends body w fun w' => w'.Serves body p calls post) :
    w.Serves body p (c :: calls) post := by
  obtain ⟨w₁, ⟨w₂, hpost, hrest⟩, hreact⟩ := h
  refine ⟨w₂, hpost, ?_⟩
  intro v st
  obtain ⟨es₁, v₁, hrun₁⟩ := hreact (.observe c.observer :: .deliver p calls :: st)
  obtain ⟨es₂, v₂, hrun₂⟩ := hrest v₁ st
  exact ⟨_, v₂, .cons Thread.Moves.called.step trivial
    (hrun₁.trans (.cons Thread.Moves.observed.step trivial hrun₂))⟩

/-- A drain that finds the queue empty is over. -/
theorem World.Drains.done {post : V → World V P σ ε → Prop} (hp : w.publisher? p = some s)
    (hq : s.pending = []) (hpost : post s.current (w.setPublisher p s.endDrain)) :
    w.Drains body p post :=
  ⟨_, _, hpost, fun _ _ =>
    ⟨[], .single (Thread.Moves.drained hp ((Publisher.pop_eq_none_iff s).2 hq)).step trivial⟩⟩

/-- A drain takes the next entry, and the calls that the entry makes due come back. -/
theorem World.Drains.next {post : V → World V P σ ε → Prop} {d : Delivery V (Observer V P σ ε)}
    (hp : w.publisher? p = some s) (hpop : s.pop = some (d, s'))
    (h : (w.setPublisher p s').Serves body p d.calls fun w' => w'.Drains body p post) :
    w.Drains body p post := by
  obtain ⟨w₁, ⟨u, w₂, hpost, hrest⟩, hserved⟩ := h
  refine ⟨u, w₂, hpost, ?_⟩
  intro v st
  obtain ⟨es₁, v₁, hrun₁⟩ := hserved v st
  obtain ⟨es₂, hrun₂⟩ := hrest v₁ st
  exact ⟨_, .cons (Thread.Moves.popped hp hpop).step trivial (hrun₁.trans hrun₂)⟩

/-- A drain begins where none is in progress. -/
theorem World.Settles.of_drains {post : V → World V P σ ε → Prop} (hp : w.publisher? p = some s)
    (hd : s.draining = false)
    (h : (w.setPublisher p { s with draining := true }).Drains body p post) :
    w.Settles body p post := by
  obtain ⟨u, w', hpost, hrun⟩ := h
  have hbegin : s.beginDrain = some { s with draining := true } := if_neg (Bool.eq_false_iff.1 hd)
  refine ⟨u, w', hpost, fun st => ?_⟩
  obtain ⟨es, hrun⟩ := hrun s.current st
  exact ⟨_, .cons (Thread.Moves.draining hp hbegin).step trivial hrun⟩

/-- Nothing is drained where a drain is in progress. -/
theorem World.Settles.busy {post : V → World V P σ ε → Prop} (hp : w.publisher? p = some s)
    (hd : s.draining = true) (hpost : post s.current w) : w.Settles body p post :=
  ⟨_, w, hpost, fun _ => ⟨[], .single (Thread.Moves.busy hp (if_pos hd)).step trivial⟩⟩

theorem World.Settles.imp {post post' : V → World V P σ ε → Prop} (h : w.Settles body p post)
    (himp : ∀ u w, post u w → post' u w) : w.Settles body p post' := by
  obtain ⟨u, w', hpost, hrun⟩ := h
  exact ⟨u, w', himp u w' hpost, hrun⟩

theorem World.Writes.imp {v : V} {post post' : V → World V P σ ε → Prop}
    (h : w.Writes body p v post) (himp : ∀ u w, post u w → post' u w) :
    w.Writes body p v post' := by
  obtain ⟨s, hp, hwrites⟩ := h
  exact ⟨s, hp, hwrites.imp (fun ⟨hc, hpost⟩ => ⟨hc, himp _ _ hpost⟩)
    fun ⟨s', hc, hsettles⟩ => ⟨s', hc, hsettles.imp himp⟩⟩

/-- A write to a publisher at rest that has no observers. -/
theorem World.Writes.alone [LawfulBEq V] {v : V} {post : V → World V P σ ε → Prop}
    (hp : w.publisher? p = some s) (hobs : s.observers = []) (hpend : s.pending = [])
    (hd : s.draining = false)
    (hpost : ∀ d, post v (w.setPublisher p { s with current := v, delivered := d })) :
    w.Writes body p v post := by
  refine ⟨s, hp, ?_⟩
  by_cases hv : (s.current == v) = true
  · obtain rfl := eq_of_beq hv
    have hsame := hpost s.delivered
    rw [show w.setPublisher p _ = w from World.setPublisher_self hp] at hsame
    exact Or.inl ⟨if_pos hv, hsame⟩
  · -- the change is queued, taken by the drain, and handed to nobody
    let queued : Publisher V (Observer V P σ ε) := { s with current := v, pending := [.emit v] }
    let served : Publisher V (Observer V P σ ε) :=
      { s with current := v, delivered := v, draining := true }
    have hcommit : s.commit v = some queued := by
      rw [Publisher.commit, if_neg hv, hpend]
      rfl
    have hpop : Publisher.pop { queued with draining := true } = some (.round [], served) := by
      simp [Publisher.pop, queued, served, hobs, hpend]
    have hend : served.endDrain = { s with current := v, delivered := v } := by
      simp [Publisher.endDrain, served, hd]
    have hfound : ∀ s', (w.setPublisher p s').publisher? p = some s' := fun s' =>
      World.publisher?_setPublisher_self hp
    refine Or.inr ⟨queued, hcommit, .of_drains (hfound queued) hd ?_⟩
    rw [World.setPublisher_setPublisher]
    refine .next (hfound _) hpop (.nil ?_)
    rw [World.setPublisher_setPublisher]
    refine .done (hfound served) hpend ?_
    rw [World.setPublisher_setPublisher, hend]
    exact hpost v

/-! ## Operations on a publisher -/

/-- The monitors of a publisher are left and what waits below goes on. -/
theorem Run.of_leaving (w : World V P σ ε) (s : Publisher V (Observer V P σ ε)) (u : V)
    (k : V → Prog V P σ ε) (st : List (Frame V P σ ε)) :
    CalmRun body w ⟨.run (.ret u), s.leaving ++ .resume k :: st⟩ []
      (w.leaveAll s.monitors) ⟨.run (k u), st⟩ :=
  (leave_run body w u s.monitors (.resume k :: st)).trans (.single Thread.Moves.resumed.step trivial)

/-- A write. -/
theorem Act.Returns.publish {v : V} {post : World V P σ ε → Prop} (hp : w.publisher? p = some s)
    (h : (w.enterAll s.monitors).Writes body p v fun _ w' => post (w'.leaveAll s.monitors)) :
    (Act.publish p v).Returns body w fun _ => post := by
  obtain ⟨s₁, hs₁, hwrites⟩ := h
  obtain rfl := Option.some.inj (hs₁.symm.trans ((World.publisher?_enterAll s.monitors).trans hp))
  have hback : ∀ (w' : World V P σ ε) u (k : Unit → Prog V P σ ε) st, CalmRun body w'
      ⟨.run (.ret u), s₁.leaving ++ .resume (fun _ => k ()) :: st⟩ [] (w'.leaveAll s₁.monitors)
      ⟨.run (k ()), st⟩ := fun w' u k st => Run.of_leaving w' s₁ u (fun _ => k ()) st
  rcases hwrites with ⟨hc, hpost⟩ | ⟨s', hc, u, w', hpost, hsettled⟩
  · exact ⟨(), _, hpost, fun k st =>
      ⟨_, .cons (Thread.Moves.publishedSame hp hc).step trivial (hback _ _ k st)⟩⟩
  · refine ⟨(), _, hpost, fun k st => ?_⟩
    obtain ⟨es, hrun⟩ := hsettled (s₁.leaving ++ .resume (fun _ => k ()) :: st)
    exact ⟨_, .cons (Thread.Moves.published hp hc).step trivial (hrun.trans (hback w' u k st))⟩

/-- A modification by something that comes back. -/
theorem Act.Returns.amend {g : Routine V P σ ε} {inner : Act V P σ ε V}
    {post : V → World V P σ ε → Prop} (hp : w.publisher? p = some s)
    (hg : g s.current = inner.prog)
    (h : inner.Returns body (w.enterAll s.monitors) fun v w₁ =>
      w₁.Writes body p v fun u w' => post u (w'.leaveAll s.monitors)) :
    (Act.amend p g).Returns body w post := by
  obtain ⟨v, w₁, ⟨s₁, hs₁, hwrites⟩, hinner⟩ := h
  have hfirst : ∀ k st, ∃ es, CalmRun body w ⟨.run (.amend p g k), st⟩ es w₁
      ⟨.run (.ret v), .commit p :: s.leaving ++ .resume k :: st⟩ := by
    intro k st
    obtain ⟨es, hrun⟩ := hinner .ret (.commit p :: s.leaving ++ .resume k :: st)
    have hmove : Thread.Moves body w ⟨.run (.amend p g k), st⟩ _ _ _ := .amending hp
    rw [hg] at hmove
    exact ⟨_, .cons hmove.step trivial hrun⟩
  rcases hwrites with ⟨hc, hpost⟩ | ⟨s', hc, u, w', hpost, hsettled⟩
  · refine ⟨s₁.current, _, hpost, fun k st => ?_⟩
    obtain ⟨es, hrun⟩ := hfirst k st
    exact ⟨_, hrun.trans (.cons (Thread.Moves.amendedSame hs₁ hc).step trivial
      (Run.of_leaving w₁ s s₁.current k st))⟩
  · refine ⟨u, _, hpost, fun k st => ?_⟩
    obtain ⟨es, hrun⟩ := hfirst k st
    obtain ⟨es', hdrain⟩ := hsettled (s.leaving ++ .resume k :: st)
    exact ⟨_, hrun.trans (.cons (Thread.Moves.amended hs₁ hc).step trivial
      (hdrain.trans (Run.of_leaving w' s u k st)))⟩

/-- A registration. -/
theorem Act.Returns.attach {keeps : List PublisherRef} {o : V → Act V P σ ε Unit}
    {post : SubscriptionRef → World V P σ ε → Prop} (hp : w.publisher? p = some s)
    (h : ((w.enterAll s.monitors).setPublisher p
        (s.enqueue ⟨fun v => (o v).thenRet v, keeps⟩)).Settles body p fun _ w' =>
      let after := (w'.leaveAll s.monitors).newSubscription (some (.detach p s.nextId))
      post after.1 after.2) :
    (Act.attach p keeps o).Returns body w post := by
  obtain ⟨u, w', hpost, hsettled⟩ := h
  refine ⟨_, _, hpost, fun k st => ?_⟩
  obtain ⟨es, hrun⟩ := hsettled (s.leaving ++ .register p s.nextId k :: st)
  have hback := leave_run body w' u s.monitors (.register p s.nextId k :: st)
  exact ⟨_, .cons (Thread.Moves.attached hp).step trivial
    (hrun.trans (hback.trans (.single Thread.Moves.registered.step trivial)))⟩

end Rules

end ReactiveCells
