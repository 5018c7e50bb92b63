import ReactiveCells.Proofs.Attention

/-!
# Contracts — what a publisher may hold

Some publishers are to hold good values only. A contract names such a publisher, the values that are
good for it, and the stores that lead to no others. A program upholds the contract if all that it
writes to the publisher is good, where it may rely on what it reads there, is called with and gets
back. So contracts are types: of a program by what it ends with, of a stack by what it awaits and by
what comes out of it in the end. Moves preserve types, and the values that a publisher holds, hands
out and has queued are good in every state.

Main statements: `Upholds.bind` (programs in sequence), `Moves.upholds` and `Run.upholds`.
-/

namespace ReactiveCells

variable {V P σ ε : Type}

/-- What one publisher may hold, and what stores there may be. -/
structure Contract (V σ : Type) where
  publisher : PublisherRef
  good : V → Prop
  safe : σ → Prop

namespace Contract

variable (C : Contract V σ)

/-- Whether a publisher may hold a value. -/
def Fits (q : PublisherRef) (v : V) : Prop := q = C.publisher → C.good v

/-- Whether an operation of one step leaves stores safe. -/
def Allows : Atom V σ ε → Prop
  | .own f => ∀ x, C.safe x → C.safe (f x)
  | .tell _ | .report _ | .newCell _ | .load _ | .store .. | .swap .. | .exchange .. | .newLock _
  | .isHeld _ | .newPublisher .. | .current _ | .observerCount _ | .newDisposed | .isDisposed _
  | .newMemo _ | .memo .. | .newBag | .bag .. => True

/-- What can be expected of the answer of an operation of one step. -/
def Grants : (a : Atom V σ ε) → a.Answer → Prop
  | .own _, x => C.safe x
  | .newPublisher .., q => q ≠ C.publisher
  | .current q, v => C.Fits q v
  | .tell _, _ | .report _, _ | .newCell _, _ | .load _, _ | .store .., _ | .swap .., _
  | .exchange .., _ | .newLock _, _ | .isHeld _, _ | .observerCount _, _ | .newDisposed, _
  | .isDisposed _, _ | .newMemo _, _ | .memo .., _ | .newBag, _ | .bag .., _ => True

/-- Whether the publisher called its observers with good values only. -/
def Delivers (es : List (Event V ε)) : Prop := ∀ id v, .called C.publisher id v ∈ es → C.good v

theorem delivers_nil : C.Delivers ([] : List (Event V ε)) := fun _ _ h => absurd h List.not_mem_nil

end Contract

/-- Whether a program keeps to a contract and ends with a value of a given sort, if it ends. -/
def Prog.Upholds (C : Contract V σ) : (V → Prop) → Prog V P σ ε → Prop
  | E, .ret v => E v
  | _, .panic _ => True
  | E, .atom a k => C.Allows a ∧ ∀ x, C.Grants a x → (k x).Upholds C E
  | E, .call _ k => ∀ v, (k v).Upholds C E
  | E, .attempt b k => b.Upholds C (fun _ => True) ∧ ∀ r, (k r).Upholds C E
  | E, .hold _ b k => b.Upholds C (fun _ => True) ∧ ∀ v, (k v).Upholds C E
  | E, .retry _ f k => (∀ v, (f v).Upholds C fun _ => True) ∧ ∀ v, (k v).Upholds C E
  | E, .publish q v k => C.Fits q v ∧ k.Upholds C E
  | E, .amend q f k =>
      (∀ v, C.Fits q v → (f v).Upholds C (C.Fits q)) ∧ ∀ v, C.Fits q v → (k v).Upholds C E
  | E, .attach q _ o k =>
      (∀ v, C.Fits q v → (o v).Upholds C fun _ => True) ∧ ∀ s, (k s).Upholds C E
  | E, .onDispose c k => c.Upholds C (fun _ => True) ∧ ∀ s, (k s).Upholds C E
  | E, .dispose _ k => k.Upholds C E

section Types

variable {C : Contract V σ} {E E' F : V → Prop} {c : Prog V P σ ε}

/-- Programs in sequence. -/
theorem Prog.Upholds.bind {g : Routine V P σ ε} (h : c.Upholds C E)
    (hg : ∀ v, E v → (g v).Upholds C E') : (c.bind g).Upholds C E' := by
  induction c with
  | ret v => exact hg v h
  | panic text => trivial
  | atom a k ih => exact ⟨h.1, fun x hx => ih x (h.2 x hx)⟩
  | call c k ih => exact fun v => ih v (h v)
  | attempt b k _ ih => exact ⟨h.1, fun r => ih r (h.2 r)⟩
  | hold m b k _ ih => exact ⟨h.1, fun v => ih v (h.2 v)⟩
  | retry c f k _ ih => exact ⟨h.1, fun v => ih v (h.2 v)⟩
  | publish q v k ih => exact ⟨h.1, ih h.2⟩
  | amend q f k _ ih => exact ⟨h.1, fun v hv => ih v (h.2 v hv)⟩
  | attach q keeps o k _ ih => exact ⟨h.1, fun s => ih s (h.2 s)⟩
  | onDispose c k _ ih => exact ⟨h.1, fun s => ih s (h.2 s)⟩
  | dispose s k ih => exact ih h

/-- What a program ends with is also of any sort that says less. -/
theorem Prog.Upholds.imp (h : c.Upholds C E) (hE : ∀ v, E v → E' v) : c.Upholds C E' :=
  c.bind_ret ▸ h.bind hE

end Types

/-! ## Types of publishers, stacks, threads and worlds -/

section Typing

variable (C : Contract V σ)

/-- Whether an observer of a publisher keeps to a contract. -/
def Observer.Upholds (q : PublisherRef) (o : Observer V P σ ε) : Prop :=
  ∀ v, C.Fits q v → (o.react v).Upholds C fun _ => True

/-- Whether a call that a publisher has to make keeps to a contract. -/
def Call.Upholds (q : PublisherRef) (c : Call V (Observer V P σ ε)) : Prop :=
  C.Fits q c.value ∧ c.observer.Upholds C q

/-- Whether a publisher keeps to a contract now and in what it has queued. -/
structure Publisher.Upholds (q : PublisherRef) (s : Publisher V (Observer V P σ ε)) : Prop where
  current : C.Fits q s.current
  timeline : ∀ v ∈ s.timeline, C.Fits q v
  observers : ∀ r ∈ s.registrations, r.observer.Upholds C q

/-- Whether a stack that gets a value of one sort keeps to a contract and ends with one of another
sort. -/
inductive Contract.Awaits (F : V → Prop) : (V → Prop) → List (Frame V P σ ε) → Prop where
  | nil {E} : (∀ v, E v → F v) → Awaits F E []
  | resume {E E' k st} : (∀ v, E v → (k v).Upholds C E') → Awaits F E' st →
      Awaits F E (.resume k :: st)
  | attempt {E E' k st} : (∀ r, (k r).Upholds C E') → Awaits F E' st → Awaits F E (.attempt k :: st)
  | leave {E m st} : Awaits F E st → Awaits F E (.leave m :: st)
  | deliver {E q calls st} : (∀ c ∈ calls, c.Upholds C q) → Awaits F (C.Fits q) st →
      Awaits F E (.deliver q calls :: st)
  | observe {E o st} : Awaits F E st → Awaits F E (.observe o :: st)
  | commit {E q st} : (∀ v, E v → C.Fits q v) → Awaits F (C.Fits q) st →
      Awaits F E (.commit q :: st)
  | register {E E' q id k st} : (∀ s, (k s).Upholds C E') → Awaits F E' st →
      Awaits F E (.register q id k :: st)
  | swapIn {E c stamp n f st} : (∀ v, (f v).Upholds C fun _ => True) → Awaits F (fun _ => True) st →
      Awaits F E (.swapIn c stamp n f :: st)

/-- Whether a thread keeps to a contract and ends with a value of a given sort, if it ends with a
value. -/
inductive Thread.Upholds (F : V → Prop) : Thread V P σ ε → Prop where
  | run {E c st} : c.Upholds C E → C.Awaits F E st → Upholds F ⟨.run c, st⟩
  | drain {q st} : C.Awaits F (C.Fits q) st → Upholds F ⟨.drain q, st⟩
  | unwind {text st} : C.Awaits F (fun _ => False) st → Upholds F ⟨.unwind text, st⟩

/-- Whether all that waits in a world to be run keeps to a contract, and all values do. -/
structure World.Upholds (w : World V P σ ε) : Prop where
  store : C.safe w.store
  made : C.publisher.index < w.publishers.size
  publishers : ∀ q s, w.publisher? q = some s → s.Upholds C q
  teardowns : ∀ i c, w.subscriptions.get? i = some (some (.run c)) → c.Upholds C fun _ => True

end Typing

section Preservation

variable {C : Contract V σ} {E E' F : V → Prop} {q : PublisherRef} {w w' : World V P σ ε}
  {s s' : Publisher V (Observer V P σ ε)} {st : List (Frame V P σ ε)}

/-- What awaits more gets along with less. -/
theorem Contract.Awaits.anti (h : C.Awaits F E st) (hE : ∀ v, E' v → E v) : C.Awaits F E' st := by
  induction h generalizing E' with
  | nil hF => exact .nil fun v hv => hF v (hE v hv)
  | resume hk hst _ => exact .resume (fun v hv => hk v (hE v hv)) hst
  | attempt hk hst _ => exact .attempt hk hst
  | leave _ ih => exact .leave (ih hE)
  | deliver hcalls hst _ => exact .deliver hcalls hst
  | observe _ ih => exact .observe (ih hE)
  | commit hq hst _ => exact .commit (fun v hv => hq v (hE v hv)) hst
  | register hk hst _ => exact .register hk hst
  | swapIn hf hst _ => exact .swapIn hf hst

theorem Contract.Awaits.leaving {O : Type} (h : C.Awaits F E st) (r : Publisher V O) :
    C.Awaits F E (r.leaving ++ st) :=
  r.leaving_induction (fun _ _ => .leave) h

/-! ### Publishers -/

namespace Publisher.Upholds

theorem commit [BEq V] {v : V} (h : s.Upholds C q) (hv : C.Fits q v) (hc : s.commit v = some s') :
    s'.Upholds C q := by
  obtain ⟨htimeline, hcurrent⟩ := timeline_commit hc
  refine ⟨hcurrent ▸ hv, ?_, fun r hr => h.observers r (registrations_commit hc ▸ hr)⟩
  intro u hu
  rw [htimeline] at hu
  rcases List.mem_append.1 hu with hold | hnew
  · exact h.timeline u hold
  · exact List.mem_singleton.1 hnew ▸ hv

theorem enqueue {o : Observer V P σ ε} (h : s.Upholds C q) (ho : o.Upholds C q) :
    (s.enqueue o).Upholds C q := by
  refine ⟨h.current, fun v hv => h.timeline v (timeline_enqueue s o ▸ hv), fun r hr => ?_⟩
  rw [registrations_enqueue] at hr
  rcases List.mem_append.1 hr with hold | hnew
  · exact h.observers r hold
  · exact List.mem_singleton.1 hnew ▸ ho

theorem draining (h : s.Upholds C q) (b : Bool) :
    Publisher.Upholds C q { s with draining := b } :=
  ⟨h.current, h.timeline, h.observers⟩

theorem abandon (h : s.Upholds C q) : s.abandon.Upholds C q := by
  refine ⟨h.current, fun v hv => h.timeline v ?_, fun r hr => h.observers r ?_⟩
  · exact List.mem_singleton.1 hv ▸ List.mem_cons_self
  · exact (List.mem_append.1 hr).elim (List.mem_append_left _) nofun

theorem detach (h : s.Upholds C q) (id : Nat) : (s.detach id).Upholds C q := by
  refine ⟨h.current, fun v hv => h.timeline v (timeline_detach s id ▸ hv), fun r hr => ?_⟩
  rw [registrations_detach] at hr
  exact h.observers r (List.mem_filter.1 hr).1

/-- An entry that is taken calls observers with what was to be delivered. -/
theorem pop {d : Delivery V (Observer V P σ ε)} (h : s.Upholds C q) (hp : s.pop = some (d, s')) :
    s'.Upholds C q ∧ ∀ c ∈ d.calls, c.Upholds C q := by
  have hobs : ∀ r ∈ s'.registrations, r.observer.Upholds C q := fun r hr =>
    h.observers r (registrations_pop hp ▸ hr)
  rcases pop_cases hp with ⟨v, rest, hq, rfl, rfl⟩ | ⟨r, rest, hq, rfl, rfl⟩
  · have htimeline : s.timeline = s.delivered :: v :: rest.filterMap Pending.value? := by
      rw [Publisher.timeline, hq]
      rfl
    have hv : C.Fits q v := h.timeline v (by simp [htimeline])
    refine ⟨⟨h.current, fun u hu => h.timeline u ?_, hobs⟩, fun c hc => ?_⟩
    · rw [htimeline]
      exact List.mem_cons_of_mem _ hu
    · obtain ⟨r, hr, rfl⟩ := List.mem_map.1 hc
      exact ⟨hv, h.observers r (List.mem_append_left _ hr)⟩
  · have htimeline : s.timeline = s.delivered :: rest.filterMap Pending.value? := by
      rw [Publisher.timeline, hq]
      rfl
    refine ⟨⟨h.current, fun u hu => h.timeline u (htimeline ▸ hu), hobs⟩, fun c hc => ?_⟩
    obtain rfl := List.mem_singleton.1 hc
    refine ⟨h.timeline _ (htimeline ▸ List.mem_cons_self), h.observers r ?_⟩
    exact List.mem_append_right _ (arrivals_of_attach hq ▸ List.mem_cons_self)

end Publisher.Upholds

/-! ### Worlds -/

namespace World.Upholds

/-- A world that differs in nothing that is run or held by a publisher. -/
theorem same (h : w.Upholds C) (hstore : w'.store = w.store) (hpubs : w'.publishers = w.publishers)
    (hsubs : w'.subscriptions = w.subscriptions) : w'.Upholds C := by
  refine ⟨hstore ▸ h.store, hpubs ▸ h.made, fun q s hs => h.publishers q s ?_, hsubs ▸ h.teardowns⟩
  rw [World.publisher?, ← hpubs]
  exact hs

theorem enterAll (h : w.Upholds C) (ms : List Monitor) : (w.enterAll ms).Upholds C := by
  rw [World.enterAll_eq]
  exact h.same rfl rfl rfl

theorem setPublisher (h : w.Upholds C) (hs : s'.Upholds C q) : (w.setPublisher q s').Upholds C := by
  refine ⟨h.store, (Heap.size_set w.publishers _ _).symm ▸ h.made, ?_, h.teardowns⟩
  intro p r hr
  by_cases hq : q = p
  · subst hq
    cases hold : w.publisher? q with
    | none =>
        have hget := Heap.get?_set w.publishers q.index q.index s'
        rw [if_pos rfl, show w.publishers.get? q.index = none from hold] at hget
        exact nomatch hget.symm.trans hr
    | some s =>
        rw [World.publisher?_setPublisher_self hold] at hr
        cases hr
        exact hs
  · rw [World.publisher?_setPublisher_ne hq] at hr
    exact h.publishers p r hr

theorem newSubscription (h : w.Upholds C) {t : Option (Teardown V P σ ε)}
    (ht : ∀ c, t = some (.run c) → c.Upholds C fun _ => True) :
    (w.newSubscription t).2.Upholds C := by
  refine ⟨h.store, h.made, h.publishers, ?_⟩
  intro i c hc
  rcases Heap.of_get?_alloc_eq_some _ i t _ hc with hold | hnew
  · exact h.teardowns i c hold
  · exact ht c hnew.symm

/-- A subscription that is disposed loses its teardown. -/
theorem dispose (h : w.Upholds C) (i : Nat) :
    ({ w with subscriptions := w.subscriptions.set i none } : World V P σ ε).Upholds C := by
  refine ⟨h.store, h.made, h.publishers, ?_⟩
  exact fun j c hc => h.teardowns j c (Heap.of_get?_set_none _ i j _ hc)

/-- The answer of an operation of one step is as expected. -/
theorem grants [BEq V] {a : Atom V σ ε} {x : a.Answer} {es : List (Event V ε)} (h : w.Upholds C)
    (hp : w.perform a = some (x, w', es)) : C.Grants a x := by
  cases a with
  | own f => cases hp; exact h.store
  | newPublisher guard v =>
      cases hp
      intro he
      exact absurd h.made (he ▸ Nat.lt_irrefl _)
  | current q =>
      obtain ⟨s, hs, hp⟩ := Option.map_eq_some_iff.1 hp
      cases hp
      exact (h.publishers q s hs).current
  | _ => exact trivial

/-- An operation of one step keeps to a contract, and its answer is as expected. -/
theorem perform [BEq V] {a : Atom V σ ε} {x : a.Answer} {es : List (Event V ε)} (h : w.Upholds C)
    (ha : C.Allows a) (hp : w.perform a = some (x, w', es)) : w'.Upholds C ∧ C.Grants a x := by
  refine ⟨⟨?_, ?_, ?_, fun i c hc => h.teardowns i c (World.of_perform_teardown hp hc)⟩, h.grants hp⟩
  · rcases (World.performed hp).store with he | ⟨f, rfl, he⟩
    · exact he ▸ h.store
    · exact he ▸ ha _ h.store
  · rcases (World.performed hp).publishers with he | ⟨guard, v, -, he⟩
    · exact he ▸ h.made
    · rw [he, Heap.size_alloc]
      exact Nat.lt_succ_of_lt h.made
  · intro q s hs
    by_cases hq : q = C.publisher
    · subst hq
      -- whatever has a number already keeps it
      have hget : w.publisher? C.publisher = some _ := List.getElem?_eq_getElem h.made
      rw [← Option.some.inj ((World.perform_publisher? hp hget).symm.trans hs)]
      exact h.publishers _ _ hget
    · rcases World.of_perform_publisher? hp hs with hold | ⟨guard, v, rfl⟩
      · exact h.publishers q s hold
      · exact ⟨fun he => absurd he hq, fun _ _ he => absurd he hq, nofun⟩

end World.Upholds

/-! ## Moves and runs -/

namespace Thread

variable [BEq V] {body : P → Prog V P σ ε} {t t' : Thread V P σ ε} {es : List (Event V ε)}

omit [BEq V] in
theorem Upholds.ret {v : V} (hst : C.Awaits F E st) (hv : E v) :
    Thread.Upholds C F ⟨.run (.ret v), st⟩ :=
  .run (E := E) hv hst

omit [BEq V] in
/-- A thread that keeps to a contract ends with a value of the sort it is said to end with. -/
theorem Upholds.returned {v : V} (h : t.Upholds C F) (ho : t.outcome? = some (.returned v)) :
    F v := by
  rcases outcome_cases ho with ⟨u, rfl⟩ | ⟨text, rfl⟩
  · cases ho
    cases h with
    | run hv hst =>
        cases hst with
        | nil hF => exact hF v hv
  · exact nomatch ho

/-- What is called while a thread waits for a value. -/
theorem upholds_of_ret {v : V} (hm : Moves body w ⟨.run (.ret v), st⟩ es w' t') (hv : E v)
    (hw : w.Upholds C) (hst : C.Awaits F E st) :
    w'.Upholds C ∧ t'.Upholds C F ∧ C.Delivers es := by
  cases hst with
  | nil => exact nomatch hm.step
  | resume hk hst =>
      cases hm with
      | resumed => exact ⟨hw, .run (hk v hv) hst, C.delivers_nil⟩
  | attempt hk hst =>
      cases hm with
      | unharmed => exact ⟨hw, .run (hk none) hst, C.delivers_nil⟩
  | leave hst =>
      cases hm with
      | left => exact ⟨hw.same rfl rfl rfl, .run hv hst, C.delivers_nil⟩
  | @deliver _ q calls st hcalls hst =>
      cases hm with
      | @called _ _ c calls =>
          obtain ⟨⟨hvalue, hobs⟩, hrest⟩ := List.forall_mem_cons.1 hcalls
          refine ⟨hw, .run (hobs c.value hvalue) (.observe (.deliver hrest hst)), fun id u hu => ?_⟩
          cases List.mem_singleton.1 hu
          exact hvalue rfl
      | drained hp hpop =>
          have hs := hw.publishers q _ hp
          exact ⟨hw.setPublisher (hs.draining false), .ret hst hs.current, C.delivers_nil⟩
      | @popped _ _ s d s' _ hp hpop =>
          -- what is delivered is queued or held, and both are values of the contract
          obtain ⟨hs', hcalls⟩ := (hw.publishers q s hp).pop hpop
          refine ⟨hw.setPublisher hs', .run hv (.deliver hcalls hst), ?_⟩
          cases d with
          | round calls => exact nofun
          | replay call n => exact nofun
  | observe hst =>
      cases hm with
      | observed => exact ⟨hw, .run hv hst, C.delivers_nil⟩
  | @commit _ q st hq hst =>
      cases hm with
      | amendedSame hp hc => exact ⟨hw, .ret hst (hw.publishers q _ hp).current, C.delivers_nil⟩
      | amended hp hc =>
          exact ⟨hw.setPublisher ((hw.publishers q _ hp).commit (hq v hv) hc), .drain hst, nofun⟩
  | register hk hst =>
      cases hm with
      | registered => exact ⟨hw.newSubscription nofun, .run (hk _) hst, C.delivers_nil⟩
  | swapIn hf hst =>
      cases hm with
      | swapped => exact ⟨hw.same rfl rfl rfl, .ret hst trivial, C.delivers_nil⟩
      | contended => exact ⟨hw, .run (hf _) (.swapIn hf hst), nofun⟩

/-- What a panic does on its way. -/
theorem upholds_of_unwind {text : String} (hm : Moves body w ⟨.unwind text, st⟩ es w' t')
    (hw : w.Upholds C) (hst : C.Awaits F (fun _ => False) st) :
    w'.Upholds C ∧ t'.Upholds C F ∧ C.Delivers es := by
  cases hst with
  | nil => exact nomatch hm.step
  | resume _ hst | register _ hst | commit _ hst | swapIn _ hst =>
      cases hm with
      | passed => exact ⟨hw, .unwind (hst.anti nofun), C.delivers_nil⟩
  | observe hst =>
      cases hm with
      | passed => exact ⟨hw, .unwind hst, C.delivers_nil⟩
  | attempt hk hst =>
      cases hm with
      | caught => exact ⟨hw, .run (hk _) hst, C.delivers_nil⟩
      | passed hfr => exact hfr.elim
  | leave hst =>
      cases hm with
      | expelled => exact ⟨hw.same rfl rfl rfl, .unwind hst, C.delivers_nil⟩
      | passed hfr => exact hfr.elim
  | @deliver _ q calls st _ hst =>
      cases hm with
      | abandoned hp =>
          have hs := (hw.publishers q _ hp).abandon
          exact ⟨hw.setPublisher hs, .unwind (hst.anti nofun), C.delivers_nil⟩
      | passed hfr => exact hfr.elim

/-- The first operation of a program. -/
theorem upholds_of_run {c : Prog V P σ ε} (hm : Moves body w ⟨.run c, st⟩ es w' t')
    (hbody : ∀ c, (body c).Upholds C fun _ => True) (hw : w.Upholds C) (hc : c.Upholds C E)
    (hst : C.Awaits F E st) :
    w'.Upholds C ∧ t'.Upholds C F ∧ C.Delivers es := by
  cases c with
  | ret v => exact upholds_of_ret hm hc hw hst
  | panic text =>
      cases hm with
      | panicked => exact ⟨hw, .unwind (hst.anti nofun), C.delivers_nil⟩
  | atom a k =>
      cases hm with
      | performed ha =>
          obtain ⟨hw', hx⟩ := hw.perform hc.1 ha
          refine ⟨hw', .run (hc.2 _ hx) hst, fun id v hv => ?_⟩
          have hsignal : Signal.called id v ∈ signals C.publisher es :=
            List.mem_filterMap.2 ⟨_, hv, if_pos rfl⟩
          rw [signals_perform _ ha] at hsignal
          exact nomatch hsignal
  | call c k =>
      cases hm with
      | entered => exact ⟨hw, .run (hbody c) (.resume (fun v _ => hc v) hst), C.delivers_nil⟩
  | attempt b k =>
      cases hm with
      | attempted => exact ⟨hw, .run hc.1 (.attempt hc.2 hst), C.delivers_nil⟩
  | hold m b k =>
      cases hm with
      | held =>
          refine ⟨hw.same rfl rfl rfl, .run hc.1 (.leave ?_), C.delivers_nil⟩
          exact .resume (fun v _ => hc.2 v) hst
  | retry r f k =>
      cases hm with
      | retried =>
          exact ⟨hw, .run (hc.1 _) (.swapIn hc.1 (.resume (fun v _ => hc.2 v) hst)), C.delivers_nil⟩
  | publish q v k =>
      cases hm with
      | @publishedSame _ _ _ s _ hp _ =>
          refine ⟨hw.enterAll _, .ret (E := fun _ => True) ?_ trivial, C.delivers_nil⟩
          exact Contract.Awaits.leaving (.resume (fun _ _ => hc.2) hst) s
      | @published _ _ _ s s' _ hp hcommit =>
          have hs := (hw.publishers q s hp).commit hc.1 hcommit
          refine ⟨(hw.enterAll _).setPublisher hs, .drain ?_, nofun⟩
          exact Contract.Awaits.leaving (.resume (fun _ _ => hc.2) hst) s
  | amend q f k =>
      cases hm with
      | @amending _ _ _ s _ hp =>
          -- the function is given the value held, which satisfies the contract
          have hf := hc.1 s.current (hw.publishers q s hp).current
          refine ⟨hw.enterAll _, .run hf (.commit (fun _ h => h) ?_), C.delivers_nil⟩
          exact Contract.Awaits.leaving (.resume hc.2 hst) s
  | attach q keeps o k =>
      cases hm with
      | @attached _ _ _ _ s _ hp =>
          have hs := (hw.publishers q s hp).enqueue (o := ⟨o, keeps⟩) hc.1
          refine ⟨(hw.enterAll _).setPublisher hs, .drain ?_, nofun⟩
          exact Contract.Awaits.leaving (.register hc.2 hst) s
  | onDispose c k =>
      cases hm with
      | prepared =>
          refine ⟨hw.newSubscription ?_, .run (hc.2 _) hst, C.delivers_nil⟩
          rintro c' ⟨⟩
          exact hc.1
  | dispose s k =>
      have hk : k.Upholds C E := hc
      cases hm with
      | disposedAgain => exact ⟨hw, .run hk hst, C.delivers_nil⟩
      | tornDown hs =>
          refine ⟨hw.dispose _, .run (hw.teardowns _ _ hs) (.resume (fun _ _ => hk) hst), ?_⟩
          exact nofun
      | @detached _ p id q _ _ hs hp =>
          have hq := (hw.publishers p q hp).detach id
          refine ⟨(hw.dispose _).setPublisher hq, .run hk hst, fun id v hv => ?_⟩
          simp at hv

/-- Contracts are kept by every move. -/
theorem Moves.upholds (hm : Moves body w t es w' t')
    (hbody : ∀ c, (body c).Upholds C fun _ => True) (hw : w.Upholds C) (ht : t.Upholds C F) :
    w'.Upholds C ∧ t'.Upholds C F ∧ C.Delivers es := by
  cases ht with
  | run hc hst => exact upholds_of_run hm hbody hw hc hst
  | unwind hst => exact upholds_of_unwind hm hw hst
  | @drain q st hst =>
      cases hm with
      | busy hp hb => exact ⟨hw, .ret hst (hw.publishers q _ hp).current, C.delivers_nil⟩
      | draining hp hb =>
          have hs := hw.publishers q _ hp
          obtain ⟨-, rfl⟩ := Publisher.beginDrain_eq_some hb
          refine ⟨hw.setPublisher (hs.draining true), .ret (.deliver ?_ hst) hs.current, ?_⟩
          · exact fun _ hc => absurd hc List.not_mem_nil
          · exact C.delivers_nil

end Thread

/-- Contracts are kept by whoever starts nothing that breaks them. -/
theorem Run.upholds [BEq V] {body : P → Prog V P σ ε} {starts : Prog V P σ ε → Prop}
    {ok : Thread V P σ ε → Prop} {t t' : Thread V P σ ε} {es : List (Event V ε)}
    (h : Run body starts ok w t es w' t') (hbody : ∀ c, (body c).Upholds C fun _ => True)
    (hstarts : ∀ c, starts c → c.Upholds C F) (hw : w.Upholds C) (ht : t.Upholds C F) :
    w'.Upholds C ∧ t'.Upholds C F ∧ C.Delivers es := by
  induction h with
  | refl => exact ⟨hw, ht, C.delivers_nil⟩
  | step _ hstep _ ih =>
      obtain ⟨hw₁, ht₁, hpast⟩ := ih
      obtain ⟨hw₂, ht₂, hnow⟩ := (Thread.moves_iff.2 hstep).upholds hbody hw₁ ht₁
      exact ⟨hw₂, ht₂, fun id v hv => (List.mem_append.1 hv).elim (hpast id v) (hnow id v)⟩
  | next _ _ hc _ ih =>
      obtain ⟨hw₁, -, hpast⟩ := ih
      exact ⟨hw₁, .run (hstarts _ hc) (.nil fun _ h => h), hpast⟩

end Preservation

end ReactiveCells
