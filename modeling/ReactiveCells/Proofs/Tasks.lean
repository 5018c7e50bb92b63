import ReactiveCells.Proofs.Towers

/-!
# Tasks — programs of one container, and containers that look alike

A task works with one container only: it reads and writes it, modifies it by functions that may do
such things themselves, compares and exchanges where the container can, and subscribes observers
that may do such things, too. Which container that is, or whether it is a view on one, the task
does not say (`Task.on`).

Done on a view, a task performs other operations than on the container that the view looks like:
the values it hands over are reverted, those it is answered are converted, and an observer stands
behind a gate. Two programs are `Alike` if that is all they differ in, operation by operation. What
they end with is related in a given way: what the programs of a task end with is the same, and the
function of a modification ends with a value that the view has reverted.

Main statements: `Alike.bind` (programs that are alike go on alike) and `Task.alike` (a task is
alike on a view with inverse conversions and on a container of the same kind).
-/

namespace ReactiveCells

variable {V P σ ε : Type}

/-- What a client of one container does. -/
inductive Task (V σ ε : Type) (kind : Kind) where
  | ret (v : V)
  | panic (text : String)
  | own (f : σ → σ) (next : σ → Task V σ ε kind)
  | tell (e : ε) (next : Task V σ ε kind)
  | get (next : V → Task V σ ε kind)
  | set (v : V) (next : Task V σ ε kind)
  | modify (f : V → Task V σ ε kind) (next : V → Task V σ ε kind)
  | compareAndSet (h : kind = .swap) (expect update : V) (next : Bool → Task V σ ε kind)
  | getAndSet (h : kind = .swap) (v : V) (next : V → Task V σ ε kind)
  | subscribe (h : kind = .reactive) (observer : V → Task V σ ε kind) (next : Task V σ ε kind)

/-- The program of a task on a container. -/
def Task.on [BEq V] {kind : Kind} (n : Node (Routine V P σ ε) kind) :
    Task V σ ε kind → Prog V P σ ε
  | .ret v => .ret v
  | .panic text => .panic text
  | .own f next => .atom (.own f) fun s => (next s).on n
  | .tell e next => .atom (.tell e) fun _ => next.on n
  | .get next => n.get fun v => (next v).on n
  | .set v next => n.set v fun _ => next.on n
  | .modify f next => n.modify (fun v => (f v).on n) fun v => (next v).on n
  | .compareAndSet h expect update next => n.comparing h expect update fun b => (next b).on n
  | .getAndSet h v next => n.exchanging h v fun u => (next u).on n
  | .subscribe h observer next =>
      n.subscribing h n.publishers (fun v k => ((observer v).on n).bind fun _ => k ())
        fun _ => next.on n

/-- The root of a view, and a container of the same kind that the view looks like. -/
inductive Twins where
  | cells (root twin : CellRef)
  | publishers (root twin : PublisherRef)

/-- A reaction behind a gate. -/
def Gate.guarding [BEq V] (g : Gate V) (o : V → Act V P σ ε Unit) : Routine V P σ ε := fun v =>
  (Gate.before [g] o v).thenRet v

theorem Gate.guarding_eq [BEq V] (g : Gate V) (o : V → Act V P σ ε Unit) (v : V) :
    Gate.guarding g o v = .atom (.memo g.last (g.pass v)) fun (seen : List V) =>
      if seen.any (· == g.shows v) then .ret v else o (g.shows v) fun _ => .ret v :=
  Gate.before_cons g [] o v fun _ => .ret v

/-- Whether a value is another one reverted. -/
def Reverts (back : V → V) (x y : V) : Prop := x = back y

/-- Nothing is said about two values. -/
def Unrelated (_ _ : V) : Prop := True

/-- Whether two programs differ only in that one uses the root of a view where the other one uses
its twin. They end with related values. -/
inductive Alike [BEq V] (forth back : V → V) (m : Twins) :
    (V → V → Prop) → Prog V P σ ε → Prog V P σ ε → Prop where
  | ret {R : V → V → Prop} {x y : V} : R x y → Alike forth back m R (.ret x) (.ret y)
  | panic {R : V → V → Prop} (text : String) : Alike forth back m R (.panic text) (.panic text)
  | own {R : V → V → Prop} {k k' : σ → Prog V P σ ε} (f : σ → σ) :
      (∀ s, Alike forth back m R (k s) (k' s)) →
      Alike forth back m R (.atom (.own f) k) (.atom (.own f) k')
  | tell {R : V → V → Prop} {k k' : Unit → Prog V P σ ε} (e : ε) :
      Alike forth back m R (k ()) (k' ()) →
      Alike forth back m R (.atom (.tell e) k) (.atom (.tell e) k')
  | hold {R S : V → V → Prop} {l l' : Monitor} {b b' : Prog V P σ ε} {k k' : Routine V P σ ε} :
      Alike forth back m S b b' → (∀ x y, S x y → Alike forth back m R (k x) (k' y)) →
      Alike forth back m R (.hold l b k) (.hold l' b' k')
  | load {R : V → V → Prop} {c c' : CellRef} {k k' : Routine V P σ ε} : m = .cells c c' →
      (∀ v, Alike forth back m R (k (back v)) (k' v)) →
      Alike forth back m R (.atom (.load c) k) (.atom (.load c') k')
  | store {R : V → V → Prop} {c c' : CellRef} {k k' : Unit → Prog V P σ ε} (v : V) :
      m = .cells c c' → Alike forth back m R (k ()) (k' ()) →
      Alike forth back m R (.atom (.store c (back v)) k) (.atom (.store c' v) k')
  | swap {R : V → V → Prop} {c c' : CellRef} {k k' : Routine V P σ ε} (v : V) : m = .cells c c' →
      (∀ u, Alike forth back m R (k (back u)) (k' u)) →
      Alike forth back m R (.atom (.swap c (back v)) k) (.atom (.swap c' v) k')
  | exchange {R : V → V → Prop} {c c' : CellRef} {k k' : Bool → Prog V P σ ε} (u v : V) :
      m = .cells c c' → (∀ b, Alike forth back m R (k b) (k' b)) →
      Alike forth back m R (.atom (.exchange c (back u) (back v)) k) (.atom (.exchange c' u v) k')
  | retry {R : V → V → Prop} {c c' : CellRef} {f f' k k' : Routine V P σ ε} : m = .cells c c' →
      (∀ v, Alike forth back m (Reverts back) (f (back v)) (f' v)) →
      (∀ v, Alike forth back m R (k (back v)) (k' v)) →
      Alike forth back m R (.retry c f k) (.retry c' f' k')
  | current {R : V → V → Prop} {p p' : PublisherRef} {k k' : Routine V P σ ε} :
      m = .publishers p p' → (∀ v, Alike forth back m R (k (back v)) (k' v)) →
      Alike forth back m R (.atom (.current p) k) (.atom (.current p') k')
  | publish {R : V → V → Prop} {p p' : PublisherRef} {k k' : Prog V P σ ε} (v : V) :
      m = .publishers p p' → Alike forth back m R k k' →
      Alike forth back m R (.publish p (back v) k) (.publish p' v k')
  | amend {R : V → V → Prop} {p p' : PublisherRef} {f f' k k' : Routine V P σ ε} :
      m = .publishers p p' →
      (∀ v, Alike forth back m (Reverts back) (f (back v)) (f' v)) →
      (∀ v, Alike forth back m R (k (back v)) (k' v)) →
      Alike forth back m R (.amend p f k) (.amend p' f' k')
  /-- The observer of the view stands behind a gate and is given what the other one is. -/
  | subscribe {R : V → V → Prop} {p p' : PublisherRef} {keeps keeps' : List PublisherRef}
      {o : V → Act V P σ ε Unit} {o' : Routine V P σ ε}
      {k k' : SubscriptionRef → Prog V P σ ε} : m = .publishers p p' →
      (∀ v, Alike forth back m Unrelated (o v fun _ => .ret (back v)) (o' v)) →
      (∀ d d', Alike forth back m R (k d) (k' d')) →
      Alike forth back m R
        (.atom (.newMemo []) fun (last : MemoRef) =>
          .attach p keeps (Gate.guarding ⟨last, forth⟩ o) k)
        (.attach p' keeps' o' k')

section Alike

variable [BEq V] {forth back : V → V} {m : Twins} {R S : V → V → Prop}

/-- Programs that are alike go on alike. -/
theorem Alike.bind {c c' : Prog V P σ ε} {k k' : Routine V P σ ε}
    (h : Alike forth back m R c c')
    (hk : ∀ x y, R x y → Alike forth back m S (k x) (k' y)) :
    Alike forth back m S (c.bind k) (c'.bind k') := by
  induction h with
  | ret hxy => exact hk _ _ hxy
  | panic text => exact .panic text
  | own f _ ih => exact .own f fun s => ih s hk
  | tell e _ ih => exact .tell e (ih hk)
  | hold hb _ _ ih => exact .hold hb fun x y hxy => ih x y hxy hk
  | load hm _ ih => exact .load hm fun v => ih v hk
  | store v hm _ ih => exact .store v hm (ih hk)
  | swap v hm _ ih => exact .swap v hm fun u => ih u hk
  | exchange u v hm _ ih => exact .exchange u v hm fun b => ih b hk
  | retry hm hf _ _ ih => exact .retry hm hf fun v => ih v hk
  | current hm _ ih => exact .current hm fun v => ih v hk
  | publish v hm _ ih => exact .publish v hm (ih hk)
  | amend hm hf _ _ ih => exact .amend hm hf fun v => ih v hk
  | subscribe hm ho _ _ ih => exact .subscribe hm ho fun d d' => ih d d' hk

/-- A root and a container of the same kind. -/
inductive Twins.Nodes {F : Type} : Twins → {kind : Kind} → Node F kind → Node F kind → Prop
  | swap (c c' : CellRef) : Nodes (.cells c c') (.swap c) (.swap c')
  | guarded (l l' : LockId) (c c' : CellRef) :
      Nodes (.cells c c') (.guarded l c) (.guarded l' c')
  | rx (p p' : PublisherRef) : Nodes (.publishers p p') (.rx p) (.rx p')
  | rxGuarded (l l' : LockId) (p p' : PublisherRef) :
      Nodes (.publishers p p') (.rxGuarded l p) (.rxGuarded l' p')

/-- A view that only computes. -/
def Node.pureView {kind : Kind} (root : Node (Routine V P σ ε) kind) (forth back : V → V) :
    Node (Routine V P σ ε) kind :=
  root.view ⟨Node.pureRoutine forth, Node.pureRoutine back⟩

variable {kind : Kind} {n n' : Node (Routine V P σ ε) kind}

/-- A function to modify by ends with a value that the view has reverted. -/
theorem Alike.within {f f' : Routine V P σ ε} (hforth : ∀ v, forth (back v) = v)
    (hf : ∀ v, Alike forth back m Eq (f v) (f' v)) (v : V) :
    Alike forth back m (Reverts back)
      (Converter.within ⟨Node.pureRoutine forth, Node.pureRoutine back⟩ f (back v)) (f' v) := by
  show Alike forth back m _ ((f (forth (back v))).bind fun u => .ret (back u)) (f' v)
  rw [hforth, ← Prog.bind_ret (f' v)]
  exact (hf v).bind fun x y hxy => .ret (congrArg back hxy)

/-- A task is alike on a view with inverse conversions and on a container of the same kind. -/
theorem Task.alike (hforth : ∀ v, forth (back v) = v) (hn : m.Nodes n n') (t : Task V σ ε kind) :
    Alike forth back m Eq (t.on (n.pureView forth back)) (t.on n') := by
  -- the view shows what the container holds
  have shown : ∀ next : V → Task V σ ε kind,
      (∀ v, Alike forth back m Eq ((next v).on (n.pureView forth back)) ((next v).on n')) →
      ∀ v, Alike forth back m Eq ((next (forth (back v))).on (n.pureView forth back))
        ((next v).on n') := fun next ih v => (hforth v).symm ▸ ih v
  induction t with
  | ret v => exact .ret rfl
  | panic text => exact .panic text
  | own f next ih => exact .own f ih
  | tell e next ih => exact .tell e ih
  | get next ih =>
      have hnext := shown next ih
      -- what is read inside a lock ends with the value, and what follows is outside
      have inside : ∀ {l l' : Monitor} {b b' : Prog V P σ ε},
          Alike forth back m (Reverts back) b b' →
          Alike forth back m Eq (.hold l b fun v => (next (forth v)).on (n.pureView forth back))
            (.hold l' b' fun v => (next v).on n') := by
        intro l l' b b' hb
        refine .hold hb ?_
        rintro x y rfl
        exact hnext y
      cases hn with
      | swap => exact .load rfl hnext
      | guarded => exact inside (.load rfl fun v => .ret rfl)
      | rx => exact .current rfl hnext
      | rxGuarded => exact inside (.current rfl fun v => .ret rfl)
  | set v next ih =>
      cases hn with
      | swap => exact .store v rfl ih
      | guarded => exact .hold (S := Reverts back) (.store v rfl (.ret rfl)) fun _ _ _ => ih
      | rx | rxGuarded => exact .publish v rfl ih
  | modify f next ihf ih =>
      have hnext := shown next ih
      have hwithin := Alike.within hforth ihf
      cases hn with
      | swap => exact .retry rfl hwithin hnext
      | guarded =>
          refine .hold (S := Reverts back) (.load rfl fun v => (hwithin v).bind ?_) ?_
          · rintro x y rfl
            exact .store y rfl (.ret rfl)
          · rintro x y rfl
            exact hnext y
      | rx | rxGuarded => exact .amend rfl hwithin hnext
  | compareAndSet h expect update next ih =>
      cases hn with
      | swap => exact .exchange expect update rfl ih
      | guarded | rx | rxGuarded => exact nomatch h
  | getAndSet h v next ih =>
      cases hn with
      | swap => exact .swap v rfl (shown next ih)
      | guarded | rx | rxGuarded => exact nomatch h
  | subscribe h observer next iho ih =>
      have hobserver : ∀ v, Alike forth back m Unrelated
          (((observer v).on (n.pureView forth back)).bind fun _ => .ret (back v))
          (((observer v).on n').bind fun _ => .ret v) := fun v =>
        (iho v).bind fun _ _ _ => .ret trivial
      cases hn with
      | swap | guarded => exact nomatch h
      | rx | rxGuarded => exact .subscribe rfl hobserver fun _ _ => ih

end Alike

end ReactiveCells
