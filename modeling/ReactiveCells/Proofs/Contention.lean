import Mathlib.Data.List.Perm.Basic
import Mathlib.Logic.Function.Basic
import ReactiveCells.Node
import ReactiveCells.Proofs.Run

/-!
# Contention — many clients of one cell

The machine runs one operation of a `swap` node after the other and tells stores apart by their
stamps. Here the same operations are taken apart into what is really indivisible when many clients
share a cell: a load, a store, a swap and a compare-and-swap of the address of an allocation. The
cell is a `Cell` of addresses, an allocation holds a value for good, and a new one is made at any
address that nobody holds. A value is compared by equality, an allocation by its address.

An operation is decided by one of its steps, and the history has the decided operations in that
order. While an address is held its allocation stays as it is, so a compare-and-swap that finds
the address it expects finds the value that was seen under it, whatever was stored meanwhile.
Therefore every entry of the history is what the operation does to the value it finds.

Main statements: `Serial.run` (what the machine makes of a history), `Linear.step` and
`Stamped.step` (what one step keeps), and `cas_linearizable`.
-/

namespace ReactiveCells.Contention

/-! ## Operations, one at a time -/

/-- An operation on a cell. -/
inductive Op (V : Type) where
  | get
  | set (v : V)
  | modify (f : V → V)
  | compareAndSet (expect update : V)
  | getAndSet (v : V)

/-- What an operation comes back with. -/
inductive Answer (V : Type) where
  | done
  | value (v : V)
  | stored (b : Bool)
deriving DecidableEq

variable {ι V P σ ε : Type}

/-- The operation on a `swap` node. -/
def Op.act (c : CellRef) : Op V → Act V P σ ε (Answer V)
  | .get => do return .value (← (Node.swap c).get)
  | .set v => do
      (Node.swap c).set v
      return .done
  | .modify f => do return .value (← (Node.swap c).modify (Node.pureRoutine f))
  | .compareAndSet expect update => do
      return .stored (← (Node.swap c).compareAndSet expect update)
  | .getAndSet v => do return .value (← (Node.swap c).getAndSet v)

/-- The operations one after the other, with all that they come back with. -/
def serially (c : CellRef) : List (Op V) → Act V P σ ε (List (Answer V))
  | [] => pure []
  | op :: ops => do
      let x ← op.act c
      let xs ← serially c ops
      return x :: xs

/-- What an operation comes back with and leaves, if it finds a value. -/
def Op.apply [BEq V] (v : V) : Op V → Answer V × V
  | .get => (.value v, v)
  | .set u => (.done, u)
  | .modify f => (.value (f v), f v)
  | .compareAndSet expect update =>
      if v == expect then (.stored true, update) else (.stored false, v)
  | .getAndSet u => (.value v, u)

/-- The entries of a history are what the operations do one after the other, from the first value
to the last one. -/
inductive Serial [BEq V] : V → List (Op V × Answer V) → V → Prop where
  | nil {v : V} : Serial v [] v
  | cons {v v' : V} {op : Op V} {es : List (Op V × Answer V)} :
      Serial (op.apply v).2 es v' → Serial v ((op, (op.apply v).1) :: es) v'

section Serial

variable [BEq V] {v v' : V} {es : List (Op V × Answer V)}

theorem Serial.snoc (h : Serial v es v') (op : Op V) :
    Serial v (es ++ [(op, (op.apply v').1)]) (op.apply v').2 := by
  induction h with
  | nil => exact .cons .nil
  | cons _ ih => exact .cons ih

/-- A history leaves what its operations make of the first value. -/
theorem Serial.foldl (h : Serial v es v') :
    v' = (es.map (·.1)).foldl (fun v op => (op.apply v).2) v := by
  induction h with
  | nil => rfl
  | cons _ ih => exact ih

end Serial

section Machine

variable [BEq V] {body : P → Prog V P σ ε} {w : World V P σ ε} {c : CellRef} {d : Cell V}
  {st : List (Frame V P σ ε)}

/-- One call of the machine. -/
theorem atom_run {w' : World V P σ ε} {a : Atom V σ ε} {x : a.Answer}
    {k : a.Answer → Prog V P σ ε} (h : w.perform a = some (x, w', [])) :
    CalmRun body w ⟨.run (.atom a k), st⟩ [] w' ⟨.run (k x), st⟩ :=
  .single (Thread.Moves.performed h).step trivial

/-- The machine does to a cell what the operation does to its value, and nothing else. -/
theorem Op.run (body : P → Prog V P σ ε) (st : List (Frame V P σ ε)) (hc : w.cell? c = some d)
    (op : Op V) (k : Answer V → Prog V P σ ε) :
    ∃ d', d'.value = (op.apply d.value).2 ∧
      CalmRun body w ⟨.run (op.act c k), st⟩ [] (w.setCell c d')
        ⟨.run (k (op.apply d.value).1), st⟩ := by
  cases op with
  | get =>
      refine ⟨d, rfl, ?_⟩
      rw [World.setCell_self hc]
      exact atom_run (congrArg (Option.map _) hc)
  | set v => exact ⟨d.store v, rfl, atom_run (congrArg (Option.map _) hc)⟩
  | modify f =>
      refine ⟨d.store (f d.value), rfl, ?_⟩
      have hswap : d.swapIn d.stamp (f d.value) = some (d.store (f d.value)) :=
        (Cell.swapIn_eq_some_iff _ _ _ _).2 ⟨rfl, rfl⟩
      exact .cons (Thread.Moves.retried hc).step trivial
        (.cons (Thread.Moves.swapped hc hswap).step trivial
          (.single Thread.Moves.resumed.step trivial))
  | compareAndSet expect update =>
      cases heq : d.value == expect with
      | true =>
          have happly : Op.apply d.value (.compareAndSet expect update) = (.stored true, update) :=
            if_pos heq
          have hperf : w.perform (.exchange c expect update) =
              some (true, w.setCell c (d.store update), []) := by
            simp only [World.perform, hc, Option.map_some, Cell.exchange, heq, if_true]
            rfl
          rw [happly]
          exact ⟨d.store update, rfl, atom_run hperf⟩
      | false =>
          have happly : Op.apply d.value (.compareAndSet expect update) =
              (.stored false, d.value) := if_neg (by rw [heq]; exact Bool.false_ne_true)
          have hperf : w.perform (.exchange c expect update) = some (false, w, []) := by
            simp only [World.perform, hc, Option.map_some, Cell.exchange, heq, Bool.false_eq_true,
              if_false]
            rfl
          rw [happly]
          refine ⟨d, rfl, ?_⟩
          rw [World.setCell_self hc]
          exact atom_run hperf
  | getAndSet v => exact ⟨d.store v, rfl, atom_run (congrArg (Option.map _) hc)⟩

/-- What the machine makes of the operations of a history is what the history tells. -/
theorem Serial.run {v : V} {es : List (Op V × Answer V)} (body : P → Prog V P σ ε)
    (st : List (Frame V P σ ε)) (h : Serial d.value es v) (hc : w.cell? c = some d)
    (k : List (Answer V) → Prog V P σ ε) :
    ∃ d', d'.value = v ∧
      CalmRun body w ⟨.run (serially c (es.map (·.1)) k), st⟩ [] (w.setCell c d')
        ⟨.run (k (es.map (·.2))), st⟩ := by
  generalize hv : d.value = v₀ at h
  induction h generalizing w d k with
  | nil =>
      subst hv
      refine ⟨d, rfl, ?_⟩
      rw [World.setCell_self hc]
      exact .refl
  | @cons _ _ op es _ ih =>
      subst hv
      obtain ⟨d₁, hd₁, hone⟩ := Op.run body st hc op
        (fun x => serially c (es.map (·.1)) fun xs => k (x :: xs))
      have hc₁ := World.cell?_setCell_self hc d₁
      obtain ⟨d₂, hd₂, hrest⟩ := ih (k := fun xs => k ((op.apply d.value).1 :: xs)) hc₁ hd₁
      rw [World.setCell_setCell] at hrest
      exact ⟨d₂, hd₂, hone.trans hrest⟩

end Machine

/-! ## Allocations and clients -/

/-- Where an allocation is. -/
structure Address where
  index : Nat
deriving DecidableEq

/-- What the allocations hold, and the cell, which has the address of one of them. -/
structure Memory (V : Type) where
  contents : Address → V
  cell : Cell Address

/-- An allocation is filled. -/
def Memory.write (m : Memory V) (a : Address) (v : V) : Memory V :=
  { m with contents := Function.update m.contents a v }

/-- The value of the cell. -/
def Memory.value (m : Memory V) : V :=
  m.contents m.cell.value

/-- How far a client is with an operation. Of the cell that it has seen it knows the address; the
stamp says how many stores it has seen. -/
inductive Stage (V : Type) where
  | resting
  | called (op : Op V)
  /-- The value to be stored is allocated. -/
  | prepared (op : Op V) (new : Address)
  | computing (f : V → V) (seen : Cell Address)
  | proposing (f : V → V) (seen : Cell Address) (new : Address)
  | comparing (expect update : V) (new : Address) (seen : Cell Address)
  | attempting (expect update : V) (new : Address) (seen : Cell Address)
  /-- The operation comes back with what an allocation holds. -/
  | reading (op : Op V) (a : Address)
  | told (op : Op V) (x : Answer V)

namespace Stage

/-- The allocations that a client keeps alive. -/
def holds : Stage V → List Address
  | .resting | .called _ | .told .. => []
  | .prepared _ new => [new]
  | .computing _ seen => [seen.value]
  | .proposing _ seen new | .comparing _ _ new seen | .attempting _ _ new seen => [seen.value, new]
  | .reading _ a => [a]

/-- The operation in progress. -/
def op? : Stage V → Option (Op V)
  | .resting => none
  | .called op | .prepared op _ | .reading op _ | .told op _ => some op
  | .computing f _ | .proposing f .. => some (.modify f)
  | .comparing expect update .. | .attempting expect update .. =>
      some (.compareAndSet expect update)

/-- What an operation comes back with, once nothing is left to do. -/
def answer? (m : Memory V) : Stage V → Option (Op V × Answer V)
  | .reading op a => some (op, .value (m.contents a))
  | .told op x => some (op, x)
  | _ => none

end Stage

/-- The value that an operation brings along. -/
def Op.brings? : Op V → Option V
  | .get | .modify _ => none
  | .set v | .getAndSet v | .compareAndSet _ v => some v

/-- The indivisible steps of an operation, with the entry of the history for the one that decides
it. A new allocation is made at an address that is `free`. -/
inductive Stage.Moves [BEq V] (free : Address → Prop) (m : Memory V) :
    Stage V → List (Op V × Answer V) → Memory V → Stage V → Prop where
  | load : Moves free m (.called .get) [(.get, .value m.value)] m (.reading .get m.cell.value)
  | allocate {op v a} : op.brings? = some v → free a →
      Moves free m (.called op) [] (m.write a v) (.prepared op a)
  | store {v new} :
      Moves free m (.prepared (.set v) new) [(.set v, .done)]
        { m with cell := m.cell.store new } (.told (.set v) .done)
  | swap {v new} :
      Moves free m (.prepared (.getAndSet v) new) [(.getAndSet v, .value m.value)]
        { m with cell := m.cell.store new } (.reading (.getAndSet v) m.cell.value)
  -- reads, applies the function, and starts over unless the address is still the one read
  | look {f} : Moves free m (.called (.modify f)) [] m (.computing f m.cell)
  | compute {f seen a} : free a →
      Moves free m (.computing f seen) [] (m.write a (f (m.contents seen.value)))
        (.proposing f seen a)
  | propose {f seen new cell} : m.cell.exchange seen.value new = some cell →
      Moves free m (.proposing f seen new) [(.modify f, .value (m.contents new))]
        { m with cell } (.reading (.modify f) new)
  | contended {f seen new} : m.cell.exchange seen.value new = none →
      Moves free m (.proposing f seen new) [] m (.called (.modify f))
  -- reads, and is decided if the value is another one; else tries, again and again
  | inspect {expect update new} :
      Moves free m (.prepared (.compareAndSet expect update) new)
        (if m.value == expect then [] else [(.compareAndSet expect update, .stored false)]) m
        (.comparing expect update new m.cell)
  | refuse {expect update new seen} : (m.contents seen.value == expect) = false →
      Moves free m (.comparing expect update new seen) [] m
        (.told (.compareAndSet expect update) (.stored false))
  | attempt {expect update new seen} : (m.contents seen.value == expect) = true →
      Moves free m (.comparing expect update new seen) [] m (.attempting expect update new seen)
  | exchange {expect update new seen cell} : m.cell.exchange seen.value new = some cell →
      Moves free m (.attempting expect update new seen)
        [(.compareAndSet expect update, .stored true)] { m with cell }
        (.told (.compareAndSet expect update) (.stored true))
  | again {expect update new seen} : m.cell.exchange seen.value new = none →
      Moves free m (.attempting expect update new seen) [] m
        (.prepared (.compareAndSet expect update) new)

/-- A client: how far it is, what it has yet to do, and what its operations came back with. -/
structure Client (V : Type) where
  stage : Stage V
  todo : List (Op V)
  returned : List (Op V × Answer V)

/-- Clients of one cell, and the operations decided so far. -/
structure Race (ι V : Type) where
  memory : Memory V
  clients : ι → Client V
  history : List (ι × Op V × Answer V)

namespace Race

/-- Whether somebody holds an allocation. -/
def Live (s : Race ι V) (a : Address) : Prop :=
  a = s.memory.cell.value ∨ ∃ i, a ∈ (s.clients i).stage.holds

variable [DecidableEq ι]

/-- The race in which one client has gone on. -/
def put (s : Race ι V) (i : ι) (m : Memory V) (k : Client V) (es : List (Op V × Answer V)) :
    Race ι V :=
  ⟨m, Function.update s.clients i k, s.history ++ es.map (i, ·)⟩

/-- One client makes a step. -/
inductive Step [BEq V] (s : Race ι V) (i : ι) : Race ι V → Prop where
  | call {op todo} : (s.clients i).stage = .resting → (s.clients i).todo = op :: todo →
      Step s i (s.put i s.memory ⟨.called op, todo, (s.clients i).returned⟩ [])
  | move {es m stage} :
      Stage.Moves (fun a => ¬ s.Live a) s.memory (s.clients i).stage es m stage →
      Step s i (s.put i m ⟨stage, (s.clients i).todo, (s.clients i).returned⟩ es)
  | answer {e} : (s.clients i).stage.answer? s.memory = some e →
      Step s i (s.put i s.memory
        ⟨.resting, (s.clients i).todo, (s.clients i).returned ++ [e]⟩ [])

/-- What clients come to that each run a list of operations on a cell that held `v₀`. -/
inductive Reached [BEq V] (v₀ : V) (ops : ι → List (Op V)) : Race ι V → Prop where
  | start {m : Memory V} : m.value = v₀ → Reached v₀ ops ⟨m, fun i => ⟨.resting, ops i, []⟩, []⟩
  | step {s s' : Race ι V} {i : ι} : Reached v₀ ops s → Step s i s' → Reached v₀ ops s'

end Race

/-! ## Every entry is what its operation does -/

section Linear

variable [BEq V] {m m' : Memory V} {stage stage' : Stage V} {free : Address → Prop}
  {es : List (Op V × Answer V)} {v₀ : V}

/-- What the allocations of an operation hold, as far as it goes on this. -/
def Stage.Fits (m : Memory V) : Stage V → Prop
  | .prepared op new => op.brings? = some (m.contents new)
  | .proposing f seen new => m.contents new = f (m.contents seen.value)
  | .comparing _ update new _ => m.contents new = update
  | .attempting expect update new seen =>
      m.contents new = update ∧ (m.contents seen.value == expect) = true
  | .resting | .called _ | .computing .. | .reading .. | .told .. => True

/-- The entry of an operation that is decided but has not come back. -/
def Stage.owed (m : Memory V) : Stage V → List (Op V × Answer V)
  | .reading op a => [(op, .value (m.contents a))]
  | .told op x => [(op, x)]
  | .comparing expect update _ seen =>
      if m.contents seen.value == expect then []
      else [(.compareAndSet expect update, .stored false)]
  | .resting | .called _ | .prepared .. | .computing .. | .proposing .. | .attempting .. => []

theorem Stage.length_owed_le (m : Memory V) (stage : Stage V) : (stage.owed m).length ≤ 1 := by
  cases stage with
  | comparing =>
      rw [Stage.owed]
      split
      · exact Nat.zero_le 1
      · exact Nat.le_refl 1
  | _ => simp [Stage.owed]

/-- What an operation goes on depends on the allocations it holds only. -/
theorem Stage.fits_congr (h : ∀ a ∈ stage.holds, m'.contents a = m.contents a) :
    stage.Fits m' ↔ stage.Fits m := by
  cases stage <;> simp_all [Stage.Fits, Stage.holds]

theorem Stage.owed_congr (h : ∀ a ∈ stage.holds, m'.contents a = m.contents a) :
    stage.owed m' = stage.owed m := by
  cases stage <;> simp_all [Stage.owed, Stage.holds]

omit [BEq V] in
@[simp] theorem Memory.contents_write_self (m : Memory V) (a : Address) (v : V) :
    (m.write a v).contents a = v :=
  Function.update_self ..

omit [BEq V] in
theorem Memory.contents_write_ne {a b : Address} (h : b ≠ a) (m : Memory V) (v : V) :
    (m.write a v).contents b = m.contents b :=
  Function.update_of_ne h ..

omit [BEq V] in
@[simp] theorem Memory.cell_write (m : Memory V) (a : Address) (v : V) :
    (m.write a v).cell = m.cell := rfl

omit [BEq V] in
/-- A compare-and-swap that succeeds has found the address it expects. -/
theorem exchange_eq_some {c c' : Cell Address} {expect update : Address}
    (h : c.exchange expect update = some c') : c.value = expect ∧ c' = c.store update := by
  unfold Cell.exchange at h
  split at h
  · next heq => exact ⟨eq_of_beq heq, (Option.some.inj h).symm⟩
  · exact nomatch h

omit [BEq V] in
/-- Allocations that are not free stay as they are. -/
theorem Stage.Moves.contents [BEq V] (h : Stage.Moves free m stage es m' stage') {a : Address}
    (ha : ¬ free a) : m'.contents a = m.contents a := by
  cases h with
  | allocate _ hfree =>
      refine Memory.contents_write_ne ?_ m _
      rintro rfl
      exact ha hfree
  | compute hfree =>
      refine Memory.contents_write_ne ?_ m _
      rintro rfl
      exact ha hfree
  | _ => rfl

/-- A step keeps what the operation goes on, and owes what it adds to the history. -/
theorem Stage.Moves.fits (h : Stage.Moves free m stage es m' stage') (hfits : stage.Fits m)
    (hheld : ∀ a ∈ stage.holds, ¬ free a) :
    stage'.Fits m' ∧ stage'.owed m' = stage.owed m ++ es := by
  cases h with
  | load | store | swap | look | propose | contended | exchange => exact ⟨trivial, rfl⟩
  | allocate hbrings =>
      refine ⟨?_, rfl⟩
      rw [Stage.Fits, Memory.contents_write_self]
      exact hbrings
  | @compute f seen a hfree =>
      have hne : seen.value ≠ a := by
        rintro rfl
        exact hheld _ List.mem_cons_self hfree
      refine ⟨?_, rfl⟩
      rw [Stage.Fits, Memory.contents_write_self, Memory.contents_write_ne hne]
  | inspect => exact ⟨(Option.some.inj hfits).symm, rfl⟩
  | refuse hne => exact ⟨trivial, by simp [Stage.owed, hne]⟩
  | attempt heq => exact ⟨⟨hfits, heq⟩, by simp [Stage.owed, heq]⟩
  | again => exact ⟨congrArg some hfits.1.symm, rfl⟩

omit [BEq V] in
/-- A new allocation does not change the value. -/
theorem Memory.value_write {a : Address} (h : m.cell.value ≠ a) (v : V) :
    (m.write a v).value = m.value :=
  Memory.contents_write_ne h m v

/-- A step that decides an operation does to the value what the operation does. -/
theorem Stage.Moves.serial (h : Stage.Moves free m stage es m' stage') (hfits : stage.Fits m)
    (hcell : ¬ free m.cell.value) {past : List (Op V × Answer V)}
    (hserial : Serial v₀ past m.value) : Serial v₀ (past ++ es) m'.value := by
  cases h with
  | load => exact hserial.snoc .get
  | look | contended | refuse | attempt | again =>
      rw [List.append_nil]
      exact hserial
  | allocate _ hfree | compute hfree =>
      rw [List.append_nil, Memory.value_write (fun he => hcell (he ▸ hfree))]
      exact hserial
  | @store v new =>
      have hv : v = m.contents new := Option.some.inj hfits
      have hnext := hserial.snoc (.set v)
      rw [hv] at hnext ⊢
      exact hnext
  | @swap v new =>
      have hv : v = m.contents new := Option.some.inj hfits
      have hnext := hserial.snoc (.getAndSet v)
      rw [hv] at hnext ⊢
      exact hnext
  | @propose f seen new cell hex =>
      obtain ⟨hseen, rfl⟩ := exchange_eq_some hex
      -- the address is the one read, so the value is the one the function was applied to
      have hnew : m.contents new = f m.value := by
        rw [Memory.value, hseen]
        exact hfits
      have hnext := hserial.snoc (.modify f)
      show Serial v₀ (past ++ [(.modify f, .value (m.contents new))]) (m.contents new)
      rw [hnew]
      exact hnext
  | @inspect expect update new =>
      have hnext := hserial.snoc (.compareAndSet expect update)
      cases heq : m.value == expect with
      | true =>
          rw [if_pos rfl, List.append_nil]
          exact hserial
      | false =>
          simp only [Op.apply, heq, Bool.false_eq_true, if_false] at hnext ⊢
          exact hnext
  | @exchange expect update new seen cell hex =>
      obtain ⟨hseen, rfl⟩ := exchange_eq_some hex
      have heq : (m.value == expect) = true := by
        rw [Memory.value, hseen]
        exact hfits.2
      have hnext := hserial.snoc (.compareAndSet expect update)
      simp only [Op.apply, heq, if_true] at hnext
      show Serial v₀ _ (m.contents new)
      rw [hfits.1]
      exact hnext

omit [BEq V] in
/-- A step is one of the operation in progress. -/
theorem Stage.Moves.op?_eq [BEq V] (h : Stage.Moves free m stage es m' stage') :
    stage'.op? = stage.op? := by
  cases h <;> rfl

/-- Who is about to come back owes what it comes back with. -/
theorem Stage.owed_of_answer? {e : Op V × Answer V} (h : stage.answer? m = some e) :
    stage.owed m = [e] ∧ stage.op? = some e.1 := by
  cases stage with
  | reading | told =>
      obtain rfl := Option.some.inj h
      exact ⟨rfl, rfl⟩
  | _ => exact nomatch h

end Linear

namespace Race

variable [DecidableEq ι] [BEq V] {s s' : Race ι V} {i : ι} {v₀ : V} {ops : ι → List (Op V)}

/-- The operations of one client that are decided, in that order. -/
def decided (s : Race ι V) (i : ι) : List (Op V × Answer V) :=
  (s.history.filter (·.1 = i)).map (·.2)

omit [BEq V] in
@[simp] theorem clients_put_self (s : Race ι V) (i : ι) (m : Memory V) (k : Client V)
    (es : List (Op V × Answer V)) : (s.put i m k es).clients i = k :=
  Function.update_self ..

omit [BEq V] in
theorem clients_put_ne {j : ι} (h : j ≠ i) (s : Race ι V) (m : Memory V) (k : Client V)
    (es : List (Op V × Answer V)) : (s.put i m k es).clients j = s.clients j :=
  Function.update_of_ne h ..

omit [BEq V] in
@[simp] theorem decided_put_self (s : Race ι V) (i : ι) (m : Memory V) (k : Client V)
    (es : List (Op V × Answer V)) : (s.put i m k es).decided i = s.decided i ++ es := by
  simp [decided, put, List.filter_map, Function.comp_def]

omit [BEq V] in
theorem decided_put_ne {j : ι} (h : j ≠ i) (s : Race ι V) (m : Memory V) (k : Client V)
    (es : List (Op V × Answer V)) : (s.put i m k es).decided j = s.decided j := by
  simp [decided, put, List.filter_map, Function.comp_def, h.symm]

/-- What clients of one cell bring about is what the history tells. -/
structure Linear (v₀ : V) (ops : ι → List (Op V)) (s : Race ι V) : Prop where
  /-- The history is a history of operations one after the other. -/
  serial : Serial v₀ (s.history.map (·.2)) s.memory.value
  fits : ∀ i, (s.clients i).stage.Fits s.memory
  /-- The decided operations of a client are those that came back, and then the one in progress. -/
  told : ∀ i, s.decided i = (s.clients i).returned ++ (s.clients i).stage.owed s.memory
  program : ∀ i, (s.clients i).returned.map (·.1) ++ (s.clients i).stage.op?.toList ++
    (s.clients i).todo = ops i

omit [DecidableEq ι] [BEq V] in
theorem live_of_mem {a : Address} (h : a ∈ (s.clients i).stage.holds) : s.Live a :=
  Or.inr ⟨i, h⟩

/-- A client that goes on leaves what the others go on. -/
theorem Linear.put {m : Memory V} {k : Client V} {es : List (Op V × Answer V)}
    (h : Linear v₀ ops s) (hcontents : ∀ a, s.Live a → m.contents a = s.memory.contents a)
    (hserial : Serial v₀ (s.history.map (·.2) ++ es) m.value) (hfits : k.stage.Fits m)
    (htold : s.decided i ++ es = k.returned ++ k.stage.owed m)
    (hprogram : k.returned.map (·.1) ++ k.stage.op?.toList ++ k.todo = ops i) :
    Linear v₀ ops (s.put i m k es) := by
  have hold : ∀ j, ∀ a ∈ (s.clients j).stage.holds, m.contents a = s.memory.contents a :=
    fun j a ha => hcontents a (live_of_mem ha)
  refine ⟨?_, ?_, ?_, ?_⟩
  · have hmap : (s.put i m k es).history.map (·.2) = s.history.map (·.2) ++ es := by
      simp [Race.put, Function.comp_def]
    rw [hmap]
    exact hserial
  · intro j
    by_cases hj : j = i
    · subst hj
      rw [clients_put_self]
      exact hfits
    · rw [clients_put_ne hj]
      exact (Stage.fits_congr (hold j)).2 (h.fits j)
  · intro j
    by_cases hj : j = i
    · subst hj
      rw [decided_put_self, clients_put_self]
      exact htold
    · rw [decided_put_ne hj, clients_put_ne hj]
      exact (h.told j).trans (congrArg _ (Stage.owed_congr (hold j)).symm)
  · intro j
    by_cases hj : j = i
    · subst hj
      rw [clients_put_self]
      exact hprogram
    · rw [clients_put_ne hj]
      exact h.program j

/-- A step of one client keeps what the history tells. -/
theorem Linear.step (h : Linear v₀ ops s) (hstep : Step s i s') : Linear v₀ ops s' := by
  have htold := h.told i
  have hprogram := h.program i
  cases hstep with
  | @call op todo hstage htodo =>
      rw [hstage] at htold hprogram
      rw [htodo] at hprogram
      refine h.put (fun _ _ => rfl) ?_ trivial ?_ ?_
      · rw [List.append_nil]
        exact h.serial
      · rw [List.append_nil]
        exact htold
      · simpa [Stage.op?] using hprogram
  | @move es m stage hm =>
      have hheld : ∀ a ∈ (s.clients i).stage.holds, ¬ ¬ s.Live a := fun a ha =>
        not_not_intro (live_of_mem ha)
      obtain ⟨hfits, howed⟩ := hm.fits (h.fits i) hheld
      have hcell : ¬ ¬ s.Live s.memory.cell.value := not_not_intro (Or.inl rfl)
      refine h.put (fun a ha => hm.contents (not_not_intro ha))
        (hm.serial (h.fits i) hcell h.serial) hfits ?_ ?_
      · show _ = (s.clients i).returned ++ stage.owed m
        rw [howed, htold, List.append_assoc]
      · show _ ++ stage.op?.toList ++ _ = _
        rw [hm.op?_eq]
        exact hprogram
  | @answer e hanswer =>
      obtain ⟨howed, hop⟩ := Stage.owed_of_answer? hanswer
      refine h.put (fun _ _ => rfl) ?_ trivial ?_ ?_
      · rw [List.append_nil]
        exact h.serial
      · rw [howed] at htold
        simpa [Stage.owed] using htold
      · rw [hop] at hprogram
        simpa [Stage.op?] using hprogram

theorem Reached.linear (h : Reached v₀ ops s) : Linear v₀ ops s := by
  induction h with
  | start hv =>
      refine ⟨?_, fun _ => trivial, fun _ => rfl, fun _ => rfl⟩
      rw [hv]
      exact .nil
  | step _ hstep ih => exact ih.step hstep

end Race

/-! ## Addresses tell what stamps tell -/

namespace Stage

/-- What a client has seen of the cell, as long as it matters. -/
def seen : Stage V → List (Cell Address)
  | .computing _ seen | .proposing _ seen _ | .comparing _ _ _ seen | .attempting _ _ _ seen =>
      [seen]
  | .resting | .called _ | .prepared .. | .reading .. | .told .. => []

/-- The allocation that a client has made and not stored yet. -/
def own : Stage V → List Address
  | .prepared _ new | .proposing _ _ new | .comparing _ _ new _ | .attempting _ _ new _ => [new]
  | .resting | .called _ | .computing .. | .reading .. | .told .. => []

theorem value_mem_holds {stage : Stage V} {c : Cell Address} (h : c ∈ stage.seen) :
    c.value ∈ stage.holds := by
  cases stage <;> simp_all [seen, holds]

theorem mem_holds_of_own {stage : Stage V} {a : Address} (h : a ∈ stage.own) :
    a ∈ stage.holds := by
  cases stage <;> simp_all [own, holds]

/-- A step stores the allocation of its client, or leaves the cell alone. -/
theorem Moves.cell [BEq V] {m m' : Memory V} {stage stage' : Stage V} {free : Address → Prop}
    {es : List (Op V × Answer V)} (h : Moves free m stage es m' stage') :
    (∃ a ∈ stage.own, m'.cell = m.cell.store a ∧ stage'.seen = [] ∧ stage'.own = []) ∨
      (m'.cell = m.cell ∧ (∀ c ∈ stage'.seen, c ∈ stage.seen ∨ c = m.cell) ∧
        ∀ a ∈ stage'.own, a ∈ stage.own ∨ free a) := by
  cases h with
  | store | swap => exact Or.inl ⟨_, List.mem_cons_self, rfl, rfl, rfl⟩
  | propose hex | exchange hex =>
      obtain ⟨-, rfl⟩ := exchange_eq_some hex
      exact Or.inl ⟨_, List.mem_cons_self, rfl, rfl, rfl⟩
  | load | contended | refuse => exact Or.inr ⟨rfl, nofun, nofun⟩
  | allocate _ hfree =>
      refine Or.inr ⟨rfl, nofun, ?_⟩
      intro a ha
      rw [List.mem_singleton.1 ha]
      exact Or.inr hfree
  | compute hfree =>
      refine Or.inr ⟨rfl, fun c hc => Or.inl hc, ?_⟩
      intro a ha
      rw [List.mem_singleton.1 ha]
      exact Or.inr hfree
  | look => exact Or.inr ⟨rfl, fun c hc => Or.inr (List.mem_singleton.1 hc), nofun⟩
  | inspect =>
      exact Or.inr ⟨rfl, fun c hc => Or.inr (List.mem_singleton.1 hc), fun a ha => Or.inl ha⟩
  | attempt => exact Or.inr ⟨rfl, fun c hc => Or.inl hc, fun a ha => Or.inl ha⟩
  | again => exact Or.inr ⟨rfl, nofun, fun a ha => Or.inl ha⟩

end Stage

namespace Race

variable [DecidableEq ι] {s s' : Race ι V} {i : ι}

/-- What clients have seen has the address of the cell exactly if nothing was stored since. -/
structure Stamped (s : Race ι V) : Prop where
  seen : ∀ i, ∀ c ∈ (s.clients i).stage.seen, c.stamp ≤ s.memory.cell.stamp ∧
    (c.value = s.memory.cell.value ↔ c.stamp = s.memory.cell.stamp)
  /-- An allocation that is not stored yet is known to its client only. -/
  own : ∀ i, ∀ a ∈ (s.clients i).stage.own, a ≠ s.memory.cell.value ∧
    (∀ j, ∀ c ∈ (s.clients j).stage.seen, c.value ≠ a) ∧
    ∀ j, j ≠ i → a ∉ (s.clients j).stage.own

/-- A client leaves the cell alone. -/
theorem Stamped.quiet {m : Memory V} {k : Client V} {es : List (Op V × Answer V)}
    (h : Stamped s) (hcell : m.cell = s.memory.cell)
    (hseen : ∀ c ∈ k.stage.seen, c ∈ (s.clients i).stage.seen ∨ c = s.memory.cell)
    (hown : ∀ a ∈ k.stage.own, a ∈ (s.clients i).stage.own ∨ ¬ s.Live a) :
    Stamped (s.put i m k es) := by
  have seen' : ∀ j, ∀ c ∈ ((s.put i m k es).clients j).stage.seen,
      c ∈ (s.clients j).stage.seen ∨ c = s.memory.cell := by
    intro j c hc
    by_cases hj : j = i
    · subst hj
      rw [clients_put_self] at hc
      exact hseen c hc
    · rw [clients_put_ne hj] at hc
      exact Or.inl hc
  have own' : ∀ j, ∀ a ∈ ((s.put i m k es).clients j).stage.own,
      a ∈ (s.clients j).stage.own ∨ (j = i ∧ ¬ s.Live a) := by
    intro j a ha
    by_cases hj : j = i
    · subst hj
      rw [clients_put_self] at ha
      exact (hown a ha).imp_right fun hdead => ⟨rfl, hdead⟩
    · rw [clients_put_ne hj] at ha
      exact Or.inl ha
  refine ⟨?_, ?_⟩
  · intro j c hc
    show c.stamp ≤ m.cell.stamp ∧ (c.value = m.cell.value ↔ c.stamp = m.cell.stamp)
    rw [hcell]
    rcases seen' j c hc with hold | rfl
    · exact h.seen j c hold
    · exact ⟨Nat.le_refl _, fun _ => rfl, fun _ => rfl⟩
  · intro j a ha
    show a ≠ m.cell.value ∧ _
    rw [hcell]
    rcases own' j a ha with hold | ⟨rfl, hdead⟩
    · obtain ⟨hne, hunseen, halone⟩ := h.own j a hold
      refine ⟨hne, ?_, ?_⟩
      · intro l c hc
        rcases seen' l c hc with hc | rfl
        · exact hunseen l c hc
        · exact Ne.symm hne
      · intro l hl hal
        rcases own' l a hal with hal | ⟨-, hdead⟩
        · exact halone l hl hal
        · exact hdead (live_of_mem (Stage.mem_holds_of_own hold))
    · refine ⟨fun he => hdead (Or.inl he), ?_, ?_⟩
      · rintro l c hc rfl
        rcases seen' l c hc with hc | rfl
        · exact hdead (live_of_mem (Stage.value_mem_holds hc))
        · exact hdead (Or.inl rfl)
      · intro l hl hal
        rcases own' l a hal with hal | ⟨he, -⟩
        · exact hdead (live_of_mem (Stage.mem_holds_of_own hal))
        · exact hl he

/-- A client stores its allocation. -/
theorem Stamped.stores {m : Memory V} {k : Client V} {es : List (Op V × Answer V)} {a : Address}
    (h : Stamped s) (ha : a ∈ (s.clients i).stage.own) (hcell : m.cell = s.memory.cell.store a)
    (hseen : k.stage.seen = []) (hown : k.stage.own = []) : Stamped (s.put i m k es) := by
  obtain ⟨-, hunseen, halone⟩ := h.own i a ha
  have others : ∀ j, ∀ b ∈ ((s.put i m k es).clients j).stage.own,
      j ≠ i ∧ b ∈ (s.clients j).stage.own := by
    intro j b hb
    have hj : j ≠ i := by
      rintro rfl
      rw [clients_put_self, hown] at hb
      exact nomatch hb
    rw [clients_put_ne hj] at hb
    exact ⟨hj, hb⟩
  have seen' : ∀ j, ∀ c ∈ ((s.put i m k es).clients j).stage.seen,
      c ∈ (s.clients j).stage.seen := by
    intro j c hc
    have hj : j ≠ i := by
      rintro rfl
      rw [clients_put_self, hseen] at hc
      exact nomatch hc
    rwa [clients_put_ne hj] at hc
  refine ⟨?_, ?_⟩
  · intro j c hc
    have hold := seen' j c hc
    obtain ⟨hle, -⟩ := h.seen j c hold
    show c.stamp ≤ m.cell.stamp ∧ (c.value = m.cell.value ↔ c.stamp = m.cell.stamp)
    rw [hcell]
    refine ⟨Nat.le_succ_of_le hle, ?_, ?_⟩
    · intro he
      exact absurd he (hunseen j c hold)
    · intro he
      have hstamp : c.stamp = s.memory.cell.stamp + 1 := he
      omega
  · intro j b hb
    obtain ⟨hj, hold⟩ := others j b hb
    obtain ⟨-, hunseen', halone'⟩ := h.own j b hold
    refine ⟨?_, fun l c hc => hunseen' l c (seen' l c hc), ?_⟩
    · show b ≠ m.cell.value
      rw [hcell]
      rintro rfl
      exact halone j hj hold
    · intro l hl hbl
      exact halone' l hl (others l b hbl).2

variable [BEq V] {v₀ : V} {ops : ι → List (Op V)}

theorem Stamped.step (h : Stamped s) (hstep : Step s i s') : Stamped s' := by
  cases hstep with
  | call => exact h.quiet rfl nofun nofun
  | answer => exact h.quiet rfl nofun nofun
  | move hm =>
      rcases hm.cell with ⟨a, ha, hcell, hseen, hown⟩ | ⟨hcell, hseen, hown⟩
      · exact h.stores ha hcell hseen hown
      · exact h.quiet hcell hseen hown

theorem Reached.stamped (h : Reached v₀ ops s) : Stamped s := by
  induction h with
  | start => exact ⟨fun _ => nofun, fun _ => nofun⟩
  | step _ hstep ih => exact ih.step hstep

omit [DecidableEq ι] [BEq V] in
/-- A compare-and-swap by address does what a store by stamp does. -/
theorem Stamped.exchange_eq (h : Stamped s) {c : Cell Address}
    (hc : c ∈ (s.clients i).stage.seen) (a : Address) :
    s.memory.cell.exchange c.value a = s.memory.cell.swapIn c.stamp a := by
  have hiff := (h.seen i c hc).2
  by_cases hv : c.value = s.memory.cell.value
  · have hstamp := hiff.1 hv
    simp [Cell.exchange, Cell.swapIn, hv, hstamp]
  · have hstamp : c.stamp ≠ s.memory.cell.stamp := fun he => hv (hiff.2 he)
    simp [Cell.exchange, Cell.swapIn, Ne.symm hv, Ne.symm hstamp]

/-- Nobody has anything left to do. -/
def Over (s : Race ι V) : Prop :=
  ∀ i, (s.clients i).stage = .resting ∧ (s.clients i).todo = []

omit [BEq V] in
/-- What the clients have decided, one client after the other, is what was decided. -/
theorem decided_perm {order : List ι} (hnodup : order.Nodup) (s : Race ι V)
    (hall : ∀ e ∈ s.history, e.1 ∈ order) :
    (order.flatMap s.decided).Perm (s.history.map (·.2)) := by
  obtain ⟨m, clients, history⟩ := s
  induction order generalizing history with
  | nil =>
      obtain rfl : history = [] := List.eq_nil_iff_forall_not_mem.2 fun e he => nomatch hall e he
      exact .nil
  | cons i order ih =>
      obtain ⟨hi, hnodup⟩ := List.nodup_cons.1 hnodup
      have hothers : order.flatMap (Race.decided ⟨m, clients, history⟩) =
          order.flatMap (Race.decided ⟨m, clients, history.filter fun e => !decide (e.1 = i)⟩) := by
        refine List.flatMap_congr fun j hj => ?_
        have hne : j ≠ i := by
          rintro rfl
          exact hi hj
        have hkept : ∀ e ∈ history, decide (e.1 = j) =
            (decide (e.1 = j) && !decide (e.1 = i)) := by
          intro e _
          by_cases he : e.1 = j
          · simp [he, hne]
          · simp [he]
        simp only [decided, List.filter_filter]
        rw [List.filter_congr hkept]
      have hrest := ih hnodup (history.filter fun e => !decide (e.1 = i)) <| by
        intro e he
        obtain ⟨he, hne⟩ := List.mem_filter.1 he
        exact (List.mem_cons.1 (hall e he)).resolve_left (by simpa using hne)
      rw [List.flatMap_cons, hothers]
      refine (hrest.append_left _).trans ?_
      rw [decided, ← List.map_append]
      exact (List.filter_append_perm _ history).map _

/-- Operations that commute leave what they leave in any order. -/
theorem Linear.foldl (h : Linear v₀ ops s) (hover : s.Over) {order : List ι}
    (hnodup : order.Nodup) (hall : ∀ i, i ∈ order)
    (hcomm : ∀ op ∈ order.flatMap ops, ∀ op' ∈ order.flatMap ops, ∀ v,
      (op'.apply (op.apply v).2).2 = (op.apply (op'.apply v).2).2) :
    s.memory.value = (order.flatMap ops).foldl (fun v op => (op.apply v).2) v₀ := by
  have hdecided : ∀ i, (s.decided i).map (·.1) = ops i := by
    intro i
    have htold := h.told i
    have hprogram := h.program i
    rw [(hover i).1] at htold hprogram
    rw [(hover i).2] at hprogram
    rw [htold, ← hprogram]
    simp [Stage.owed, Stage.op?]
  have hperm := (decided_perm hnodup s fun e _ => hall e.1).map (·.1)
  rw [List.map_flatMap, funext hdecided] at hperm
  exact h.serial.foldl.trans (hperm.foldl_eq' hcomm v₀).symm

/-- Clients of one cell bring about what their operations do one at a time, in the order in which
they are decided. -/
theorem cas_linearizable (h : Reached v₀ ops s) :
    -- a client has run its operations in order, and knows of all that are decided but the last
    (∀ i, (s.clients i).returned.map (·.1) ++ (s.clients i).stage.op?.toList ++
      (s.clients i).todo = ops i) ∧
    (∀ i, ∃ owed, s.decided i = (s.clients i).returned ++ owed ∧ owed.length ≤ 1 ∧
      ((s.clients i).stage = .resting → owed = [])) ∧
    -- on the machine the decided operations come back with the same, and leave the same
    (∀ {P σ ε : Type} (body : P → Prog V P σ ε) (w : World V P σ ε) (c : CellRef) (d : Cell V)
      (k : List (Answer V) → Prog V P σ ε) (st : List (Frame V P σ ε)),
      w.cell? c = some d → d.value = v₀ → ∃ d', d'.value = s.memory.value ∧
        CalmRun body w ⟨.run (serially c (s.history.map (·.2.1)) k), st⟩ []
          (w.setCell c d') ⟨.run (k (s.history.map (·.2.2))), st⟩) ∧
    -- to find the address that was seen is to find that nothing was stored since
    (∀ i, ∀ c ∈ (s.clients i).stage.seen, ∀ a,
      s.memory.cell.exchange c.value a = s.memory.cell.swapIn c.stamp a) ∧
    -- functions that commute are all applied, each of them once
    ∀ (fs : ι → List (V → V)) (order : List ι), (∀ i, ops i = (fs i).map .modify) →
      order.Nodup → (∀ i, i ∈ order) →
      (∀ f ∈ order.flatMap fs, ∀ g ∈ order.flatMap fs, ∀ v, f (g v) = g (f v)) → s.Over →
      s.memory.value = (order.flatMap fs).foldl (fun v f => f v) v₀ := by
  have hlinear := h.linear
  refine ⟨hlinear.program, ?_, ?_, fun i c hc a => h.stamped.exchange_eq hc a, ?_⟩
  · intro i
    refine ⟨_, hlinear.told i, Stage.length_owed_le .., ?_⟩
    intro hstage
    rw [hstage]
    rfl
  · intro P σ ε body w c d k st hc hd
    subst hd
    obtain ⟨d', hd', hrun⟩ := hlinear.serial.run body st hc k
    rw [List.map_map, List.map_map] at hrun
    exact ⟨d', hd', hrun⟩
  · intro fs order hops hnodup hall hcomm hover
    have hmap : order.flatMap ops = (order.flatMap fs).map .modify := by
      rw [List.map_flatMap, funext hops]
    rw [hlinear.foldl hover hnodup hall, hmap, List.foldl_map]
    · rfl
    · rw [hmap]
      intro op hop op' hop' v
      obtain ⟨f, hf, rfl⟩ := List.mem_map.1 hop
      obtain ⟨g, hg, rfl⟩ := List.mem_map.1 hop'
      exact hcomm g hg f hf v

/-- Two clients. -/
def pair (m : Memory V) (k l : Client V) (history : List (Bool × Op V × Answer V)) : Race Bool V :=
  ⟨m, fun i => cond i l k, history⟩

theorem Reached.pair_step {ops : Bool → List (Op V)} {m m' : Memory V} {k l k' : Client V}
    {history : List (Bool × Op V × Answer V)} {es : List (Op V × Answer V)} {i : Bool}
    (h : Reached v₀ ops (pair m k l history))
    (hstep : Step (pair m k l history) i ((pair m k l history).put i m' k' es)) :
    Reached v₀ ops (pair m' (cond i k k') (cond i k' l) (history ++ es.map (i, ·))) := by
  have hput : (pair m k l history).put i m' k' es =
      pair m' (cond i k k') (cond i k' l) (history ++ es.map (i, ·)) := by
    refine congrArg (Race.mk m' · _) (funext fun j => ?_)
    cases i <;> cases j <;> rfl
  exact hput ▸ h.step hstep

omit [BEq V] in
theorem not_live_pair {m : Memory V} {k l : Client V} {history : List (Bool × Op V × Answer V)}
    {a : Address} (h : a ∉ m.cell.value :: (k.stage.holds ++ l.stage.holds)) :
    ¬ (pair m k l history).Live a := by
  rintro (rfl | ⟨_ | _, hi⟩)
  · exact h List.mem_cons_self
  · exact h (List.mem_cons_of_mem _ (List.mem_append_left _ hi))
  · exact h (List.mem_cons_of_mem _ (List.mem_append_right _ hi))

/-- Two clients count on, and one of them has to start over. Both come back, each with the value it
has stored. -/
theorem cas_linearizable_counting :
    ∃ s : Race Bool Nat, Reached 0 (fun i => [.modify (· + cond i 2 1)]) s ∧ s.Over ∧
      s.history.map (·.1) = [true, false] ∧
      (∀ i, (s.clients i).returned = [(.modify (· + cond i 2 1), .value (cond i 2 3))]) ∧
      s.memory.value = 3 := by
  have h₀ : Reached 0 (fun i => [Op.modify (· + cond i 2 1)])
      (pair ⟨fun _ => 0, ⟨⟨0⟩, 0⟩⟩ ⟨.resting, [.modify (· + 1)], []⟩
        ⟨.resting, [.modify (· + 2)], []⟩ []) := by
    have hclients : (fun i => ⟨.resting, [.modify (· + cond i 2 1)], []⟩) = fun i =>
        cond i (⟨.resting, [.modify (· + 2)], []⟩ : Client Nat)
          ⟨.resting, [.modify (· + 1)], []⟩ := by
      funext i
      cases i <;> rfl
    rw [pair, ← hclients]
    exact .start rfl
  -- one client reads
  have h₁ : Reached 0 _ (pair _ ⟨.called (.modify (· + 1)), [], []⟩
      ⟨.resting, [.modify (· + 2)], []⟩ _) := h₀.pair_step (i := false) (.call rfl rfl)
  have h₂ : Reached 0 _ (pair _ ⟨.computing (· + 1) ⟨⟨0⟩, 0⟩, [], []⟩
      ⟨.resting, [.modify (· + 2)], []⟩ _) := h₁.pair_step (i := false) (.move .look)
  -- the other one is faster
  have h₃ : Reached 0 _ (pair _ ⟨.computing (· + 1) ⟨⟨0⟩, 0⟩, [], []⟩
      ⟨.called (.modify (· + 2)), [], []⟩ _) := h₂.pair_step (i := true) (.call rfl rfl)
  have h₄ : Reached 0 _ (pair _ ⟨.computing (· + 1) ⟨⟨0⟩, 0⟩, [], []⟩
      ⟨.computing (· + 2) ⟨⟨0⟩, 0⟩, [], []⟩ _) := h₃.pair_step (i := true) (.move .look)
  have h₅ : Reached 0 _ (pair _ ⟨.computing (· + 1) ⟨⟨0⟩, 0⟩, [], []⟩
      ⟨.proposing (· + 2) ⟨⟨0⟩, 0⟩ ⟨1⟩, [], []⟩ _) :=
    h₄.pair_step (i := true) (.move (.compute (not_live_pair (by decide))))
  have h₆ : Reached 0 _ (pair _ ⟨.computing (· + 1) ⟨⟨0⟩, 0⟩, [], []⟩
      ⟨.reading (.modify (· + 2)) ⟨1⟩, [], []⟩ _) :=
    h₅.pair_step (i := true) (.move (.propose rfl))
  have h₇ : Reached 0 _ (pair _ ⟨.computing (· + 1) ⟨⟨0⟩, 0⟩, [], []⟩
      ⟨.resting, [], [(.modify (· + 2), .value 2)]⟩ _) :=
    h₆.pair_step (i := true) (.answer rfl)
  -- the first one finds another address, and reads again
  have h₈ : Reached 0 _ (pair _ ⟨.proposing (· + 1) ⟨⟨0⟩, 0⟩ ⟨2⟩, [], []⟩
      ⟨.resting, [], [(.modify (· + 2), .value 2)]⟩ _) :=
    h₇.pair_step (i := false) (.move (.compute (not_live_pair (by decide))))
  have h₉ : Reached 0 _ (pair _ ⟨.called (.modify (· + 1)), [], []⟩
      ⟨.resting, [], [(.modify (· + 2), .value 2)]⟩ _) :=
    h₈.pair_step (i := false) (.move (.contended rfl))
  have h₁₀ : Reached 0 _ (pair _ ⟨.computing (· + 1) ⟨⟨1⟩, 1⟩, [], []⟩
      ⟨.resting, [], [(.modify (· + 2), .value 2)]⟩ _) := h₉.pair_step (i := false) (.move .look)
  have h₁₁ : Reached 0 _ (pair _ ⟨.proposing (· + 1) ⟨⟨1⟩, 1⟩ ⟨2⟩, [], []⟩
      ⟨.resting, [], [(.modify (· + 2), .value 2)]⟩ _) :=
    h₁₀.pair_step (i := false) (.move (.compute (not_live_pair (by decide))))
  have h₁₂ : Reached 0 _ (pair _ ⟨.reading (.modify (· + 1)) ⟨2⟩, [], []⟩
      ⟨.resting, [], [(.modify (· + 2), .value 2)]⟩ _) :=
    h₁₁.pair_step (i := false) (.move (.propose rfl))
  have h₁₃ : Reached 0 _ (pair _ ⟨.resting, [], [(.modify (· + 1), .value 3)]⟩
      ⟨.resting, [], [(.modify (· + 2), .value 2)]⟩ _) :=
    h₁₂.pair_step (i := false) (.answer rfl)
  have hover : ∀ m history, Over (pair m ⟨.resting, [], [(.modify (· + 1), .value 3)]⟩
      ⟨.resting, [], [(.modify (· + 2), .value 2)]⟩ history) := by
    rintro m history (_ | _) <;> exact ⟨rfl, rfl⟩
  obtain ⟨-, -, -, -, hcount⟩ := cas_linearizable h₁₃
  refine ⟨_, h₁₃, hover _ _, rfl, ?_, ?_⟩
  · rintro (_ | _) <;> rfl
  · exact hcount (fun i => [(· + cond i 2 1)]) [false, true] (fun _ => rfl) (by decide) (by decide)
      (by simp) (hover _ _)

end Race

end ReactiveCells.Contention
