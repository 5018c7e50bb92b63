import ReactiveCells.Proofs.Fusion

/-!
# Comparing — compare-and-set through views

A view stores nothing, so it leaves comparing to its root: it reverts the value expected as well as
the update, and the root compares what it holds with the reverted value. The view and its root agree
on the outcome as far as conversions can be undone. If reverting undoes converting, they agree on
every value that the view can show at all. On a value that it can never show they disagree where the
root holds what this value reverts to: the root takes the update, although the view shows something
else.

Main statements: `fused_leftInverse` (a chain undoes what its converters undo), `comparing_chain`
(the root compares) and `view_compares`.
-/

namespace ReactiveCells

variable {V P σ ε : Type}

/-- Whether something that a program does on its way is done in one move, whatever waits below, and
tells nobody. -/
def Act.AtOnce [BEq V] {α : Type} (body : P → Prog V P σ ε) (w : World V P σ ε) (m : Act V P σ ε α)
    (a : α) (w' : World V P σ ε) : Prop :=
  ∀ k st, Thread.Moves body w ⟨.run (m k), st⟩ [] w' ⟨.run (k a), st⟩

/-- If every converter of a chain undoes its conversion, so does the whole chain. -/
theorem fused_leftInverse {cs : List (Converter (V → V))}
    (h : ∀ c ∈ cs, Function.LeftInverse c.backward c.forward) :
    Function.LeftInverse (Converter.fused cs).backward (Converter.fused cs).forward := by
  induction cs with
  | nil => exact fun _ => rfl
  | cons c cs ih =>
      have hrest := ih fun d hd => h d (List.mem_cons_of_mem c hd)
      exact hrest.comp (h c List.mem_cons_self)

section Comparing

variable [BEq V] {body : P → Prog V P σ ε} {w w' : World V P σ ε} {c : CellRef} {d : Cell V}

/-- What is done in one move yields one answer. -/
theorem Act.AtOnce.answer_eq {m : Act V P σ ε Bool} {b b' : Bool} {w₁ w₂ : World V P σ ε}
    (h : m.AtOnce body w b w₁) (h' : m.AtOnce body w b' w₂) : b = b' := by
  -- the programs that follow the two answers differ
  let after : Bool → Prog V P σ ε := fun b => .panic (flagText b)
  have hstep := (h after []).step.symm.trans (h' after []).step
  have htext : flagText b = flagText b' := by
    simpa [after] using (Prod.mk.inj (Option.some.inj hstep)).2
  revert htext
  cases b <;> cases b' <;> decide

/-- A chain of views on a cell shows the converted value. -/
theorem get_chain (hc : w.cell? c = some d) (cs : List (Converter (V → V))) :
    ((Node.swap c).chain cs).get.AtOnce body w ((Converter.fused cs).forward d.value) w := by
  rw [(Node.fuses_chain (.swap c) cs).get]
  exact fun k st => .performed (congrArg (Option.map _) hc)

/-- A chain of views on a cell lets the cell compare. -/
theorem comparing_chain [LawfulBEq V] (body : P → Prog V P σ ε) (hc : w.cell? c = some d)
    (cs : List (Converter (V → V))) (expect update : V) :
    ∃ b w', (((Node.swap c).chain cs).compareAndSet expect update).AtOnce body w b w' ∧
      (b = true ↔ (Converter.fused cs).backward expect = d.value) ∧
      w' = if b then w.setCell c (d.store ((Converter.fused cs).backward update)) else w := by
  have hfuse : ((Node.swap c).chain cs).compareAndSet expect update =
      Act.exchange (P := P) (σ := σ) (ε := ε) c ((Converter.fused cs).backward expect)
        ((Converter.fused cs).backward update) :=
    congrFun (congrFun ((Node.fuses_chain (.swap c) cs).comparing rfl) expect) update
  rw [hfuse]
  by_cases heq : d.value = (Converter.fused cs).backward expect
  · refine ⟨true, _, fun k st => .performed ?_, by simp [heq], rfl⟩
    simp [World.perform, hc, Cell.exchange, heq]
  · refine ⟨false, _, fun k st => .performed ?_, by simp [Ne.symm heq], rfl⟩
    simp [World.perform, hc, Cell.exchange, heq]

end Comparing

/-- Compare-and-set through a chain of views whose converters undo their conversions. It stores the
update if the root holds what the expected value reverts to, and changes nothing otherwise. So it
stores whenever the view shows the expected value, and for the values that the view can show, only
then. The values that it can show are all for which this is so: for any other there is a value of
the root at which the update is stored though the view shows something else. -/
theorem view_compares [BEq V] [LawfulBEq V] {cs : List (Converter (V → V))}
    (hback : ∀ c ∈ cs, Function.LeftInverse c.backward c.forward) (body : P → Prog V P σ ε)
    {w : World V P σ ε} {c : CellRef} {d : Cell V} (hc : w.cell? c = some d) (expect : V) :
    ((Node.swap c).chain cs).get.AtOnce body w ((Converter.fused cs).forward d.value) w ∧
    (∀ update, ∃ b w',
      (((Node.swap c).chain cs).compareAndSet expect update).AtOnce body w b w' ∧
      (b = true ↔ (Converter.fused cs).backward expect = d.value) ∧
      (b = true → w' = w.setCell c (d.store ((Converter.fused cs).backward update))) ∧
      (b = false → w' = w) ∧
      ((Converter.fused cs).forward d.value = expect → b = true) ∧
      (expect ∈ Set.range (Converter.fused cs).forward →
        (b = true ↔ (Converter.fused cs).forward d.value = expect))) ∧
    (expect ∈ Set.range (Converter.fused cs).forward ↔
      ∀ v update b w', (((Node.swap c).chain cs).compareAndSet expect update).AtOnce body
          (w.setCell c (d.store v)) b w' →
        (b = true ↔ (Converter.fused cs).forward v = expect)) := by
  have hundo := fused_leftInverse hback
  -- for what the view can show, comparing at the root is comparing what is shown
  have hshown : expect ∈ Set.range (Converter.fused cs).forward → ∀ v,
      ((Converter.fused cs).backward expect = v ↔ (Converter.fused cs).forward v = expect) := by
    rintro ⟨u, rfl⟩ v
    rw [hundo u]
    exact ⟨fun h => by rw [h], fun h => hundo.injective h.symm⟩
  refine ⟨get_chain hc cs, fun update => ?_, fun hrange v update b w' hb => ?_, fun hall => ?_⟩
  · obtain ⟨b, w', hb, hiff, hleft⟩ := comparing_chain body hc cs expect update
    refine ⟨b, w', hb, hiff, ?_, ?_, ?_, fun hrange => hiff.trans (hshown hrange d.value)⟩
    · rintro rfl
      exact hleft
    · rintro rfl
      exact hleft
    · rintro rfl
      exact hiff.2 (hundo d.value)
  · obtain ⟨b', w'', hb', hiff, -⟩ := comparing_chain body
      (World.cell?_setCell_self hc (d.store v)) cs expect update
    rw [hb.answer_eq hb', hiff]
    exact hshown hrange v
  · -- at the root value that the expected value reverts to
    let v := (Converter.fused cs).backward expect
    obtain ⟨b, w', hb, hiff, -⟩ := comparing_chain body
      (World.cell?_setCell_self hc (d.store v)) cs expect expect
    exact ⟨v, (hall v expect b w' hb).1 (hiff.2 rfl)⟩

/-- Shows a number doubled, and halves what is written, rounding down. -/
def doubling : Converter (Nat → Nat) :=
  ⟨(2 * ·), (· / 2)⟩

/-- A view that doubles never shows 11, but while its root holds 5 it stores an update that expects
11. -/
theorem view_compares_doubling :
    ∃ w : World Nat Empty Unit Unit, w.cell? ⟨0⟩ = some ⟨5, 0⟩ ∧
      ((Node.swap ⟨0⟩).chain [doubling]).get.AtOnce Empty.elim w 10 w ∧
      (((Node.swap ⟨0⟩).chain [doubling]).compareAndSet 11 14).AtOnce Empty.elim w true
        (w.setCell ⟨0⟩ ⟨7, 1⟩) := by
  let w : World Nat Empty Unit Unit := { World.new () with cells := ⟨[⟨5, 0⟩]⟩ }
  have hback : ∀ c ∈ [doubling], Function.LeftInverse c.backward c.forward := by
    intro c hc n
    obtain rfl := List.mem_singleton.1 hc
    exact Nat.mul_div_cancel_left n Nat.two_pos
  obtain ⟨hget, hcas, -⟩ := view_compares hback Empty.elim
    (rfl : w.cell? ⟨0⟩ = some ⟨5, 0⟩) 11
  obtain ⟨b, w', hb, hiff, hstored, -⟩ := hcas 14
  obtain rfl : b = true := hiff.2 rfl
  obtain rfl := hstored rfl
  exact ⟨w, rfl, hget, hb⟩

end ReactiveCells
