import Mathlib.Algebra.GroupWithZero.Nat
import Mathlib.Data.List.Basic

/-!
# Compatible corrections — one value to settle on

Idempotent functions that commute with each other have, from every value on, one common fixed
point that all of them lead to, in whatever order and however often they are applied. A correction
of a value by one of them is accepted by every function that accepted the value, and by one more.
So if a value in a queue is replaced by its corrections, as many of them as there are enforcers,
the queue gets lighter: each value weighs more than all its corrections together.

Main statements: `Compatible.applyAll_apply` (a correction leads to the same value) and
`Compatible.weight_correction` (it weighs less).
-/

namespace ReactiveCells

variable {V : Type}

/-- Applies all functions, the last of the list first. -/
def applyAll : List (V → V) → V → V
  | [], v => v
  | f :: fs, v => f (applyAll fs v)

/-- Idempotent functions that commute with each other. -/
structure Compatible (fs : List (V → V)) : Prop where
  idempotent : ∀ f ∈ fs, ∀ v, f (f v) = f v
  commute : ∀ f ∈ fs, ∀ g ∈ fs, ∀ v, f (g v) = g (f v)

/-- A value that all functions accept stays as it is. -/
theorem applyAll_of_accepted {fs : List (V → V)} {v : V} (h : ∀ f ∈ fs, f v = v) :
    applyAll fs v = v := by
  induction fs with
  | nil => rfl
  | cons f fs ih =>
      have hrest := ih fun g hg => h g (List.mem_cons_of_mem f hg)
      rw [applyAll, hrest]
      exact h f List.mem_cons_self

/-- A function that commutes with all others may be applied first or last. -/
theorem applyAll_comm {fs : List (V → V)} {f : V → V} (h : ∀ g ∈ fs, ∀ v, f (g v) = g (f v))
    (v : V) : applyAll fs (f v) = f (applyAll fs v) := by
  induction fs with
  | nil => rfl
  | cons g fs ih =>
      have hrest := ih fun g' hg' => h g' (List.mem_cons_of_mem g hg')
      rw [applyAll, applyAll, hrest]
      exact (h g List.mem_cons_self _).symm

/-- What all functions make of a value is accepted by each of them. -/
theorem Compatible.apply_applyAll {fs : List (V → V)} (h : Compatible fs) {f : V → V} (hf : f ∈ fs)
    (v : V) : f (applyAll fs v) = applyAll fs v := by
  have main : ∀ gs : List (V → V), gs ⊆ fs → f ∈ gs → f (applyAll gs v) = applyAll gs v := by
    intro gs hsub
    -- the functions applied after f commute with it, so f meets its own application
    induction gs with
    | nil => exact nofun
    | cons g gs ih =>
        intro hmem
        have hg : g ∈ fs := hsub List.mem_cons_self
        rw [applyAll]
        rcases List.mem_cons.1 hmem with rfl | hrest
        · exact h.idempotent f hf _
        · rw [h.commute f hf g hg, ih (fun g' hg' => hsub (List.mem_cons_of_mem g hg')) hrest]
  exact main fs (List.Subset.refl fs) hf

/-- A correction leads to the same value as what it corrects. -/
theorem Compatible.applyAll_apply {fs : List (V → V)} (h : Compatible fs) {f : V → V} (hf : f ∈ fs)
    (v : V) : applyAll fs (f v) = applyAll fs v :=
  (applyAll_comm (h.commute f hf) v).trans (h.apply_applyAll hf v)

/-! ## The weight of a value -/

variable [BEq V]

/-- How many functions do not accept a value. -/
def violations (fs : List (V → V)) (v : V) : Nat :=
  fs.countP fun f => f v != v

/-- What a value weighs in a queue, given the number of enforcers. -/
def weight (n : Nat) (fs : List (V → V)) (v : V) : Nat :=
  (n + 1) ^ violations fs v

/-- What one correction of a value may weigh. -/
def share (n : Nat) (fs : List (V → V)) (v : V) : Nat :=
  if violations fs v = 0 then 0 else (n + 1) ^ (violations fs v - 1)

/-- A value weighs more than one correction for every enforcer. -/
theorem mul_share_lt_weight (n : Nat) (fs : List (V → V)) (v : V) :
    n * share n fs v < weight n fs v := by
  unfold share weight
  cases hc : violations fs v with
  | zero => exact Nat.one_pos
  | succ c =>
      rw [if_neg (Nat.succ_ne_zero c), Nat.add_sub_cancel, Nat.pow_succ, Nat.mul_comm]
      exact Nat.mul_lt_mul_of_pos_left (Nat.lt_succ_self n) (Nat.pow_pos (Nat.succ_pos n))

/-- If fewer elements satisfy one predicate than another and one element tells them apart, fewer
elements are counted. -/
theorem countP_lt_countP {α : Type} {p q : α → Bool} {l : List α} (hpq : ∀ a ∈ l, p a → q a)
    {a : α} (ha : a ∈ l) (hp : p a = false) (hq : q a = true) : l.countP p < l.countP q := by
  induction l with
  | nil => exact nomatch ha
  | cons b l ih =>
      have hrest : ∀ a ∈ l, p a → q a := fun a ha => hpq a (List.mem_cons_of_mem b ha)
      have hle : l.countP p ≤ l.countP q := List.countP_mono_left hrest
      rcases List.mem_cons.1 ha with rfl | hmem
      · rw [List.countP_cons_of_neg (by rw [hp]; exact Bool.false_ne_true),
          List.countP_cons_of_pos hq]
        omega
      · have hlt := ih hrest hmem
        have hb : p b = true → q b = true := hpq b List.mem_cons_self
        rw [List.countP_cons, List.countP_cons]
        by_cases hpb : p b = true
        · rw [if_pos hpb, if_pos (hb hpb)]
          omega
        · rw [if_neg hpb]
          omega

/-- A correction is accepted by one more function. -/
theorem Compatible.violations_correction [LawfulBEq V] {fs : List (V → V)} (h : Compatible fs)
    {f : V → V} (hf : f ∈ fs) {v : V} (hv : f v ≠ v) :
    violations fs (f v) < violations fs v := by
  -- what accepted the value accepts its correction, and f itself did not accept the value
  refine countP_lt_countP ?_ hf (bne_eq_false_iff_eq.2 (h.idempotent f hf v)) (bne_iff_ne.2 hv)
  intro g hg hrej
  rw [bne_iff_ne] at hrej ⊢
  intro hacc
  exact hrej (by rw [h.commute g hg f hf, hacc])

/-- A correction weighs no more than its share. -/
theorem Compatible.weight_correction [LawfulBEq V] {fs : List (V → V)} (h : Compatible fs) (n : Nat)
    {f : V → V} (hf : f ∈ fs) {v : V} (hv : f v ≠ v) : weight n fs (f v) ≤ share n fs v := by
  have hlt := h.violations_correction hf hv
  rw [share, if_neg (by omega), weight]
  exact Nat.pow_le_pow_right (Nat.succ_pos n) (by omega)

end ReactiveCells
