import ReactiveCells.Proofs.Conservation
import ReactiveCells.Proofs.Holders

/-!
# Keeping — an observer that is kept misses nothing

In a world without panics every publisher is faithful to its observers, whatever went on before. So
from any moment in which nothing is being delivered to any other one, an observer whose subscription
is not disposed is handed what its publisher commits in between, no more and no less.

Main statement: `Enrolled.received_eq`.
-/

namespace ReactiveCells

variable {V P σ ε : Type} [BEq V] {body : P → Prog V P σ ε} {starts : Prog V P σ ε → Prop}
  {ok : Thread V P σ ε → Prop} {w w' : World V P σ ε} {t t' : Thread V P σ ε}
  {es : List (Event V ε)} {p : PublisherRef} {s : Publisher V (Observer V P σ ε)} {id i : Nat}
  {react : Routine V P σ ε} {held : Option SubscriptionRef} {c₀ : V} {ls : List (Signal V)}

/-- A subscription that is disposed stays so. -/
theorem Run.disposed (h : Run body starts ok w t es w' t')
    (hi : w.subscriptions.get? i = some none) : w'.subscriptions.get? i = some none := by
  induction h with
  | refl => exact hi
  | step _ hstep _ ih => exact or_self_iff.1 ((Thread.moves_iff.2 hstep).subscription ih)
  | next _ _ _ _ ih => exact ih

/-! ## Publishers that are faithful to their observers -/

/-- A publisher that is faithful to its observers stays so as long as nothing panics. -/
theorem View.Faithful.run (h : View.Faithful c₀ ls (t.view p s)) (hreg : Regular p s w t)
    (hrun : Run body starts Thread.Calm w t es w' t') :
    ∃ s', Regular p s' w' t' ∧ View.Faithful c₀ (ls ++ signals p es) (t'.view p s') := by
  induction hrun with
  | refl => exact ⟨s, hreg, (List.append_nil ls).symm ▸ h⟩
  | step _ hstep hcalm ih =>
      obtain ⟨s₁, hreg₁, h₁⟩ := ih
      obtain ⟨s', hreg', hv⟩ := hreg₁.move (Thread.moves_iff.2 hstep) hcalm
      rw [signals_append, ← List.append_assoc]
      exact ⟨s', hreg', h₁.move hreg₁.sound hreg₁.orderly.single hv (Or.inl hcalm)⟩
  | @next _ _ t _ c _ ho _ _ ih =>
      obtain ⟨s₁, hreg₁, h₁⟩ := ih
      obtain ⟨hset, hreg'⟩ := hreg₁.next ho c
      exact ⟨s₁, hreg', h₁.same (View.calls_start hset c) rfl rfl rfl rfl⟩

/-- In a world without panics every publisher is faithful to its observers. -/
theorem Calmly.faithful (h : Calmly body w t) (hs : w.publisher? p = some s) :
    ∃ c₀ ls, View.Faithful c₀ ls (t.view p s) := by
  obtain ⟨store, c, es, hrun⟩ := h
  -- how faithful it stays depends on how regular it is, so both are followed together
  refine (hrun.life (fun s w t => Regular p s w t ∧ ∃ c₀ ls, View.Faithful c₀ ls (t.view p s))
    ?_ ?_ ?_ hs).2
  · intro guard v w t hnew hset
    refine ⟨regular_new hnew hset, v, [], ?_⟩
    rw [Thread.view, hset.due]
    exact View.faithful_new guard v _
  · rintro s w t es w' t' ⟨hreg, c₀, ls, hf⟩ hm hcalm
    obtain ⟨s', hreg', hv⟩ := hreg.move hm hcalm
    exact ⟨s', hreg'.found, hreg', c₀, _,
      hf.move hreg.sound hreg.orderly.single hv (Or.inl hcalm)⟩
  · rintro s w t o c ⟨hreg, c₀, ls, hf⟩ ho
    obtain ⟨hset, hreg'⟩ := hreg.next ho c
    exact ⟨hreg', c₀, ls, hf.same (View.calls_start hset c) rfl rfl rfl rfl⟩

namespace Enrolled

/-- An observer is taken away by nobody but its own subscription, whatever is run. -/
theorem run (h : Enrolled p id react held w t) (hrun : Run body starts Thread.Calm w t es w' t') :
    Enrolled p id react held w' t' := by
  induction hrun with
  | refl => exact h
  | step _ hstep hcalm ih => exact ih.move (Thread.moves_iff.2 hstep) hcalm
  | next _ _ _ _ ih => exact ih.same rfl rfl nofun

omit [BEq V] in
/-- An observer whose subscription is not disposed is there. -/
theorem mem_ids {x : SubscriptionRef} (h : Enrolled p id react (some x) w t)
    (hkept : w.subscriptions.get? x.index ≠ some none) (hs : w.publisher? p = some s) :
    id ∈ s.ids := by
  obtain ⟨q, hq, r, hr, rfl, -⟩ :=
    h.registered (Or.inr ⟨_, (h.entry x rfl).resolve_right hkept⟩)
  obtain rfl := Option.some.inj (hs.symm.trans hq)
  exact Publisher.id_mem_ids hr

/-- From one moment in which nothing is being delivered to another one an observer that is kept is
handed all that is committed. -/
theorem received_eq {x : SubscriptionRef} (h : Enrolled p id react (some x) w t)
    (hcalm : Calmly body w t) (hset : t.Settled p)
    (hrun : Run body starts Thread.Calm w t es w' t') (hset' : t'.Settled p)
    (hkept : w'.subscriptions.get? x.index ≠ some none) :
    received id (signals p es) = commits (signals p es) := by
  have hkept₀ : w.subscriptions.get? x.index ≠ some none := fun hno => hkept (hrun.disposed hno)
  obtain ⟨s, hs, -⟩ := h.registered (Or.inr ⟨_, (h.entry x rfl).resolve_right hkept₀⟩)
  have hreg := hcalm.regular hs
  obtain ⟨c₀, ls, hf⟩ := hcalm.faithful hs
  obtain ⟨s', hreg', hf'⟩ := hf.run hreg hrun
  have hid : id ∈ s.ids := h.mem_ids hkept₀ hs
  have hid' : id ∈ s'.ids := (h.run hrun).mem_ids hkept hreg'.found
  have hbefore := hf.received_eq (View.calls_of_settled hset) (hreg.intact.idle hset).2 hid
  have hafter := hf'.received_eq (View.calls_of_settled hset') (hreg'.intact.idle hset').2 hid'
  have hle : startOf id ls ≤ (c₀ :: commits ls).length := Nat.le_succ_of_le (startOf_le id ls)
  rw [received_append, commits_append, startOf_append_of_mem (hf.mem_subscribed hreg.sound hid),
    ← List.cons_append, List.drop_append_of_le_length hle, ← hbefore] at hafter
  exact List.append_cancel_left hafter

end Enrolled

end ReactiveCells
