/-!
# Retention — what is still kept

Some things keep others: a publisher keeps its observers, and an observer keeps the publishers it
writes to. Other things are kept outright, by a name or by a call in progress. A thing is gone once
it is not kept outright and all that kept it is gone as well. Things that keep each other in a
circle are not gone, whether or not anybody can still reach them; only breaking the circle ends
them.

Main statement: `mem_survivors_iff` — `survivors` leaves exactly what is not gone.
-/

namespace ReactiveCells

variable {α : Type}

/-- Whether a thing is gone. `outright` is what is kept outright, and an entry of `keepings` says
what one thing keeps. -/
inductive Gone (outright : List α) (keepings : List (α × List α)) : α → Prop where
  | intro {a : α} (free : a ∉ outright)
      (orphaned : ∀ e ∈ keepings, a ∈ e.2 → Gone outright keepings e.1) : Gone outright keepings a

variable [DecidableEq α]

/-- Whether a thing is kept outright or by some entry. -/
def isKept (outright : List α) (keepings : List (α × List α)) (a : α) : Bool :=
  outright.contains a || keepings.any fun e => e.2.contains a

/-- Strikes out the entries of things that nothing keeps. -/
def strikeOut (outright : List α) (keepings : List (α × List α)) : List (α × List α) :=
  keepings.filter fun e => isKept outright keepings e.1

/-- Strikes out entries again and again until all that are left are of things kept. -/
def survivors (outright : List α) (keepings : List (α × List α)) : List (α × List α) :=
  if (strikeOut outright keepings).length < keepings.length then
    survivors outright (strikeOut outright keepings)
  else keepings
termination_by keepings.length

omit [DecidableEq α] in
theorem Gone.of_subset {outright : List α} {keepings rest : List (α × List α)} {a : α}
    (h : Gone outright keepings a) (hsub : ∀ e ∈ rest, e ∈ keepings) : Gone outright rest a := by
  induction h with
  | intro free _ ih => exact .intro free fun e he ha => ih e (hsub e he) ha

theorem isKept_eq_true_iff {outright : List α} {keepings : List (α × List α)} {a : α} :
    isKept outright keepings a = true ↔ a ∈ outright ∨ ∃ e ∈ keepings, a ∈ e.2 := by
  simp [isKept]

/-- An entry that is struck out belongs to a thing that is gone. -/
theorem Gone.of_not_isKept {outright : List α} {keepings : List (α × List α)} {a : α}
    (h : isKept outright keepings a = false) : Gone outright keepings a := by
  have hno : ¬ (a ∈ outright ∨ ∃ e ∈ keepings, a ∈ e.2) := by
    rw [← isKept_eq_true_iff, h]
    exact Bool.false_ne_true
  exact .intro (fun ha => hno (Or.inl ha)) fun e he ha => absurd (Or.inr ⟨e, he, ha⟩) hno

/-- Striking out entries of things that nothing keeps makes nothing else go. -/
theorem gone_strikeOut {outright : List α} {keepings : List (α × List α)} {a : α} :
    Gone outright (strikeOut outright keepings) a ↔ Gone outright keepings a := by
  constructor
  · intro h
    induction h with
    | intro free _ ih =>
        refine .intro free fun e he ha => ?_
        cases hk : isKept outright keepings e.1 with
        | true => exact ih e (List.mem_filter.2 ⟨he, hk⟩) ha
        | false => exact .of_not_isKept hk
  · intro h
    exact h.of_subset fun e he => (List.mem_filter.1 he).1

/-- Where everything is kept nothing is gone. -/
theorem not_gone_of_all_isKept {outright : List α} {keepings : List (α × List α)}
    (hall : ∀ e ∈ keepings, isKept outright keepings e.1 = true) {a : α}
    (h : Gone outright keepings a) : ∀ e ∈ keepings, e.1 ≠ a := by
  induction h with
  | intro free _ ih =>
      intro e he hea
      subst hea
      rcases isKept_eq_true_iff.1 (hall e he) with hout | ⟨d, hd, had⟩
      · exact free hout
      · exact ih d hd had d hd rfl

theorem mem_survivors_iff {outright : List α} {keepings : List (α × List α)} {e : α × List α} :
    e ∈ survivors outright keepings ↔ e ∈ keepings ∧ ¬ Gone outright keepings e.1 := by
  fun_induction survivors outright keepings with
  | case1 keepings hlt ih =>
      rw [ih, gone_strikeOut]
      constructor
      · rintro ⟨he, hg⟩
        exact ⟨(List.mem_filter.1 he).1, hg⟩
      · rintro ⟨he, hg⟩
        refine ⟨List.mem_filter.2 ⟨he, ?_⟩, hg⟩
        cases hk : isKept outright keepings e.1 with
        | true => rfl
        | false => exact absurd (.of_not_isKept hk) hg
  | case2 keepings hlt =>
      have hall : ∀ d ∈ keepings, isKept outright keepings d.1 = true :=
        List.filter_eq_self.1
          ((List.filter_sublist).eq_of_length_le (Nat.le_of_not_lt hlt))
      exact ⟨fun he => ⟨he, fun hg => not_gone_of_all_isKept hall hg e he rfl⟩, fun he => he.1⟩

end ReactiveCells
