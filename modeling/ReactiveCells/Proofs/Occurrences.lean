import ReactiveCells.Proofs.Distinct

/-!
# Occurrences — which values of a list an ordered set keeps

A policy says what becomes of a list by the positions that hold a value for the first time, or for
the last one. Keeping first occurrences goes through the list with the values kept so far, which are
those of all the positions passed. Refusing goes through it with the values passed themselves: as
long as none was repeated they are the positions passed one by one, so that the place at which an
equal value is found is its place in the list.

Main statements: `names_of_firstRepeat` (what a refusal names), `picks_keepFirst` (what is kept), and
`resolve_occurrences`.
-/

namespace ReactiveCells

variable {T : Type} [BEq T]

/-- Whether a position holds a value that no earlier position holds. -/
def FirstAt (vs : List T) (i : Nat) : Prop :=
  ∃ v, vs[i]? = some v ∧ ∀ j < i, ∀ u, vs[j]? = some u → (u == v) = false

/-- Whether a position holds a value that no later position holds. -/
def LastAt (vs : List T) (i : Nat) : Prop :=
  ∃ v, vs[i]? = some v ∧ ∀ j > i, ∀ u, vs[j]? = some u → (u == v) = false

/-- Whether `l` is what a list holds at certain positions, each of them once and in order. -/
def Picks (vs : List T) (chosen : Nat → Prop) (l : List T) : Prop :=
  ∃ is : List Nat, is.Pairwise (· < ·) ∧ (∀ i, i ∈ is ↔ chosen i) ∧
    is.map (vs[·]?) = l.map some

/-- Whether a refusal names the least position with a value that occurs earlier, and the position at
which that value occurs first. -/
structure DuplicateValue.Names (e : DuplicateValue) (vs : List T) : Prop where
  least : ∀ i < e.index, FirstAt vs i
  earlier : e.firstIndex < e.index
  first : FirstAt vs e.firstIndex
  same : ∃ u v, vs[e.firstIndex]? = some u ∧ vs[e.index]? = some v ∧ (u == v) = true

/-! ## Positions -/

section Picks

variable {vs l : List T} {chosen chosen' : Nat → Prop} {n : Nat} {v : T}

omit [BEq T] in
theorem Picks.congr (h : Picks vs chosen l) (hc : ∀ i, chosen i ↔ chosen' i) :
    Picks vs chosen' l := by
  obtain ⟨is, his, hmem, hmap⟩ := h
  exact ⟨is, his, fun i => (hmem i).trans (hc i), hmap⟩

omit [BEq T] in
/-- One more position is picked, before all others. -/
theorem Picks.cons (h : Picks vs chosen l) (hn : vs[n]? = some v) (hlt : ∀ i, chosen i → n < i) :
    Picks vs (fun i => i = n ∨ chosen i) (v :: l) := by
  obtain ⟨is, his, hmem, hmap⟩ := h
  refine ⟨n :: is, .cons (fun i hi => hlt i ((hmem i).1 hi)) his, fun i => ?_, ?_⟩
  · rw [List.mem_cons, hmem]
  · rw [List.map_cons, List.map_cons, hn, hmap]

omit [BEq T] in
/-- What is picked from the other end is picked at the mirrored positions. -/
theorem Picks.reverse (h : Picks vs chosen l) :
    Picks vs.reverse (fun i => i < vs.length ∧ chosen (vs.length - 1 - i)) l.reverse := by
  obtain ⟨is, his, hmem, hmap⟩ := h
  have hbound : ∀ i ∈ is, i < vs.length := by
    intro i hi
    have hsome : vs[i]? ∈ l.map some := hmap ▸ List.mem_map_of_mem hi
    obtain ⟨v, -, hv⟩ := List.mem_map.1 hsome
    exact (List.getElem?_eq_some_iff.1 hv.symm).1
  refine ⟨(is.map (vs.length - 1 - ·)).reverse, ?_, fun i => ?_, ?_⟩
  · refine List.pairwise_reverse.2 (List.pairwise_map.2 (his.imp_of_mem fun hi hj hlt => ?_))
    have := hbound _ hi
    have := hbound _ hj
    omega
  · rw [List.mem_reverse, List.mem_map]
    constructor
    · rintro ⟨j, hj, rfl⟩
      have := hbound j hj
      refine ⟨by omega, ?_⟩
      rw [show vs.length - 1 - (vs.length - 1 - j) = j by omega]
      exact (hmem j).1 hj
    · rintro ⟨hi, hc⟩
      exact ⟨_, (hmem _).2 hc, by omega⟩
  · rw [List.map_reverse, List.map_map, List.map_reverse, ← hmap]
    refine congrArg List.reverse (List.map_congr_left fun i hi => ?_)
    have hmirror : vs.length - 1 - i + i + 1 = vs.length := by
      have := hbound i hi
      omega
    exact List.getElem?_reverse' hmirror

/-- Last occurrences are first ones from the other end. -/
theorem firstAt_reverse_iff (i : Nat) :
    i < vs.length ∧ FirstAt vs.reverse (vs.length - 1 - i) ↔ LastAt vs i := by
  have mirrored : ∀ j < vs.length, vs.reverse[vs.length - 1 - j]? = vs[j]? := fun j hj =>
    List.getElem?_reverse' (by omega)
  constructor
  · rintro ⟨hi, v, hv, hall⟩
    refine ⟨v, (mirrored i hi).symm.trans hv, fun j hj u hu => ?_⟩
    have hlt := (List.getElem?_eq_some_iff.1 hu).1
    exact hall (vs.length - 1 - j) (by omega) u ((mirrored j hlt).trans hu)
  · rintro ⟨v, hv, hall⟩
    have hi := (List.getElem?_eq_some_iff.1 hv).1
    refine ⟨hi, v, (mirrored i hi).trans hv, fun j hj u hu => ?_⟩
    have hback : vs.length - 1 - (vs.length - 1 - j) = j := by omega
    refine hall (vs.length - 1 - j) (by omega) u ?_
    rw [← mirrored _ (by omega), hback]
    exact hu

/-- Where a value is equal to none before it, it is held for the first time. -/
theorem firstAt_append_iff [PartialEquivBEq T] (before rest : List T) (v : T) :
    FirstAt (before ++ v :: rest) before.length ↔ before.elem v = false := by
  have hself : (before ++ v :: rest)[before.length]? = some v := by simp
  rw [elem_eq_false_iff]
  constructor
  · rintro ⟨v', hv', hall⟩ u hu
    obtain rfl := Option.some.inj (hself.symm.trans hv')
    obtain ⟨j, hj⟩ := List.mem_iff_getElem?.1 hu
    have hlt := (List.getElem?_eq_some_iff.1 hj).1
    exact hall j hlt u ((List.getElem?_append_left hlt).trans hj)
  · intro h
    refine ⟨v, hself, fun j hj u hu => h u ?_⟩
    rw [List.getElem?_append_left hj] at hu
    exact List.mem_of_getElem? hu

/-- What comes later does not matter. -/
theorem FirstAt.append (h : FirstAt vs n) (rest : List T) : FirstAt (vs ++ rest) n := by
  obtain ⟨v, hv, hall⟩ := h
  have hlt := (List.getElem?_eq_some_iff.1 hv).1
  refine ⟨v, (List.getElem?_append_left hlt).trans hv, fun j hj u hu => hall j hj u ?_⟩
  rwa [List.getElem?_append_left (hj.trans hlt)] at hu

/-- In a list without duplicates every position holds its value for the first time. -/
theorem Distinct.firstAt (h : Distinct vs) (hn : n < vs.length) : FirstAt vs n := by
  refine ⟨vs[n], List.getElem?_eq_getElem hn, fun j hj u hu => ?_⟩
  obtain ⟨hlt, rfl⟩ := List.getElem?_eq_some_iff.1 hu
  exact List.pairwise_iff_getElem.1 h j n hlt hn hj

end Picks

/-! ## What the policies do -/

namespace DuplicatePolicy

variable {seen kept vs l : List T} {e : DuplicateValue}

/-- A list without duplicates has no repetition to be found. -/
theorem firstRepeat_of_distinct (h : Distinct (seen ++ vs)) : firstRepeat seen vs = none := by
  induction vs generalizing seen with
  | nil => rfl
  | cons v rest ih =>
      have hnone : seen.findIdx? (· == v) = none :=
        List.findIdx?_eq_none_iff.2 fun u hu =>
          (List.pairwise_append.1 h).2.2 u hu v List.mem_cons_self
      rw [firstRepeat, hnone]
      exact ih (List.append_cons seen v rest ▸ h)

/-- The values passed before a repetition is found are the positions passed, so both positions named
are positions of the list. -/
theorem names_of_firstRepeat (h : firstRepeat seen vs = some e) (hseen : Distinct seen) :
    e.Names (seen ++ vs) := by
  induction vs generalizing seen with
  | nil => exact nomatch h
  | cons v rest ih =>
      cases hfound : seen.findIdx? (· == v) with
      | none =>
          rw [firstRepeat, hfound] at h
          rw [List.append_cons]
          exact ih h (distinct_concat hseen hfound)
      | some first =>
          rw [firstRepeat, hfound] at h
          obtain rfl := Option.some.inj h
          obtain ⟨hlt, heq, -⟩ := List.findIdx?_eq_some_iff_getElem.1 hfound
          have hleast : ∀ i < seen.length, FirstAt (seen ++ v :: rest) i := fun i hi =>
            (hseen.firstAt hi).append _
          refine ⟨hleast, hlt, hleast first hlt, seen[first], v, ?_, by simp, heq⟩
          exact (List.getElem?_append_left hlt).trans (List.getElem?_eq_getElem hlt)

theorem keepFirst_of_distinct [PartialEquivBEq T] (h : Distinct vs)
    (hapart : ∀ u ∈ vs, kept.elem u = false) : keepFirst kept vs = vs := by
  induction vs generalizing kept with
  | nil => rfl
  | cons v rest ih =>
      obtain ⟨hv, hrest⟩ := List.pairwise_cons.1 h
      obtain ⟨hnew, hothers⟩ := List.forall_mem_cons.1 hapart
      rw [keepFirst, hnew, if_neg Bool.false_ne_true, ih hrest fun u hu => ?_]
      rw [List.elem_cons, hothers u hu, BEq.symm_false (hv u hu)]

variable [EquivBEq T]

theorem elem_congr {u v : T} (h : (u == v) = true) (l : List T) : l.elem u = l.elem v := by
  rw [List.elem_eq_contains, List.elem_eq_contains, List.contains_congr h]

/-- No value is lost. -/
theorem elem_keepFirst (kept vs : List T) (x : T) :
    (kept.elem x || (keepFirst kept vs).elem x) = (kept.elem x || vs.elem x) := by
  induction vs generalizing kept with
  | nil => rfl
  | cons v rest ih =>
      rw [keepFirst]
      split
      · next hold =>
          rw [ih, List.elem_cons]
          cases hx : x == v with
          | false => rfl
          | true => rw [elem_congr hx, hold]; rfl
      · have hrest := ih (v :: kept)
        simp only [List.elem_cons] at hrest ⊢
        grind

/-- After some of a list has been passed, what is kept of the rest is what it holds for the first
time, if those kept so far are the values passed. -/
theorem picks_keepFirst (before : List T) (h : ∀ x, kept.elem x = before.elem x) :
    Picks (before ++ vs) (fun i => before.length ≤ i ∧ FirstAt (before ++ vs) i)
      (keepFirst kept vs) := by
  induction vs generalizing kept before with
  | nil =>
      refine ⟨[], .nil, fun i => ⟨nofun, ?_⟩, rfl⟩
      rintro ⟨hle, v, hv, -⟩
      have hlt := (List.getElem?_eq_some_iff.1 hv).1
      rw [List.append_nil] at hlt
      omega
  | cons v rest ih =>
      have hhere : FirstAt (before ++ [v] ++ rest) before.length ↔ kept.elem v = false := by
        rw [← List.append_cons, firstAt_append_iff, h]
      have hpassed : ∀ x, (before ++ [v]).elem x = (kept.elem x || x == v) := fun x => by
        simp [List.elem_eq_contains, h]
      have hlater : ∀ i, (before ++ [v]).length ≤ i ↔ before.length < i := fun i => by
        rw [List.length_append]
        rfl
      rw [keepFirst, List.append_cons]
      split
      · next hold =>
          -- the value is not held for the first time, and adds nothing to those kept
          refine (ih (before ++ [v]) fun x => ?_).congr fun i => ?_
          · rw [hpassed]
            cases hx : x == v with
            | false => rw [Bool.or_false]
            | true => rw [elem_congr hx, hold]; rfl
          · rw [hlater]
            constructor
            · rintro ⟨hlt, hi⟩
              exact ⟨Nat.le_of_lt hlt, hi⟩
            · rintro ⟨hle, hi⟩
              refine ⟨Nat.lt_of_le_of_ne hle ?_, hi⟩
              rintro rfl
              exact absurd (hhere.1 hi) (ne_false_of_eq_true hold)
      · next hnew =>
          have hfirst := hhere.2 (Bool.eq_false_iff.2 hnew)
          have hpassed' : ∀ x, (v :: kept).elem x = (before ++ [v]).elem x := fun x => by
            rw [hpassed, List.elem_cons, Bool.or_comm]
            cases x == v <;> rfl
          have hrest := ih (before ++ [v]) hpassed'
          refine (hrest.cons (n := before.length) (v := v) ?_ fun i hi => ?_).congr fun i => ?_
          · simp
          · exact (hlater i).1 hi.1
          · rw [hlater]
            constructor
            · rintro (rfl | ⟨hlt, hi⟩)
              · exact ⟨Nat.le_refl _, hfirst⟩
              · exact ⟨Nat.le_of_lt hlt, hi⟩
            · rintro ⟨hle, hi⟩
              exact (Nat.eq_or_lt_of_le hle).imp Eq.symm fun hlt => ⟨hlt, hi⟩

omit [EquivBEq T] in
theorem reject_of_not_distinct (h : ¬ Distinct vs) :
    ∃ e : DuplicateValue, resolve .reject vs = .error e ∧ e.Names vs := by
  cases hrep : firstRepeat [] vs with
  | none => exact absurd (distinct_of_firstRepeat hrep .nil) h
  | some e => exact ⟨e, by rw [resolve, hrep], names_of_firstRepeat hrep .nil⟩

theorem picks_takeFirst (vs : List T) : Picks vs (FirstAt vs) (keepFirst [] vs) := by
  have hpicks : Picks ([] ++ vs) (fun i => 0 ≤ i ∧ FirstAt ([] ++ vs) i) (keepFirst [] vs) :=
    picks_keepFirst [] fun _ => rfl
  exact hpicks.congr fun i => and_iff_right (Nat.zero_le i)

theorem picks_takeLast (vs : List T) : Picks vs (LastAt vs) (keepFirst [] vs.reverse).reverse := by
  have hpicks := (picks_takeFirst vs.reverse).reverse
  rw [List.reverse_reverse, List.length_reverse] at hpicks
  exact hpicks.congr firstAt_reverse_iff

theorem resolve_of_distinct (h : Distinct vs) (policy : DuplicatePolicy) :
    policy.resolve vs = .ok vs := by
  have first : ∀ {l : List T}, Distinct l → keepFirst [] l = l := fun hl =>
    keepFirst_of_distinct hl fun _ _ => rfl
  cases policy with
  | reject =>
      have hnone : firstRepeat [] vs = none := firstRepeat_of_distinct h
      rw [resolve, hnone]
  | takeFirst => rw [resolve, first h]
  | takeLast => rw [resolve, first h.reverse, List.reverse_reverse]

theorem elem_of_resolve {policy : DuplicatePolicy} (h : policy.resolve vs = .ok l) (x : T) :
    l.elem x = vs.elem x := by
  cases policy with
  | reject =>
      cases hrep : firstRepeat [] vs with
      | some e =>
          rw [resolve, hrep] at h
          cases h
      | none =>
          rw [resolve, hrep] at h
          cases h
          rfl
  | takeFirst =>
      cases h
      exact elem_keepFirst [] vs x
  | takeLast =>
      cases h
      rw [List.elem_eq_contains, List.contains_reverse, ← List.elem_eq_contains]
      exact (elem_keepFirst [] vs.reverse x).trans (by simp)

/-- What the policies make of a list. -/
theorem resolve_occurrences (vs : List T) :
    (Distinct vs → ∀ policy : DuplicatePolicy, policy.resolve vs = .ok vs) ∧
    (¬ Distinct vs → ∃ e : DuplicateValue, resolve .reject vs = .error e ∧ e.Names vs) ∧
    (∃ l, resolve .takeFirst vs = .ok l ∧ Picks vs (FirstAt vs) l) ∧
    (∃ l, resolve .takeLast vs = .ok l ∧ Picks vs (LastAt vs) l) ∧
    (∀ policy : DuplicatePolicy, policy ≠ .reject → ∃ l, policy.resolve vs = .ok l ∧
      policy.resolve l = .ok l ∧ ∀ x, l.elem x = vs.elem x) ∧
    resolve .takeLast vs = (resolve .takeFirst vs.reverse).map List.reverse := by
  refine ⟨resolve_of_distinct, reject_of_not_distinct, ⟨_, rfl, picks_takeFirst vs⟩,
    ⟨_, rfl, picks_takeLast vs⟩, fun policy hpolicy => ?_, resolve_takeLast vs⟩
  obtain ⟨l, hl⟩ : ∃ l, policy.resolve vs = .ok l := by
    cases policy with
    | reject => exact absurd rfl hpolicy
    | takeFirst => exact ⟨_, rfl⟩
    | takeLast => exact ⟨_, rfl⟩
  exact ⟨l, hl, resolve_of_distinct (distinct_of_resolve hl) policy, elem_of_resolve hl⟩

/-- The value at the end of the list is also at its beginning. -/
theorem resolve_occurrences_repeated :
    resolve .reject [1, 2, 3, 4, 5, 1] = .error ⟨5, 0⟩ ∧
    resolve .takeFirst [1, 2, 3, 4, 5, 1] = .ok [1, 2, 3, 4, 5] ∧
    resolve .takeLast [1, 2, 3, 4, 5, 1] = .ok [2, 3, 4, 5, 1] ∧
    (⟨5, 0⟩ : DuplicateValue).Names [1, 2, 3, 4, 5, 1] ∧
    Picks [1, 2, 3, 4, 5, 1] (LastAt [1, 2, 3, 4, 5, 1]) [2, 3, 4, 5, 1] := by
  obtain ⟨-, refused, -, last, -⟩ := resolve_occurrences [1, 2, 3, 4, 5, 1]
  obtain ⟨e, he, hnames⟩ := refused (by unfold Distinct; decide)
  obtain ⟨l, hl, hpicks⟩ := last
  cases he
  cases hl
  exact ⟨rfl, rfl, rfl, hnames, hpicks⟩

end DuplicatePolicy

end ReactiveCells
