import Mathlib.Data.List.Sort
import ReactiveCells.Proofs.Deadlock

/-!
# The canonical sequence of an ordered lock

The locks of a list are taken by ascending key, and where keys are equal by first appearance. The
first appearances of a list stand in the order of first appearance, and sorting them by key keeps
that order among locks of equal key. So there is one sequence only that an ordered lock can have,
and a list says no more about it than which locks there are, and who comes first among locks of
equal key.

Main statements: `pairwise_firstAppearances`, `precedes_on` (the order), `needsTieBreaker_iff`, and
`canonical_sequence`.
-/

namespace ReactiveCells.OrderedLock

variable {ls ls' ks : List LockId} {a b : LockId}

/-- Whether a lock of a list is taken before another one: it has the lower key, or the same key and
the earlier first appearance. -/
def Precedes (ls : List LockId) (a b : LockId) : Prop :=
  a.key < b.key ∨ a.key = b.key ∧ ls.idxOf a < ls.idxOf b

/-- Whether a sequence has every lock of a list once and no other lock, in the order in which they
are taken. -/
structure Canonical (ls ks : List LockId) : Prop where
  once : ∀ l, ks.count l = if l ∈ ls then 1 else 0
  ordered : ks.Pairwise (Precedes ls)

/-- Whether two sequences differ by permutations of locks of equal key at most: the locks are the
same, and so is the key at every place. -/
structure Interchanged (ks ks' : List LockId) : Prop where
  perm : ks.Perm ks'
  keys : ks.map (·.key) = ks'.map (·.key)

/-! ## First appearances -/

theorem firstAppearances_concat (ls : List LockId) (a : LockId) :
    firstAppearances (ls ++ [a]) =
      if a ∈ firstAppearances ls then firstAppearances ls else firstAppearances ls ++ [a] := by
  rw [firstAppearances, List.foldl_append]
  rfl

/-- First appearances stand in their own order. -/
theorem pairwise_firstAppearances (ls : List LockId) :
    (firstAppearances ls).Pairwise fun a b => ls.idxOf a < ls.idxOf b := by
  induction ls using List.reverseRecOn with
  | nil => exact .nil
  | append_singleton ls a ih =>
      -- a longer list has its first appearances where they were
      have hold : ∀ b ∈ firstAppearances ls, (ls ++ [a]).idxOf b = ls.idxOf b := fun b hb =>
        List.idxOf_append_of_mem ((mem_firstAppearances ls b).1 hb)
      have hkept : (firstAppearances ls).Pairwise fun b c =>
          (ls ++ [a]).idxOf b < (ls ++ [a]).idxOf c :=
        ih.imp_of_mem fun hb hc hlt => by rwa [hold _ hb, hold _ hc]
      rw [firstAppearances_concat]
      split
      · exact hkept
      · next hnew =>
          have ha : a ∉ ls := fun h => hnew ((mem_firstAppearances ls a).2 h)
          refine List.pairwise_append.2 ⟨hkept, List.pairwise_singleton _ _, fun b hb c hc => ?_⟩
          obtain rfl := List.mem_singleton.1 hc
          have hb' := (mem_firstAppearances ls b).1 hb
          rw [hold b hb, List.idxOf_append_of_notMem ha]
          exact Nat.lt_of_lt_of_le (List.idxOf_lt_length_iff.2 hb') (Nat.le_add_right _ _)

/-! ## The order of the sequence -/

/-- Sorting by key leaves locks of equal key as they stand. -/
theorem sublist_on (h : [a, b].Sublist (firstAppearances ls)) (hkey : a.key ≤ b.key) :
    [a, b].Sublist (on ls).locks :=
  List.pair_sublist_mergeSort (by intro a b c; simpa using Nat.le_trans)
    (by intro a b; simpa using Nat.le_total a.key b.key) (by simpa using hkey) h

/-- Of two different entries of a list one comes before the other. -/
theorem sublist_or_sublist (ha : a ∈ ks) (hb : b ∈ ks) (hne : a ≠ b) :
    [a, b].Sublist ks ∨ [b, a].Sublist ks := by
  obtain ⟨l, r, rfl⟩ := List.append_of_mem ha
  rcases List.mem_append.1 hb with hl | hr
  · exact Or.inr ((List.singleton_sublist.2 hl).append (List.singleton_sublist.2 List.mem_cons_self))
  · left
    have hr' : b ∈ r := (List.mem_cons.1 hr).resolve_left (Ne.symm hne)
    exact (List.nil_sublist l).append (.cons_cons a (List.singleton_sublist.2 hr'))

/-- Locks are taken by ascending key, and by first appearance where keys are equal. -/
theorem precedes_on (ls : List LockId) : (on ls).locks.Pairwise (Precedes ls) := by
  refine List.pairwise_iff_forall_sublist.2 fun {a b} hab => ?_
  have hne : a ≠ b := List.pairwise_iff_forall_sublist.1 (nodup_on ls) hab
  have hkey : a.key ≤ b.key := List.pairwise_iff_forall_sublist.1 (sorted_on ls) hab
  have hmem : ∀ l ∈ [a, b], l ∈ firstAppearances ls := fun l hl =>
    (mem_firstAppearances ls l).2 ((mem_on ls l).1 (hab.subset hl))
  rcases Nat.lt_or_eq_of_le hkey with hlt | heq
  · exact Or.inl hlt
  · refine Or.inr ⟨heq, ?_⟩
    rcases sublist_or_sublist (hmem a (by simp)) (hmem b (by simp)) hne with hfirst | hlast
    · exact List.pairwise_iff_forall_sublist.1 (pairwise_firstAppearances ls) hfirst
    · -- if `b` appeared first it would be taken first
      have hba : [b, a].Sublist (on ls).locks := sublist_on hlast (Nat.le_of_eq heq.symm)
      have hsame := ((nodup_on ls).perm_iff_eq_of_sublist hab hba).1 (.swap b a [])
      exact absurd (List.cons.inj hsame).1 hne

theorem Canonical.mem_iff (h : Canonical ls ks) (l : LockId) : l ∈ ks ↔ l ∈ ls := by
  rw [← List.count_pos_iff, h.once]
  split <;> simp_all

theorem canonical_iff : Canonical ls ks ↔
    ks.Nodup ∧ (∀ l ∈ ks, l ∈ ls) ∧ (∀ l ∈ ls, l ∈ ks) ∧ ks.Pairwise (Precedes ls) := by
  constructor
  · intro h
    refine ⟨List.nodup_iff_count_le_one.2 fun l => ?_, fun l => (h.mem_iff l).1,
      fun l => (h.mem_iff l).2, h.ordered⟩
    rw [h.once]
    split
    · exact Nat.le_refl _
    · exact Nat.zero_le _
  · rintro ⟨hnodup, hsub, hsup, hordered⟩
    exact ⟨fun l => by rw [hnodup.count, if_congr ⟨hsub l, hsup l⟩ rfl rfl], hordered⟩

instance (ls : List LockId) (a b : LockId) : Decidable (Precedes ls a b) :=
  inferInstanceAs (Decidable (_ ∨ _))

instance (ls ks : List LockId) : Decidable (Canonical ls ks) :=
  decidable_of_iff' _ canonical_iff

theorem canonical_on (ls : List LockId) : Canonical ls (on ls).locks :=
  canonical_iff.2 ⟨nodup_on ls, fun l => (mem_on ls l).1, fun l => (mem_on ls l).2, precedes_on ls⟩

/-- There is no other sequence in that order. -/
theorem Canonical.eq_on (h : Canonical ls ks) : ks = (on ls).locks := by
  have hirrefl : Std.Irrefl (Precedes ls) := ⟨fun a ha => by unfold Precedes at ha; omega⟩
  have hantisymm : Std.Antisymm (Precedes ls) :=
    ⟨fun a b hab hba => by unfold Precedes at hab hba; omega⟩
  refine h.ordered.eq_of_mem_iff (precedes_on ls) fun l => ?_
  rw [h.mem_iff, mem_on]

/-! ## Collisions -/

/-- Two neighbours of equal key are two entries of equal key. -/
theorem sublist_of_hasCollision (h : hasCollision ks = true) :
    ∃ a b, [a, b].Sublist ks ∧ a.key = b.key := by
  induction ks with
  | nil => exact nomatch h
  | cons a rest ih =>
      cases rest with
      | nil => exact nomatch h
      | cons b rest =>
          rw [hasCollision, Bool.or_eq_true, beq_iff_eq] at h
          rcases h with hkey | hlater
          · exact ⟨a, b, by simp, hkey⟩
          · obtain ⟨c, d, hsub, hkey⟩ := ih hlater
            exact ⟨c, d, hsub.cons a, hkey⟩

/-- The tie-breaker is needed where two locks have one key, wherever they stand in the list. -/
theorem needsTieBreaker_iff (ls : List LockId) :
    (on ls).needsTieBreaker = true ↔ ∃ a ∈ ls, ∃ b ∈ ls, a ≠ b ∧ a.key = b.key := by
  constructor
  · intro h
    obtain ⟨a, b, hsub, hkey⟩ := sublist_of_hasCollision h
    have hmem : ∀ l ∈ [a, b], l ∈ ls := fun l hl => (mem_on ls l).1 (hsub.subset hl)
    exact ⟨a, hmem a (by simp), b, hmem b (by simp),
      List.pairwise_iff_forall_sublist.1 (nodup_on ls) hsub, hkey⟩
  · rintro ⟨a, ha, b, hb, hne, hkey⟩
    exact needsTieBreaker_of_key ha hb hne hkey

/-! ## Lists of the same locks -/

theorem needsTieBreaker_congr (h : ∀ l, l ∈ ls' ↔ l ∈ ls) :
    (on ls').needsTieBreaker = (on ls).needsTieBreaker := by
  rw [Bool.eq_iff_iff, needsTieBreaker_iff, needsTieBreaker_iff]
  simp only [h]

theorem perm_on (h : ∀ l, l ∈ ls' ↔ l ∈ ls) : (on ls').locks.Perm (on ls).locks := by
  refine (List.perm_ext_iff_of_nodup (nodup_on ls') (nodup_on ls)).2 fun l => ?_
  rw [mem_on, mem_on, h]

/-- Where the same locks stand the same keys come one after another. -/
theorem interchanged_on (h : ∀ l, l ∈ ls' ↔ l ∈ ls) :
    Interchanged (on ls').locks (on ls).locks where
  perm := perm_on h
  keys := by
    have hsorted : ∀ ls, ((on ls).locks.map (·.key)).Pairwise (· ≤ ·) := fun ls =>
      List.pairwise_map.2 (sorted_on ls)
    exact ((perm_on h).map _).eq_of_sortedLE (hsorted ls').sortedLE (hsorted ls).sortedLE

theorem ascending_of_needsTieBreaker (hno : (on ls).needsTieBreaker = false) :
    (on ls).locks.Pairwise fun a b => a.key < b.key := by
  refine List.pairwise_iff_forall_sublist.2 fun {a b} hab => ?_
  refine Nat.lt_of_le_of_ne (List.pairwise_iff_forall_sublist.1 (sorted_on ls) hab) fun hkey => ?_
  have hneeds : (on ls).needsTieBreaker = true := hasCollision_of_sublist (sorted_on ls) hab hkey
  exact nomatch hneeds.symm.trans hno

/-- Without a collision the keys alone decide the sequence. -/
theorem on_eq_of_needsTieBreaker (h : ∀ l, l ∈ ls' ↔ l ∈ ls)
    (hno : (on ls).needsTieBreaker = false) : (on ls').locks = (on ls).locks := by
  have hirrefl : Std.Irrefl fun a b : LockId => a.key < b.key := ⟨fun a => Nat.lt_irrefl a.key⟩
  have hantisymm : Std.Antisymm fun a b : LockId => a.key < b.key :=
    ⟨fun a b hab hba => absurd hab (Nat.lt_asymm hba)⟩
  have hno' : (on ls').needsTieBreaker = false := by
    rw [← hno, needsTieBreaker_congr h]
  refine (ascending_of_needsTieBreaker hno').eq_of_mem_iff (ascending_of_needsTieBreaker hno) ?_
  intro l
  rw [mem_on, mem_on, h]

/-- The sequence of an ordered lock is the only one that has every lock of the list once, ordered by
key and, where keys are equal, by first appearance. The tie-breaker is needed if and only if two
different locks, anywhere in the list, have one key. Lists of the same locks agree on that, their
sequences differ by permutations of locks of equal key at most, and are the same if there is no
collision. -/
theorem canonical_sequence (ls : List LockId) :
    (∀ ks, Canonical ls ks ↔ ks = (on ls).locks) ∧
    ((on ls).needsTieBreaker = true ↔ ∃ a ∈ ls, ∃ b ∈ ls, a ≠ b ∧ a.key = b.key) ∧
    ∀ ls', (∀ l, l ∈ ls' ↔ l ∈ ls) →
      (on ls').needsTieBreaker = (on ls).needsTieBreaker ∧
      Interchanged (on ls').locks (on ls).locks ∧
      ((on ls).needsTieBreaker = false → (on ls').locks = (on ls).locks) := by
  refine ⟨fun ks => ⟨Canonical.eq_on, ?_⟩, needsTieBreaker_iff ls, fun ls' h => ?_⟩
  · rintro rfl
    exact canonical_on ls
  · exact ⟨needsTieBreaker_congr h, interchanged_on h, on_eq_of_needsTieBreaker h⟩

/-! ## Two lists of the same locks -/

/-- Four locks, two of which have one key. -/
def colliding : List LockId :=
  [⟨2, 7⟩, ⟨0, 9⟩, ⟨2, 7⟩, ⟨1, 7⟩, ⟨3, 4⟩]

/-- From the other end the two locks of one key change places; all else stays. -/
theorem canonical_sequence_colliding :
    (∀ l, l ∈ colliding.reverse ↔ l ∈ colliding) ∧
    (on colliding).locks = [⟨3, 4⟩, ⟨2, 7⟩, ⟨1, 7⟩, ⟨0, 9⟩] ∧
    (on colliding.reverse).locks = [⟨3, 4⟩, ⟨1, 7⟩, ⟨2, 7⟩, ⟨0, 9⟩] ∧
    Canonical colliding [⟨3, 4⟩, ⟨2, 7⟩, ⟨1, 7⟩, ⟨0, 9⟩] ∧
    (on colliding.reverse).needsTieBreaker = true ∧
    Interchanged (on colliding.reverse).locks (on colliding).locks := by
  have hmem : ∀ l, l ∈ colliding.reverse ↔ l ∈ colliding := fun l => List.mem_reverse
  have hcanonical : Canonical colliding [⟨3, 4⟩, ⟨2, 7⟩, ⟨1, 7⟩, ⟨0, 9⟩] := by decide
  have hreversed : Canonical colliding.reverse [⟨3, 4⟩, ⟨1, 7⟩, ⟨2, 7⟩, ⟨0, 9⟩] := by decide
  obtain ⟨hsequence, htie, hsame⟩ := canonical_sequence colliding
  obtain ⟨hagree, hinterchanged, -⟩ := hsame colliding.reverse hmem
  have hneeds : (on colliding).needsTieBreaker = true :=
    htie.2 ⟨⟨2, 7⟩, by decide, ⟨1, 7⟩, by decide, by decide, rfl⟩
  exact ⟨hmem, ((hsequence _).1 hcanonical).symm, hreversed.eq_on.symm, hcanonical,
    hagree.trans hneeds, hinterchanged⟩

end ReactiveCells.OrderedLock
