import ReactiveCells.Lock.Monitor

/-!
# Ordered locks — several monitors in one canonical order

An `OrderedLock` is built from any list of locks: repeated locks are dropped, the rest are sorted
by order key, and locks of equal key keep the order in which they first appeared. Any two ordered
locks therefore acquire the locks they share in the same relative order, except among locks of
equal key; a set with such a collision takes the tie-breaker before anything else.

Main statements: `mem_on` (no lock is lost or invented), `nodup_on`, and `sorted_on` (the keys
ascend).
-/

namespace ReactiveCells

/-- A set of locks in acquisition order. -/
structure OrderedLock where
  locks : List LockId
  needsTieBreaker : Bool
deriving DecidableEq, Repr

namespace OrderedLock

/-- Keeps the first appearance of every lock. -/
def firstAppearances (ls : List LockId) : List LockId :=
  ls.foldl (fun kept l => if l ∈ kept then kept else kept ++ [l]) []

/-- Whether two neighbours have the same key. -/
def hasCollision : List LockId → Bool
  | a :: b :: rest => a.key == b.key || hasCollision (b :: rest)
  | _ => false

/-- The ordered lock on a list of locks, which may repeat. -/
def on (ls : List LockId) : OrderedLock :=
  let sorted := (firstAppearances ls).mergeSort fun a b => a.key ≤ b.key
  { locks := sorted, needsTieBreaker := hasCollision sorted }

/-- The monitors to enter, in order. -/
def acquisitions (o : OrderedLock) : List Monitor :=
  (if o.needsTieBreaker then [Monitor.tieBreaker] else []) ++ o.locks.map Monitor.lock

private theorem foldl_firstAppearances (ls kept : List LockId) (h : kept.Nodup) :
    (ls.foldl (fun kept l => if l ∈ kept then kept else kept ++ [l]) kept).Nodup ∧
      ∀ l, l ∈ ls.foldl (fun kept l => if l ∈ kept then kept else kept ++ [l]) kept ↔
        l ∈ kept ∨ l ∈ ls := by
  induction ls generalizing kept with
  | nil => simp [h]
  | cons a ls ih =>
      simp only [List.foldl_cons]
      by_cases ha : a ∈ kept
      · rw [if_pos ha]
        refine ⟨(ih kept h).1, fun l => ?_⟩
        rw [(ih kept h).2 l]
        grind
      · rw [if_neg ha]
        have hn : (kept ++ [a]).Nodup := by
          rw [List.nodup_append]
          exact ⟨h, by simp, by grind⟩
        refine ⟨(ih _ hn).1, fun l => ?_⟩
        rw [(ih _ hn).2 l]
        grind

theorem nodup_firstAppearances (ls : List LockId) : (firstAppearances ls).Nodup :=
  (foldl_firstAppearances ls [] (by simp)).1

theorem mem_firstAppearances (ls : List LockId) (l : LockId) :
    l ∈ firstAppearances ls ↔ l ∈ ls := by
  simpa [firstAppearances] using (foldl_firstAppearances ls [] (by simp)).2 l

/-- An ordered lock holds exactly the locks it was built from. -/
theorem mem_on (ls : List LockId) (l : LockId) : l ∈ (on ls).locks ↔ l ∈ ls := by
  simp [on, mem_firstAppearances]

theorem nodup_on (ls : List LockId) : (on ls).locks.Nodup :=
  (List.mergeSort_perm _ _).nodup_iff.2 (nodup_firstAppearances ls)

/-- Locks are acquired by ascending key. -/
theorem sorted_on (ls : List LockId) : (on ls).locks.Pairwise fun a b => a.key ≤ b.key := by
  have h : ((firstAppearances ls).mergeSort fun a b => decide (a.key ≤ b.key)).Pairwise
      fun a b => decide (a.key ≤ b.key) = true :=
    List.pairwise_mergeSort (by intro a b c; simpa using Nat.le_trans)
      (by intro a b; simpa using Nat.le_total a.key b.key) _
  simpa [on] using h

end OrderedLock

end ReactiveCells
