/-!
# Duplicates — what an ordered set does with repeated values

A list offered to an ordered set is first resolved by the set's policy: `reject` refuses a list
that repeats a value and names the two positions, `takeFirst` and `takeLast` keep one occurrence
of every value.

Main statement: `resolve_takeLast` (keeping last occurrences is keeping first ones of the reversed
list).
-/

namespace ReactiveCells

/-- How an ordered set resolves a list with duplicates. -/
inductive DuplicatePolicy where
  /-- Refuse the whole list. -/
  | reject
  /-- Keep the first occurrence of each value. -/
  | takeFirst
  /-- Keep the last occurrence of each value. -/
  | takeLast
deriving DecidableEq, Repr

instance : Inhabited DuplicatePolicy := ⟨.reject⟩

/-- A repeated value: the least position that repeats an earlier one, and that earlier position. -/
structure DuplicateValue where
  index : Nat
  firstIndex : Nat
deriving DecidableEq, Repr

/-- The text shown for a refused list. -/
def DuplicateValue.text (e : DuplicateValue) : String :=
  "Duplicate value in ordered set. index: " ++ toString e.index ++
    ", first_index: " ++ toString e.firstIndex

namespace DuplicatePolicy

variable {T : Type} [BEq T]

/-- Looks for the first value that was already seen; `seen` holds the values before position
`seen.length`, which are distinct. -/
def firstRepeat (seen : List T) : List T → Option DuplicateValue
  | [] => none
  | v :: rest =>
      match seen.findIdx? (· == v) with
      | some first => some ⟨seen.length, first⟩
      | none => firstRepeat (seen ++ [v]) rest

/-- Keeps the first occurrence of every value not already in `kept`. -/
def keepFirst (kept : List T) : List T → List T
  | [] => []
  | v :: rest => if kept.elem v then keepFirst kept rest else v :: keepFirst (v :: kept) rest

/-- The list an ordered set stores when it is offered `vs`. -/
def resolve (policy : DuplicatePolicy) (vs : List T) : Except DuplicateValue (List T) :=
  match policy with
  | .reject =>
      match firstRepeat [] vs with
      | some e => .error e
      | none => .ok vs
  | .takeFirst => .ok (keepFirst [] vs)
  | .takeLast => .ok (keepFirst [] vs.reverse).reverse

/-- Keeping last occurrences is keeping first occurrences from the other end. -/
theorem resolve_takeLast (vs : List T) :
    resolve .takeLast vs = (resolve .takeFirst vs.reverse).map List.reverse :=
  rfl

end DuplicatePolicy

end ReactiveCells
