import Mathlib.Data.Set.BooleanAlgebra
import Mathlib.Order.CompletePartialOrder
import ReactiveCells.OrderedSet
import ReactiveCells.Proofs.Contracts
import ReactiveCells.Proofs.Returning
import ReactiveCells.Proofs.Scope

/-!
# Distinct — no value twice in an ordered set

What an ordered set makes of a list by its policy has no value twice, and nothing else is ever
written to its publisher, since nobody but the set refers to it: a modification that is refused
writes what it has read. So a program that uses the set through its operations upholds a contract,
whatever else it does, and wherever it does it: in an observer, in the middle of a delivery, or in a
function that the set is modified by.

Main statements: `DuplicatePolicy.distinct_of_resolve`, `OrderedSet.upholds_of_within` (clients
uphold the contract of the set), `OrderedSet.modify_upholds` and `OrderedSet.Made.upholds`.
-/

namespace ReactiveCells

open HasElements

variable {V T P σ ε : Type}

/-! ## Lists without duplicates -/

/-- Whether no value is in a list twice. -/
def Distinct [BEq T] (l : List T) : Prop := l.Pairwise fun a b => (a == b) = false

theorem distinct_iff_nodup [BEq T] [LawfulBEq T] (l : List T) : Distinct l ↔ l.Nodup := by
  simp only [Distinct, List.Nodup, beq_eq_false_iff_ne]

theorem elem_eq_false_iff [BEq T] [PartialEquivBEq T] (l : List T) (v : T) :
    l.elem v = false ↔ ∀ u ∈ l, (u == v) = false := by
  rw [List.elem_eq_contains, List.contains_eq_any_beq, List.any_eq_false]
  exact forall₂_congr fun u _ => by rw [Bool.not_eq_true, BEq.comm]

theorem Distinct.reverse [BEq T] [PartialEquivBEq T] {l : List T} (h : Distinct l) :
    Distinct l.reverse :=
  List.pairwise_reverse.2 (h.imp fun hab => BEq.symm_false hab)

namespace DuplicatePolicy

variable [BEq T] {seen vs l : List T} {policy : DuplicatePolicy}

/-- A value that is not found among others is one more that is not there twice. -/
theorem distinct_concat {v : T} (hseen : Distinct seen) (h : seen.findIdx? (· == v) = none) :
    Distinct (seen ++ [v]) :=
  List.pairwise_append.2 ⟨hseen, List.pairwise_singleton _ _, fun a ha _ hb =>
    List.mem_singleton.1 hb ▸ List.findIdx?_eq_none_iff.1 h a ha⟩

theorem distinct_of_firstRepeat (h : firstRepeat seen vs = none) (hseen : Distinct seen) :
    Distinct (seen ++ vs) := by
  induction vs generalizing seen with
  | nil => rwa [List.append_nil]
  | cons v vs ih =>
      unfold firstRepeat at h
      split at h
      · exact nomatch h
      · next hnone =>
          rw [List.append_cons]
          exact ih h (distinct_concat hseen hnone)

variable [PartialEquivBEq T]

theorem distinct_keepFirst (kept vs : List T) :
    Distinct (keepFirst kept vs) ∧ ∀ a ∈ kept, ∀ b ∈ keepFirst kept vs, (a == b) = false := by
  induction vs generalizing kept with
  | nil => exact ⟨.nil, nofun⟩
  | cons v vs ih =>
      unfold keepFirst
      split
      · exact ih kept
      · next hnew =>
          obtain ⟨hrest, hapart⟩ := ih (v :: kept)
          have hv := (elem_eq_false_iff kept v).1 (Bool.eq_false_iff.2 hnew)
          refine ⟨.cons (hapart v List.mem_cons_self) hrest, fun a ha => ?_⟩
          exact List.forall_mem_cons.2 ⟨hv a ha, hapart a (List.mem_cons_of_mem _ ha)⟩

/-- What a policy makes of a list has no value twice. -/
theorem distinct_of_resolve (h : policy.resolve vs = .ok l) : Distinct l := by
  cases policy with
  | reject =>
      cases hrep : firstRepeat [] vs with
      | some e =>
          rw [resolve, hrep] at h
          exact nomatch h
      | none =>
          rw [resolve, hrep] at h
          cases h
          exact distinct_of_firstRepeat hrep .nil
  | takeFirst =>
      cases h
      exact (distinct_keepFirst [] vs).1
  | takeLast =>
      cases h
      exact Distinct.reverse (distinct_keepFirst [] vs.reverse).1

end DuplicatePolicy

/-! ## What an ordered set does -/

namespace OrderedSet

section Programs

variable [BEq T] {policy : DuplicatePolicy} {vs l : List T} {e : DuplicateValue}

theorem resolve_of_ok (h : policy.resolve vs = .ok l)
    (k : Except DuplicateValue (List T) → Prog V P σ ε) : resolve policy vs k = k (.ok l) := by
  unfold resolve
  rw [h]
  rfl

theorem resolve_of_error (h : policy.resolve vs = .error e)
    (k : Except DuplicateValue (List T) → Prog V P σ ε) :
    resolve policy vs k =
      .atom (.report (.duplicateRejected e.index e.firstIndex)) fun _ => k (.error e) := by
  unfold resolve
  rw [h]
  rfl

variable [HasElements V T]

/-- Turns what a function has made of the list `v` into what is written; a refused list is noted in
`refused`, and `v` is written. -/
def accept (s : OrderedSet) (refused : MemoRef) (v next : V) : Prog V P σ ε :=
  resolve s.policy (elements next) fun
    | .ok resolved => .ret (ofElements resolved)
    | .error _ => .atom (.memo refused fun _ => [next]) fun _ => .ret v

/-- What a modification answers, by the list held then and the lists refused. -/
def answer (s : OrderedSet) (held : V) : List V → Except DuplicateValue (List T)
  | [] => .ok (elements held)
  | next :: _ => s.policy.resolve (elements next)

variable (s : OrderedSet)

theorem set_of_ok (h : s.policy.resolve vs = .ok l)
    (k : Except DuplicateValue Unit → Prog V P σ ε) :
    s.set vs k = .publish s.publisher (ofElements l) (k (.ok ())) :=
  resolve_of_ok h _

theorem set_of_error (h : s.policy.resolve vs = .error e)
    (k : Except DuplicateValue Unit → Prog V P σ ε) :
    s.set vs k =
      .atom (.report (.duplicateRejected e.index e.firstIndex)) fun _ => k (.error e) :=
  resolve_of_error h _

theorem modify_eq (f : Routine V P σ ε) (k : Except DuplicateValue (List T) → Prog V P σ ε) :
    s.modify f k =
      .atom (.newMemo []) fun m => .amend s.publisher (fun v => (f v).bind (s.accept m v))
        fun held => .atom (.memo m id) fun refused => k (s.answer held refused) := by
  refine congrArg (Prog.atom _) (funext fun m => ?_)
  refine congr (congrArg (Prog.amend s.publisher) (funext fun v => ?_)) (funext fun held => ?_)
  · refine congrArg (f v).bind (funext fun next => ?_)
    exact congrArg (resolve s.policy (elements next)) (funext fun r => by cases r <;> rfl)
  · exact congrArg (Prog.atom _) (funext fun refused => by cases refused <;> rfl)

theorem accept_of_ok {next : V} (h : s.policy.resolve (elements next) = .ok l) (m : MemoRef)
    (v : V) : (s.accept m v next : Prog V P σ ε) = .ret (ofElements l) :=
  resolve_of_ok h _

theorem accept_of_error {next : V} (h : s.policy.resolve (elements next) = .error e) (m : MemoRef)
    (v : V) : (s.accept m v next : Prog V P σ ε) =
      .atom (.report (.duplicateRejected e.index e.firstIndex)) fun _ =>
        .atom (.memo m fun _ => [next]) fun _ => .ret v :=
  resolve_of_error h _

end Programs

/-! ## Clients -/

section Clients

variable [HasElements V T] [BEq T] (s : OrderedSet)

/-- The uses of the publisher of a set, which are the set's own. -/
def uses : Scope := {.read s.publisher, .publish s.publisher, .amend s.publisher}

/-- The operations on a set, with the programs that are run in them and after them. -/
inductive Operation : Prog V P σ ε → Set (Prog V P σ ε) → Prop where
  | get (k : List T → Prog V P σ ε) : Operation (s.get k) (Set.range k)
  | contains (v : T) (k : Bool → Prog V P σ ε) : Operation (s.contains v k) (Set.range k)
  | set (vs : List T) (k : Except DuplicateValue Unit → Prog V P σ ε) :
      Operation (s.set vs k) (Set.range k)
  | modify (f : Routine V P σ ε) (k : Except DuplicateValue (List T) → Prog V P σ ε) :
      Operation (s.modify f k) (Set.range f ∪ Set.range k)
  | subscribe (keeps : List PublisherRef) (o : V → Act V P σ ε Unit)
      (k : SubscriptionRef → Prog V P σ ε) :
      Operation (s.subscribe keeps o k) (Set.range (fun v => (o v).thenRet v) ∪ Set.range k)

/-- The terms on which clients of a set are run: they get at its publisher through its operations
only. -/
def terms (R : Terms V P σ ε) : Terms V P σ ε := R.allowing s.Operation

/-- The contract of a set: its publisher holds lists without duplicates. Stores do not refer to the
publisher. -/
def contract (R : Terms V P σ ε) : Contract V σ where
  publisher := s.publisher
  good v := Distinct (elements v)
  safe x := ∃ S, Disjoint S s.uses ∧ R.safe S x

variable {s} {R : Terms V P σ ε} {S : Scope} {c : Prog V P σ ε} {f : Routine V P σ ε}
  {k : Except DuplicateValue (List T) → Prog V P σ ε} {E : V → Prop} {p : PublisherRef} {v : V}

omit [HasElements V T] [BEq T] in
theorem disjoint_uses (hS : Disjoint S s.uses) :
    .read s.publisher ∉ S ∧ .publish s.publisher ∉ S ∧ .amend s.publisher ∉ S :=
  have hno : ∀ u ∈ s.uses, u ∉ S := fun _ hu hmem => Set.disjoint_left.1 hS hmem hu
  ⟨hno _ (Or.inl rfl), hno _ (Or.inr (Or.inl rfl)), hno _ (Or.inr (Or.inr rfl))⟩

/-- What is allocated is nothing that a set uses already. -/
theorem disjoint_gives {a : Atom V σ ε} {x : a.Answer} (hS : Disjoint S s.uses)
    (hx : (s.contract R).Grants a x) : Disjoint (S ∪ a.gives x) s.uses := by
  refine Set.disjoint_union_left.2 ⟨hS, ?_⟩
  cases a with
  | newPublisher guard v =>
      refine Set.disjoint_left.2 ?_
      rintro u (rfl | rfl | rfl) (h | h | h) <;> cases h <;> exact hx rfl
  | newMemo vs =>
      refine Set.disjoint_left.2 ?_
      rintro u rfl (h | h | h) <;> cases h
  | newBag =>
      refine Set.disjoint_left.2 ?_
      rintro u rfl (h | h | h) <;> cases h
  | _ => exact Set.empty_disjoint _

theorem fits_of_resolve [PartialEquivBEq T] {vs l : List T}
    (hlist : ∀ l : List T, elements (ofElements l : V) = l) (h : s.policy.resolve vs = .ok l) :
    (s.contract R).Fits p (ofElements l) := fun _ => by
  show Distinct (elements (ofElements l : V))
  rw [hlist]
  exact DuplicatePolicy.distinct_of_resolve h

/-- What the set is modified by makes lists without duplicates, whatever `f` makes. -/
theorem accept_upholds [PartialEquivBEq T] (hlist : ∀ l : List T, elements (ofElements l : V) = l)
    (m : MemoRef) (next : V) (hv : (s.contract R).Fits s.publisher v) :
    (s.accept m v next : Prog V P σ ε).Upholds (s.contract R)
      ((s.contract R).Fits s.publisher) := by
  cases hres : s.policy.resolve (elements next) with
  | ok l =>
      rw [accept_of_ok s hres]
      exact fits_of_resolve hlist hres
  | error e =>
      rw [accept_of_error s hres]
      exact ⟨trivial, fun _ _ => ⟨trivial, fun _ _ => hv⟩⟩

theorem distinct_of_answer [PartialEquivBEq T] {held : V} {refused : List V} {l : List T}
    (hheld : Distinct (elements held)) (h : s.answer held refused = .ok l) : Distinct l := by
  cases refused with
  | nil =>
      cases h
      exact hheld
  | cons next rest => exact DuplicatePolicy.distinct_of_resolve h

/-- A modification, if one goes on as it should with every list without duplicates. -/
theorem modify_upholds [PartialEquivBEq T]
    (hf : ∀ m v, (s.contract R).Fits s.publisher v →
      ((f v).bind (s.accept m v)).Upholds (s.contract R) ((s.contract R).Fits s.publisher))
    (hk : ∀ r, (∀ l, r = .ok l → Distinct l) → (k r).Upholds (s.contract R) E) :
    (s.modify f k).Upholds (s.contract R) E := by
  rw [modify_eq]
  refine ⟨trivial, fun m _ => ⟨hf m, fun held hheld => ⟨trivial, fun refused _ => ?_⟩⟩⟩
  exact hk _ fun l hl => distinct_of_answer (hheld rfl) hl

/-- What a function that a set is modified by makes of the list held. -/
theorem upholds_of_modify {m : MemoRef} (h : (s.modify f k).Upholds (s.contract R) E)
    (hv : (s.contract R).Fits s.publisher v) :
    ((f v).bind (s.accept m v)).Upholds (s.contract R) ((s.contract R).Fits s.publisher) := by
  rw [modify_eq] at h
  exact (h.2 m trivial).1 v hv

/-- Clients of a set uphold its contract. -/
theorem upholds_of_within [PartialEquivBEq T]
    (hlist : ∀ l : List T, elements (ofElements l : V) = l) (h : c.Within (s.terms R) S)
    (hS : Disjoint S s.uses) : c.Upholds (s.contract R) fun _ => True := by
  induction h with
  | ret v => trivial
  | panic text => trivial
  | @own S f k hf _ ih =>
      -- a safe store is safe in the union of both scopes
      have wider : ∀ x, (s.contract R).safe x →
          ∃ S', S ⊆ S' ∧ Disjoint S' s.uses ∧ R.safe S' x := by
        rintro x ⟨S', hdisj, hx⟩
        exact ⟨S ∪ S', Set.subset_union_left, Set.disjoint_union_left.2 ⟨hS, hdisj⟩,
          R.mono Set.subset_union_right hx⟩
      constructor
      · intro x hx
        obtain ⟨S', hle, hdisj, hx'⟩ := wider x hx
        exact ⟨S', hdisj, hf S' hle x hx'⟩
      · intro x hx
        obtain ⟨S', hle, hdisj, hx'⟩ := wider x hx
        exact ih S' hle x hx' hdisj
  | @atom S a k hown hneeds _ ih =>
      refine ⟨?_, fun x hx => ih x (disjoint_gives hS hx)⟩
      cases a with
      | own f => exact absurd rfl (hown f)
      | _ => trivial
  | call _ ih => exact fun v => ih v hS
  | attempt _ _ ihc ihk => exact ⟨ihc hS, fun r => ihk r hS⟩
  | hold _ _ ihc ihk => exact ⟨ihc hS, fun v => ihk v hS⟩
  | retry _ _ ihf ihk => exact ⟨fun v => ihf v hS, fun v => ihk v hS⟩
  | publish hp _ ih =>
      obtain ⟨-, hpublish, -⟩ := disjoint_uses hS
      refine ⟨?_, ih hS⟩
      rintro rfl
      exact absurd hp hpublish
  | amend hp _ _ ihf ihk =>
      obtain ⟨-, -, hamend⟩ := disjoint_uses hS
      refine ⟨fun v _ => (ihf v hS).imp ?_, fun v _ => ihk v hS⟩
      rintro u - rfl
      exact absurd hp hamend
  | attach hp _ _ iho ihk => exact ⟨fun v _ => iho v hS, fun r => ihk r hS⟩
  | onDispose _ _ ihc ihk => exact ⟨ihc hS, fun r => ihk r hS⟩
  | dispose _ ih => exact ih hS
  | @special S c K h _ ih =>
      have hop : s.Operation c K := h
      cases hop with
      | get k => exact ⟨trivial, fun v _ => ih _ ⟨_, rfl⟩ hS⟩
      | contains v k => exact ⟨trivial, fun v _ => ih _ ⟨_, rfl⟩ hS⟩
      | set vs k =>
          cases hres : s.policy.resolve vs with
          | ok l =>
              rw [set_of_ok s hres]
              exact ⟨fits_of_resolve hlist hres, ih _ ⟨_, rfl⟩ hS⟩
          | error e =>
              rw [set_of_error s hres]
              exact ⟨trivial, fun _ _ => ih _ ⟨_, rfl⟩ hS⟩
      | modify f k =>
          refine modify_upholds (fun m v hv => ?_) fun r _ => ih _ (Or.inr ⟨r, rfl⟩) hS
          exact Prog.Upholds.bind (ih _ (Or.inl ⟨v, rfl⟩) hS) fun next _ =>
            accept_upholds hlist m next hv
      | subscribe keeps o k =>
          exact ⟨fun v _ => ih _ (Or.inl ⟨v, rfl⟩) hS, fun r => ih _ (Or.inr ⟨r, rfl⟩) hS⟩

end Clients

/-! ## A set that was just made -/

section Made

variable [HasElements V T] [BEq T] {s : OrderedSet} {policy : DuplicatePolicy} {vs : List T}
  {w : World V P σ ε} {R : Terms V P σ ε}

/-- Whether a set was just made, from a list that its policy accepts. -/
def Made (s : OrderedSet) (w : World V P σ ε) : Prop :=
  ∃ vs l : List T, s.policy.resolve vs = .ok l ∧
    w.publisher? s.publisher = some (.new none (ofElements l))

/-- A set is made of every list that its policy accepts. -/
theorem made_ofList [BEq V] {body : P → Prog V P σ ε} {l : List T} (h : policy.resolve vs = .ok l)
    (k : Except DuplicateValue OrderedSet → Prog V P σ ε) (st : List (Frame V P σ ε)) :
    let s : OrderedSet := ⟨⟨w.publishers.size⟩, policy⟩
    let w' : World V P σ ε := { w with publishers := w.publishers.alloc (.new none (ofElements l)) }
    CalmRun body w ⟨.run (OrderedSet.ofList policy vs k), st⟩ [] w' ⟨.run (k (.ok s)), st⟩ ∧
      s.Made w' := by
  intro s w'
  have hofList : OrderedSet.ofList policy vs k =
      .atom (.newPublisher none (ofElements l)) fun p => k (.ok ⟨p, policy⟩) := resolve_of_ok h _
  have hm : Thread.Moves body w ⟨.run (.atom (.newPublisher none (ofElements l)) fun p =>
      k (.ok ⟨p, policy⟩)), st⟩ [] w' ⟨.run (k (.ok s)), st⟩ := .performed rfl
  rw [hofList]
  exact ⟨.single hm.step trivial, vs, l, h, Heap.get?_alloc_self _ _⟩

/-- Where nobody refers to a set that was just made but its clients, its contract is upheld. -/
theorem Made.upholds [PartialEquivBEq T] (h : s.Made w)
    (hlist : ∀ l : List T, elements (ofElements l : V) = l)
    (hw : w.Within (s.terms R) (fun _ _ => False) s.uses) : w.Upholds (s.contract R) := by
  obtain ⟨vs, l, hres, hmade⟩ := h
  have hdisj : Disjoint (w.scope s.uses) s.uses := Set.disjoint_left.2 fun _ hu => hu.2
  refine ⟨⟨_, hdisj, hw.store⟩, (List.getElem?_eq_some_iff.1 hmade).1, ?_, ?_⟩
  · intro q r hr
    have hfits : ∀ v ∈ r.current :: r.timeline, (s.contract R).Fits q v := by
      rintro v hv rfl
      obtain rfl := Option.some.inj (hmade.symm.trans hr)
      have hval : v = ofElements l := by simpa [Publisher.new, Publisher.timeline] using hv
      exact hval ▸ fits_of_resolve hlist hres rfl
    obtain ⟨hcurrent, htimeline⟩ := List.forall_mem_cons.1 hfits
    refine ⟨hcurrent, htimeline, fun o ho v _ => ?_⟩
    exact upholds_of_within hlist ((hw.observers q r hr o ho).elim (· v) False.elim) hdisj
  · exact fun i c hc => upholds_of_within hlist (hw.teardowns i c hc) hdisj

end Made

end OrderedSet

end ReactiveCells
