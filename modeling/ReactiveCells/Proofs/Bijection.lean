import ReactiveCells.Proofs.Lockstep

/-!
# Bijection — a view with inverse conversions is a container of its root's kind

A view reads by converting what its root holds and writes by reverting, and it stores nothing. If
the two conversions are inverse to each other, no task can tell the view from a container of the
same kind that was made with the converted value: whatever it writes, modifies, exchanges or
compares, and whatever its observers and its functions do to the view in between, it comes to the
same value, leaves the same store and the same notes, and calls as many observers.

All containers of a world have values of one type. Conversions between two types are conversions of
their sum (`crossing`).

Main statement: `view_like_container`.
-/

namespace ReactiveCells

variable {V P σ ε : Type} [BEq V]

/-- Whether the root of a view holds `v` and has no observers, having given out `n` stamps or numbers,
and its twin was just made and holds `u`. -/
inductive Twins.Made (v u : V) (n : Nat) (w w' : World V P σ ε) : Twins → Prop where
  | cells {c c' : CellRef} : w.cell? c = some ⟨v, n⟩ → w'.cell? c' = some (.new u) →
      Made v u n w w' (.cells c c')
  | publishers {p p' : PublisherRef} {guard guard' : Option LockId} :
      guard.isSome = guard'.isSome →
      w.publisher? p = some { Publisher.new guard v with nextId := n } →
      w'.publisher? p' = some (.new guard' u) → Made v u n w w' (.publishers p p')

variable {forth back : V → V} {m : Twins} {n : Nat} {w w' : World V P σ ε}

omit [BEq V] in
theorem Publisher.monitors_length {O O' : Type} {s : Publisher V O} {s' : Publisher V O'}
    (h : s.guard.isSome = s'.guard.isSome) : s.monitors.length = s'.monitors.length := by
  rw [Publisher.monitors, Publisher.monitors, List.length_map, List.length_map,
    Option.length_toList, Option.length_toList, h]

omit [BEq V] in
/-- Nobody has subscribed to a publisher that was just made, so no gates are laid. -/
theorem gated_new (guard : Option LockId) (u : V) (f : Focus V P σ ε) (w : World V P σ ε) :
    Gated [] ⟨.new guard u, [], f⟩ w :=
  ⟨List.nodup_nil, rfl, nofun, List.isChain_singleton _, nofun, nofun, nofun⟩

/-- Both are side by side at the start. -/
theorem Twin.start {v u : V} {c c' : Prog V P σ ε} (hmade : m.Made v u n w w') (hv : v = back u)
    (hstore : w.store = w'.store) (hc : Alike forth back m Eq c c') :
    Twin forth back m n w (.start c) w' (.start c') := by
  refine ⟨hstore, [], .run hc .nil, ?_⟩
  cases hmade with
  | cells hroot htwin => exact .cells rfl hroot htwin hv (Nat.zero_add n).symm
  | @publishers p p' guard guard' hguard hroot htwin =>
      -- the root may have given out numbers before, but nobody has them any more
      refine .publishers rfl hroot (regular_new htwin (Thread.settled_start p' c')) ?_ ?_
      · exact ⟨Publisher.monitors_length hguard, hv, hv, rfl, (Nat.zero_add n).symm, .nil, .nil⟩
      · exact gated_new guard' u _ w

/-- What programs noted on the way. -/
def noted (es : List (Event V ε)) : List ε :=
  es.filterMap fun
    | .note e => some e
    | _ => none

omit [BEq V] in
/-- Notes are the same on both sides. -/
theorem Twins.noted_across (m : Twins) (n : Nat) (es : List (Event V ε)) :
    noted (es.map (m.across back n)) = noted es := by
  rw [noted, noted, List.filterMap_map]
  refine List.filterMap_congr fun e _ => ?_
  cases m with
  | cells => rfl
  | publishers p p' =>
      cases e with
      | message msg => cases msg <;> rfl
      | _ => rfl

/-- A view with inverse conversions is a container of its root's kind. A task comes to a value on
the view if and only if it comes to the same value on the other container. It leaves the same store
and the same notes, and the same happens on the way: what one commits and hands to its observers is
what the other does, converted. -/
theorem view_like_container [LawfulBEq V] (body : P → Prog V P σ ε) {kind : Kind}
    (hforth : ∀ v, forth (back v) = v) (hback : ∀ v, back (forth v) = v)
    {root twin : Node (Routine V P σ ε) kind} (hnodes : m.Nodes root twin) {v : V}
    (hmade : m.Made v (forth v) n w w') (hstore : w.store = w'.store) (t : Task V σ ε kind)
    (es : List (Event V ε)) (u : V) (store : σ) :
    (t.on (root.pureView forth back)).Yields body w es u store ↔
      ∃ es', (t.on twin).Yields body w' es' u store ∧ es = es'.map (m.across back n) ∧
        noted es = noted es' := by
  have htwin : Twin forth back m n w (.start (t.on (root.pureView forth back))) w'
      (.start (t.on twin)) :=
    .start hmade (hback v).symm hstore (t.alike hforth hnodes)
  rw [htwin.yields_iff hforth]
  constructor
  · rintro ⟨es', rfl, hyields⟩
    exact ⟨es', hyields, rfl, m.noted_across n es'⟩
  · rintro ⟨es', hyields, he, -⟩
    exact ⟨es', he, hyields⟩

/-! ## Values of two types -/

section Crossing

variable {T U : Type}

/-- Conversions between two types, as one conversion of the values of both. -/
def crossing (there : T → U) (back : U → T) : T ⊕ U → T ⊕ U :=
  Sum.elim (.inr ∘ there) (.inl ∘ back)

theorem crossing_crossing {there : T → U} {back : U → T} (h : ∀ t, back (there t) = t)
    (h' : ∀ u, there (back u) = u) (x : T ⊕ U) :
    crossing there back (crossing there back x) = x := by
  cases x with
  | inl t => exact congrArg Sum.inl (h t)
  | inr u => exact congrArg Sum.inr (h' u)

instance lawfulBEqSum [BEq T] [BEq U] [LawfulBEq T] [LawfulBEq U] : LawfulBEq (T ⊕ U) where
  eq_of_beq {x y} h := by
    cases x with
    | inl t => cases y with
      | inl t' => exact congrArg Sum.inl (eq_of_beq h)
      | inr u => exact nomatch h
    | inr u => cases y with
      | inl t => exact nomatch h
      | inr u' => exact congrArg Sum.inr (eq_of_beq h)
  rfl {x} := by
    cases x with
    | inl t => exact beq_self_eq_true t
    | inr u => exact beq_self_eq_true u

end Crossing

/-- The values of flags and of bits. -/
abbrev Datum := Bool ⊕ Fin 2

/-- A task on bits whose observer notes every value and answers a 0 with a 1, and which modifies by
a function that writes a 0 and notes what it reads then. -/
def busybody : Task Datum Unit Datum .reactive :=
  .subscribe rfl (fun v => .tell v (if v = .inr 0 then .set (.inr 1) (.ret v) else .ret v))
    (.modify (fun _ => .set (.inr 0) (.get fun v => .tell v (.ret v))) .ret)

/-- The bits of a view on a flag that has given out three numbers before. The observer is called
with 1, 0 and again 1 before the function goes on. -/
theorem view_like_container_flag :
    let conv : Datum → Datum := crossing (fun b => if b then 1 else 0) (· == 1)
    let view : Node (Routine Datum Empty Unit Datum) .reactive :=
      (Node.rxGuarded ⟨0, 1⟩ ⟨0⟩).pureView conv conv
    (∀ v, conv (conv v) = v) ∧ ∃ w es, (busybody.on view).Yields nofun w es (.inr 1) () ∧
      noted es = [.inr 1, .inr 0, .inr 1, .inr 1] := by
  intro conv view
  have hconv : ∀ v, conv (conv v) = v := crossing_crossing (by decide) (by decide)
  let w₀ : World Datum Empty Unit Datum := World.new ()
  let root : Publisher Datum (Observer Datum Empty Unit Datum) :=
    { Publisher.new (some ⟨0, 1⟩) (.inl true) with nextId := 3 }
  let w : World Datum Empty Unit Datum := { w₀ with publishers := .alloc .empty root }
  let w' : World Datum Empty Unit Datum :=
    { w₀ with publishers := .alloc .empty (.new (some ⟨0, 1⟩) (.inr 1)) }
  have hmade : (Twins.publishers ⟨0⟩ ⟨0⟩).Made (.inl true) (conv (.inl true)) 3 w w' :=
    .publishers rfl rfl rfl
  obtain ⟨es', hyields, hnoted⟩ : ∃ es', (busybody.on (.rxGuarded ⟨0, 1⟩ ⟨0⟩)).Yields nofun w' es'
      (.inr 1) () ∧ noted es' = [.inr 1, .inr 0, .inr 1, .inr 1] :=
    ⟨_, ⟨_, .of_advance (n := 35) rfl, rfl⟩, rfl⟩
  have hsame : noted (es'.map ((Twins.publishers ⟨0⟩ ⟨0⟩).across conv 3)) = noted es' :=
    Twins.noted_across _ _ _
  refine ⟨hconv, w, _, (view_like_container nofun hconv hconv
    (.rxGuarded ⟨0, 1⟩ ⟨0, 1⟩ ⟨0⟩ ⟨0⟩) hmade rfl busybody _ _ _).2 ⟨es', hyields, rfl, hsame⟩, ?_⟩
  exact hsame.trans hnoted

end ReactiveCells
