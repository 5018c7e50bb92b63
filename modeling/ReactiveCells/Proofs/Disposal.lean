import ReactiveCells.Proofs.Handles

/-!
# Disposal — what an observer may still receive

A subscription that is disposed takes its observer out of the publisher, registered or queued. The
calls that are due already are not taken back: a drain that is in the middle of a round works
through the observers that were registered when the round began. So whoever is disposed before its
turn in a round is called once more, with the value of that round, and nobody else is.

A program that disposes runs in the middle of an observer, if a drain is in progress at all. While a
registration is replayed that is the observer of the replay, which has been called already. So what
is still due then is the rest of a round (`Serving`).

Main statements: `Serving.move` (the calls due are the rest of a round), `View.Move.handed` (who is
removed receives what was due and nothing else) and `disposal_bound`.
-/

namespace ReactiveCells

variable {V P σ ε : Type}

/-! ## What a disposal takes -/

/-- Whether a publisher has lost one observer or its registration, and nothing else. -/
inductive Publisher.Loses {O : Type} (id : Nat) (s : Publisher V O) : Publisher V O → Prop where
  | registered {r : Registration O} {l₁ l₂ : List (Registration O)} : r.id = id →
      s.observers = l₁ ++ r :: l₂ → Loses id s { s with observers := l₁ ++ l₂ }
  | queued {r : Registration O} {l₁ l₂ : List (Pending V O)} : r.id = id →
      s.pending = l₁ ++ .attach r :: l₂ → Loses id s { s with pending := l₁ ++ l₂ }
  | absent : id ∉ s.ids → Loses id s s

section Loses

variable {O : Type} {s : Publisher V O} {id : Nat}

theorem filter_observers {l : List (Registration O)} (h : id ∉ l.map (·.id)) :
    l.filter (·.id != id) = l :=
  List.filter_eq_self.2 fun _ hr => bne_iff_ne.2 fun e => h (List.mem_map.2 ⟨_, hr, e⟩)

theorem filter_pending {l : List (Pending V O)} (h : id ∉ Pending.numbers l) :
    l.filter (·.id? != some id) = l :=
  List.filter_eq_self.2 fun _ ha => bne_iff_ne.2 fun e => h (List.mem_filterMap.2 ⟨_, ha, e⟩)

theorem Pending.eq_attach {a : Pending V O} (h : a.id? = some id) : ∃ r, a = .attach r ∧ r.id = id := by
  cases a with
  | emit v => exact nomatch h
  | attach r => exact ⟨r, rfl, Option.some.inj h⟩

/-- No number is given out twice, so a disposal takes one observer at most. -/
theorem Publisher.loses_detach (h : s.ids.Nodup) (id : Nat) : s.Loses id (s.detach id) := by
  obtain ⟨hpresent, hwaiting, hapart⟩ : s.present.Nodup ∧ s.waiting.Nodup ∧
      ∀ a ∈ s.present, ∀ b ∈ s.waiting, a ≠ b := List.nodup_append.1 h
  by_cases hp : id ∈ s.present
  · obtain ⟨r, hr, rfl⟩ := List.mem_map.1 hp
    obtain ⟨l₁, l₂, hsplit⟩ := List.append_of_mem hr
    have hq : r.id ∉ s.waiting := fun hw => hapart _ hp _ hw rfl
    have hsides : r.id ∉ (l₁ ++ l₂).map (·.id) := by
      rw [Publisher.present, hsplit, List.map_append, List.map_cons] at hpresent
      rw [List.map_append]
      exact (List.nodup_cons.1 (List.perm_middle.nodup_iff.1 hpresent)).1
    have hobservers : s.observers.filter (·.id != r.id) = l₁ ++ l₂ := by
      rw [hsplit, List.filter_append, List.filter_cons_of_neg (by simp), ← List.filter_append]
      exact filter_observers hsides
    rw [Publisher.detach, hobservers, filter_pending hq]
    exact .registered rfl hsplit
  · rw [Publisher.detach, filter_observers hp]
    by_cases hq : id ∈ s.waiting
    · obtain ⟨a, ha, hid⟩ := List.mem_filterMap.1 hq
      obtain ⟨r, rfl, rfl⟩ := Pending.eq_attach hid
      obtain ⟨l₁, l₂, hsplit⟩ := List.append_of_mem ha
      have hsides : r.id ∉ Pending.numbers (l₁ ++ l₂) := by
        rw [Publisher.waiting, hsplit, Pending.numbers, List.filterMap_append,
          List.filterMap_cons] at hwaiting
        rw [Pending.numbers, List.filterMap_append]
        exact (List.nodup_cons.1 (List.perm_middle.nodup_iff.1 hwaiting)).1
      have hpending : s.pending.filter (·.id? != some r.id) = l₁ ++ l₂ := by
        rw [hsplit, List.filter_append, List.filter_cons_of_neg (by simp [Pending.id?]),
          ← List.filter_append]
        exact filter_pending hsides
      rw [hpending]
      exact .queued rfl hsplit
    · rw [filter_pending hq]
      exact .absent fun hid => (List.mem_append.1 hid).elim hp hq

theorem Publisher.notMem_ids_detach (s : Publisher V O) (id : Nat) : id ∉ (s.detach id).ids := by
  rw [Publisher.ids_eq, Publisher.present_detach, Publisher.waiting_detach, ← List.filter_append]
  exact fun h => absurd (List.mem_filter.1 h).2 (by simp)

end Loses

/-! ## Who is gone stays away -/

section Gone

variable [BEq V] {p : PublisherRef} {x x' : View V P σ ε} {l : List (Signal V)} {id : Nat}

/-- A number that was given out and taken back is not given out again. -/
theorem View.Move.gone (hm : View.Move p x l x') (hlt : id < x.state.nextId)
    (hno : id ∉ x.state.ids) : id < x'.state.nextId ∧ id ∉ x'.state.ids := by
  cases hm with
  | other | busy | call | finish => exact ⟨hlt, hno⟩
  | start hb =>
      obtain ⟨-, rfl⟩ := Publisher.beginDrain_eq_some hb
      exact ⟨hlt, hno⟩
  | commit hf hc =>
      obtain ⟨hw, hp, hn⟩ := Publisher.numbers_commit hc
      rw [Publisher.ids_eq, hw, hp, hn]
      exact ⟨hlt, hno⟩
  | @enqueue s due f o hf =>
      refine ⟨Nat.lt_succ_of_lt hlt, fun hid => ?_⟩
      rw [Publisher.ids_enqueue, List.mem_append, List.mem_singleton] at hid
      exact hid.elim hno (Nat.ne_of_lt hlt)
  | pop hp =>
      rw [Publisher.ids_pop hp]
      rcases Publisher.pop_cases hp with ⟨u, rest, -, -, rfl⟩ | ⟨r, rest, -, -, rfl⟩ <;>
        exact ⟨hlt, hno⟩
  | @detach s due f f' i hf hf' =>
      refine ⟨hlt, fun hid => hno ?_⟩
      rw [Publisher.ids_eq, Publisher.present_detach, Publisher.waiting_detach,
        ← List.filter_append] at hid
      exact (List.mem_filter.1 hid).1
  | abandon => exact ⟨hlt, fun hid => hno ((List.mem_append.1 hid).elim (List.mem_append_left _) nofun)⟩

/-! ## What is handed out -/

/-- The calls due come one after another, or all at once when a drain takes an entry; a panic that
ends the drain takes them away. -/
theorem View.Move.calls_cases (hm : View.Move p x l x') (hs : View.Single x) :
    (x'.calls = x.calls ∧ ∀ id, received id l = []) ∨
    (∃ c, x.calls = c :: x'.calls ∧ l = [.called c.id c.value]) ∨
    (x.calls = [] ∧ l = [] ∧ ∃ d, x.state.pop = some (d, x'.state) ∧ x'.calls = d.calls) ∨
    (x'.calls = [] ∧ l = []) := by
  cases hm with
  | other | commit | enqueue | start | busy | detach => exact Or.inl ⟨rfl, fun _ => rfl⟩
  | @call s c calls due v => exact Or.inr (Or.inl ⟨c, rfl, rfl⟩)
  | @pop s d s' due v hp =>
      obtain ⟨-, rfl⟩ := hs.only rfl
      exact Or.inr (Or.inr (Or.inl ⟨rfl, rfl, d, hp, List.append_nil _⟩))
  | finish | abandon =>
      obtain ⟨-, rfl⟩ := hs.only rfl
      exact Or.inr (Or.inr (Or.inr ⟨rfl, rfl⟩))

omit [BEq V] in
theorem received_called (id : Nat) (c : Call V (Observer V P σ ε)) :
    received id [.called c.id c.value] = handed id [c] := by
  by_cases h : c.id = id <;> simp [received, Signal.handedTo?, handed, h]

omit [BEq V] in
/-- What an entry makes due is for observers that are registered or queued. -/
theorem handed_of_pop {O : Type} {s s' : Publisher V O} {d : Delivery V O}
    (h : s.pop = some (d, s')) (hno : id ∉ s.ids) : handed id d.calls = [] := by
  refine handed_of_notMem fun hid => hno ?_
  rcases Publisher.pop_cases h with ⟨v, rest, hq, rfl, -⟩ | ⟨r, rest, hq, rfl, -⟩
  · have hround : id ∈ (s.round v).map (·.id) := hid
    rw [Publisher.map_id_round] at hround
    exact List.mem_append_left _ hround
  · obtain rfl := List.mem_singleton.1 hid
    refine List.mem_append_right _ ?_
    show r.id ∈ s.waiting
    rw [Publisher.waiting_of_attach hq]
    exact List.mem_cons_self

/-- Who is neither registered nor queued receives what is due and nothing else. -/
theorem View.Move.handed (hm : View.Move p x l x') (hs : View.Single x) (hno : id ∉ x.state.ids) :
    received id l ++ ReactiveCells.handed id x'.calls <+: ReactiveCells.handed id x.calls := by
  -- what was due is still due, has just been handed over, or is lost
  rcases hm.calls_cases hs with ⟨hc, hl⟩ | ⟨c, hc, rfl⟩ | ⟨hnone, rfl, d, hp, hc⟩ | ⟨hnone, rfl⟩
  · rw [hl, hc]
    exact List.prefix_rfl
  · rw [hc, received_called, ← handed_append]
    exact List.prefix_rfl
  · rw [hc, handed_of_pop hp hno]
    exact List.nil_prefix
  · rw [hnone]
    exact List.nil_prefix

/-! ## Who has heard nothing yet -/

/-- Whether observers that wait in the queue, and those that have not subscribed, have received
nothing and are due nothing. -/
def View.Unheard (ls : List (Signal V)) (x : View V P σ ε) : Prop :=
  ∀ id, id ∈ x.state.waiting ∨ x.state.nextId ≤ id →
    received id ls = [] ∧ ReactiveCells.handed id x.calls = []

omit [BEq V] in
theorem View.Unheard.same {ls : List (Signal V)} (h : View.Unheard ls x)
    (hw : ∀ id ∈ x'.state.waiting, id ∈ x.state.waiting ∨ x.state.nextId ≤ id)
    (hn : x.state.nextId ≤ x'.state.nextId) (hc : x'.calls = x.calls)
    (hl : ∀ id, received id l = []) : View.Unheard (ls ++ l) x' := by
  intro id hid
  obtain ⟨hreceived, hhanded⟩ := h id (hid.elim (hw id) fun hle => Or.inr (Nat.le_trans hn hle))
  rw [received_append, hreceived, hl, hc]
  exact ⟨rfl, hhanded⟩

omit [BEq V] in
/-- What an entry makes due is for observers that subscribed before all that are queued after it. -/
theorem Publisher.ids_lt_of_pop {O : Type} {s s' : Publisher V O} {d : Delivery V O}
    (h : s.pop = some (d, s'))
    (hl : (s.present ++ s.waiting ++ [s.nextId]).Pairwise (· < ·)) :
    (∀ id ∈ s'.waiting, id ∈ s.waiting) ∧ s'.nextId = s.nextId ∧
      ∀ c ∈ d.calls, ∀ id, id ∈ s'.waiting ∨ s'.nextId ≤ id → c.id < id := by
  obtain ⟨hfirst, -, hnext⟩ := List.pairwise_append.1 hl
  obtain ⟨-, hwaiting, hapart⟩ := List.pairwise_append.1 hfirst
  have below : ∀ i ∈ s.present ++ s.waiting, ∀ id, s.nextId ≤ id → i < id := fun i hi id hle =>
    Nat.lt_of_lt_of_le (hnext i hi _ (List.mem_singleton_self _)) hle
  rcases Publisher.pop_cases h with ⟨v, rest, hq, rfl, rfl⟩ | ⟨r, rest, hq, rfl, rfl⟩
  · have hw := Publisher.waiting_of_emit hq
    refine ⟨fun id hid => hw ▸ hid, rfl, fun c hc id hid => ?_⟩
    have hp : c.id ∈ s.present := by
      rw [← Publisher.map_id_round s v]
      exact List.mem_map_of_mem hc
    rcases hid with hid | hle
    · exact hapart _ hp _ (hw ▸ hid)
    · exact below _ (List.mem_append_left _ hp) _ hle
  · have hw := Publisher.waiting_of_attach hq
    rw [hw] at hwaiting below
    refine ⟨fun id hid => hw ▸ List.mem_cons_of_mem _ hid, rfl, fun c hc id hid => ?_⟩
    obtain rfl := List.mem_singleton.1 hc
    rcases hid with hid | hle
    · exact (List.pairwise_cons.1 hwaiting).1 _ hid
    · exact below _ (List.mem_append_right _ List.mem_cons_self) _ hle

theorem View.Unheard.move {ls : List (Signal V)} (h : View.Unheard ls x) (hl : View.Lined x)
    (hs : View.Single x) (hm : View.Move p x l x') : View.Unheard (ls ++ l) x' := by
  cases hm with
  | other | busy => exact h.same (fun _ => Or.inl) (Nat.le_refl _) rfl fun _ => rfl
  | start hb =>
      obtain ⟨-, rfl⟩ := Publisher.beginDrain_eq_some hb
      exact h.same (fun _ => Or.inl) (Nat.le_refl _) rfl fun _ => rfl
  | finish => exact h.same (fun _ => Or.inl) (Nat.le_refl _) rfl fun _ => rfl
  | commit hf hc =>
      obtain ⟨hw, -, hn⟩ := Publisher.numbers_commit hc
      refine h.same (fun id hid => Or.inl ?_) (Nat.le_of_eq hn.symm) rfl fun _ => rfl
      exact hw ▸ hid
  | @enqueue s due f o hf =>
      refine h.same (fun id hid => ?_) (Nat.le_succ _) rfl fun _ => rfl
      have hid' : id ∈ (s.enqueue o).waiting := hid
      rw [Publisher.waiting_enqueue] at hid'
      refine (List.mem_append.1 hid').imp_right fun he => ?_
      exact Nat.le_of_eq (List.mem_singleton.1 he).symm
  | @detach s due f f' i hf hf' =>
      refine h.same (fun id hid => Or.inl ?_) (Nat.le_refl _) rfl fun _ => rfl
      have hid' : id ∈ (s.detach i).waiting := hid
      rw [Publisher.waiting_detach] at hid'
      exact (List.mem_filter.1 hid').1
  | @call s c calls due v =>
      intro id hid
      obtain ⟨hreceived, hhanded⟩ := h id hid
      have hsplit : ReactiveCells.handed id [c] ++ ReactiveCells.handed id (calls ++ due.flatten) =
          [] := (handed_append id [c] _).symm.trans hhanded
      obtain ⟨hone, hrest⟩ := List.append_eq_nil_iff.1 hsplit
      rw [received_append, hreceived, received_called, hone]
      exact ⟨rfl, hrest⟩
  | @pop s d s' due v hp =>
      obtain ⟨-, rfl⟩ := hs.only rfl
      intro id hid
      obtain ⟨hw, hn, hbefore⟩ := Publisher.ids_lt_of_pop hp hl
      obtain ⟨hreceived, -⟩ := h id (hid.imp (hw id) fun hle => hn ▸ hle)
      refine ⟨?_, handed_of_notMem fun hcall => ?_⟩
      · rw [received_append, hreceived]
        rfl
      · obtain ⟨c, hc, rfl⟩ := List.mem_map.1 hcall
        rw [View.calls, List.flatten_singleton] at hc
        exact Nat.lt_irrefl _ (hbefore c hc _ hid)
  | @abandon s calls due text =>
      obtain ⟨-, rfl⟩ := hs.only rfl
      intro id hid
      refine ⟨?_, rfl⟩
      rw [received_append, (h id (hid.elim nofun Or.inr)).1]
      rfl

end Gone

/-! ## Rounds -/

/-- Whether a drain of a publisher is about to take the next entry from the queue, or to find that
there is none. -/
def Thread.Turns (p : PublisherRef) : Thread V P σ ε → Prop
  | ⟨.run (.ret _), .deliver q [] :: _⟩ => q = p
  | _ => False

theorem Thread.turns_iff {p : PublisherRef} {t : Thread V P σ ε} :
    t.Turns p ↔ ∃ u st, t = ⟨.run (.ret u), .deliver p [] :: st⟩ := by
  constructor
  · intro h
    unfold Thread.Turns at h
    split at h
    · subst h
      exact ⟨_, _, rfl⟩
    · exact h.elim
  · rintro ⟨u, st, rfl⟩
    exact rfl

/-- Whether a round of a publisher began with a change `v` when the publisher was in a state `s`, and
has gone on in all moves made `since`. -/
structure Round (p : PublisherRef) (v : V) (s : Publisher V (Observer V P σ ε))
    (since past : List (Moment V P σ ε)) : Prop where
  begun : ∃ m before rest, past = since ++ m :: before ∧ m.thread.Turns p ∧
    m.world.publisher? p = some s ∧ s.pending = .emit v :: rest
  lasting : ∀ m ∈ since, ¬ m.thread.Turns p ∧ ¬ m.thread.Breaks p

/-- Whether a round with a change `v` is under way that began when an observer was registered, and in
which the observer has not been called yet. -/
def Underway (p : PublisherRef) (id : Nat) (v : V) (past : List (Moment V P σ ε)) : Prop :=
  ∃ s since, Round p v s since past ∧ id ∈ s.present ∧ received id (signals p (told since)) = []

/-- What the calls due are: the rest of a round, or the replay of a registration, which is about to
be made. -/
inductive Serving (p : PublisherRef) (past : List (Moment V P σ ε)) (t : Thread V P σ ε) :
    List (Call V (Observer V P σ ε)) → Prop where
  | idle : Serving p past t []
  | round {v : V} {s : Publisher V (Observer V P σ ε)} {since : List (Moment V P σ ε)}
      {made calls : List (Call V (Observer V P σ ε))} :
      Round p v s since past → s.present.Nodup → s.round v = made ++ calls →
      (∀ id, received id (signals p (told since)) = handed id made) → Serving p past t calls
  | replay {c : Call V (Observer V P σ ε)} {u : V} {st : List (Frame V P σ ε)} :
      t = ⟨.run (.ret u), .deliver p [c] :: st⟩ → Serving p past t [c]

section Serving

variable {p : PublisherRef} {id : Nat} {past : List (Moment V P σ ε)} {w w' : World V P σ ε}
  {t t' : Thread V P σ ε} {es : List (Event V ε)} {s s' : Publisher V (Observer V P σ ε)}
  {calls : List (Call V (Observer V P σ ε))}

/-- A call that is due while a program runs is of a round in which it has not been made. -/
theorem Serving.underway (h : Serving p past t calls) (ht : ∀ u, t.focus ≠ .run (.ret u))
    (hid : handed id calls ≠ []) : ∃ v, handed id calls = [v] ∧ Underway p id v past := by
  cases h with
  | idle => exact absurd rfl hid
  | @round v s since made _ hround hnodup hall hmade =>
      -- a round has one call for everybody registered, made already or due
      have hsplit : handed id (s.round v) = handed id made ++ handed id calls := by
        rw [hall, handed_append]
      have hp : id ∈ s.present := by
        refine Decidable.byContradiction fun hno => hid ?_
        rw [handed_of_notMem ((Publisher.map_id_round s v).symm ▸ hno)] at hsplit
        exact (List.append_eq_nil_iff.1 hsplit.symm).2
      rw [handed_round hnodup v hp] at hsplit
      rcases List.append_eq_singleton_iff.1 hsplit.symm with ⟨hnone, hone⟩ | ⟨-, hnone⟩
      · exact ⟨v, hone, s, since, hround, hp, (hmade id).trans hnone⟩
      · exact absurd hnone hid
  | replay ht' => exact absurd (congrArg Thread.focus ht') (ht _)

variable [BEq V] {body : P → Prog V P σ ε}

/-- Nothing becomes due but by a drain that takes an entry. -/
theorem Thread.Moves.due_subset (hm : Thread.Moves body w t es w' t') (hno : ¬ t.Turns p) :
    ∀ c ∈ (t'.due p).flatten, c ∈ (t.due p).flatten := by
  have below : ∀ {f : Focus V P σ ε} (fr : Frame V P σ ε) {st : List (Frame V P σ ε)},
      ∀ c ∈ (due p ⟨f, st⟩).flatten, c ∈ (due p ⟨f, fr :: st⟩).flatten := by
    intro f fr st c hc
    cases hcalls : fr.calls? p with
    | none => exact (due_cons_of_calls? hcalls f st).symm ▸ hc
    | some calls =>
        rw [Frame.eq_deliver_of_calls? hcalls, due_cons_deliver_self]
        exact List.mem_append_right _ hc
  cases hm with
  | resumed | unharmed | left | drained | observed | amendedSame | amended | registered | swapped
  | caught | expelled | abandoned | passed => exact below _
  | contended | busy | panicked | performed | entered | attempted | held | retried | prepared
  | disposedAgain | tornDown | detached => exact fun _ => id
  | @called u q c calls st =>
      intro c' hc'
      by_cases hq : q = p
      · subst hq
        rw [due_cons_of_calls? rfl, due_cons_deliver_self] at hc'
        rw [due_cons_deliver_self]
        exact List.mem_cons_of_mem _ hc'
      · rw [due_cons_of_calls? rfl, due_cons_deliver_ne hq] at hc'
        rw [due_cons_deliver_ne hq]
        exact hc'
  | @popped u q s d s' st hq hp =>
      have hne : q ≠ p := hno
      intro c hc
      rw [due_cons_deliver_ne hne] at hc ⊢
      exact hc
  | @draining q s s' st hq hb =>
      intro c hc
      by_cases hqp : q = p
      · subst hqp
        rw [due_cons_deliver_self] at hc
        exact hc
      · rw [due_cons_deliver_ne hqp] at hc
        exact hc
  | publishedSame | published | attached =>
      intro c hc
      rw [due_leaving, due_cons_of_calls? rfl] at hc
      exact hc
  | amending =>
      intro c hc
      rw [List.cons_append, due_cons_of_calls? rfl, due_leaving, due_cons_of_calls? rfl] at hc
      exact hc

omit [BEq V] in
/-- Nothing is due below a drain. -/
theorem Intact.due_below {f : Focus V P σ ε} {st : List (Frame V P σ ε)}
    (h : Intact p s w ⟨f, .deliver p calls :: st⟩) (f' : Focus V P σ ε) :
    Thread.due p ⟨f', st⟩ = [] :=
  (h.orderly.only (Thread.due_cons_deliver_self f calls st)).2

/-- A panic that ends a drain leaves nothing due. -/
theorem Intact.due_of_breaks (hint : Intact p s w t) (hbreaks : t.Breaks p)
    (hm : Thread.Moves body w t es w' t') : t'.due p = [] := by
  obtain ⟨text, calls, st, rfl⟩ := Thread.breaks_iff.1 hbreaks
  cases hm with
  | abandoned => exact hint.due_below _
  | passed hfr => exact hfr.elim

/-- A drain that takes an entry begins a round or makes a replay due. -/
theorem Serving.turn (hint : Intact p s w t) (hturns : t.Turns p)
    (hm : Thread.Moves body w t es w' t') :
    Serving p (⟨w, t, es⟩ :: past) t' (t'.due p).flatten := by
  have hround : ∀ {v rest}, s.pending = .emit v :: rest →
      Round p v s [] (⟨w, t, es⟩ :: past) := fun hq =>
    ⟨⟨_, past, _, rfl, hturns, hint.found, hq⟩, nofun⟩
  obtain ⟨u, st, rfl⟩ := Thread.turns_iff.1 hturns
  cases hm with
  | drained =>
      rw [hint.due_below]
      exact .idle
  | @popped _ _ r d s' _ hs hp =>
      obtain rfl := Option.some.inj (hint.found.symm.trans hs)
      rw [Thread.due_cons_deliver_self, hint.due_below, List.flatten_singleton]
      rcases Publisher.pop_cases hp with ⟨v, rest, hq, rfl, -⟩ | ⟨r, rest, hq, rfl, -⟩
      · have hnodup : (s.present ++ s.waiting).Nodup := hint.lined.nodup
        have hnone : s.round v = [] ++ s.round v := rfl
        exact .round (hround hq) (List.nodup_append.1 hnodup).1 hnone fun _ => rfl
      · exact .replay rfl

/-- However things go on, the calls due are the rest of a round or a replay about to be made. -/
theorem Serving.move (h : Serving p past t (t.due p).flatten) (hint : Intact p s w t)
    (hm : Thread.Moves body w t es w' t')
    (hv : View.Move p (t.view p s) (signals p es) (t'.view p s')) :
    Serving p (⟨w, t, es⟩ :: past) t' (t'.due p).flatten := by
  by_cases hnone : (t'.due p).flatten = []
  · rw [hnone]
    exact .idle
  by_cases hturns : t.Turns p
  · exact .turn hint hturns hm
  have hwhole : ¬ t.Breaks p := fun hbreaks =>
    hnone (congrArg List.flatten (hint.due_of_breaks hbreaks hm))
  generalize hcalls : (t.due p).flatten = calls at h
  cases h with
  | idle =>
      refine absurd (List.eq_nil_iff_forall_not_mem.2 fun c hc => ?_) hnone
      exact absurd (hcalls ▸ hm.due_subset hturns c hc) List.not_mem_nil
  | replay ht =>
      subst ht
      cases hm with
      | called =>
          refine absurd ?_ hnone
          rw [Thread.due_cons_of_calls? rfl, Thread.due_cons_deliver_self, hint.due_below]
          rfl
  | @round v r since made _ hround hnodup hall hmade =>
      have hgoes : Round p v r (⟨w, t, es⟩ :: since) (⟨w, t, es⟩ :: past) := by
        obtain ⟨m, before, rest, rfl, hm⟩ := hround.begun
        exact ⟨⟨m, before, rest, rfl, hm⟩,
          List.forall_mem_cons.2 ⟨⟨hturns, hwhole⟩, hround.lasting⟩⟩
      have htold : ∀ id, received id (signals p (told (⟨w, t, es⟩ :: since))) =
          handed id made ++ received id (signals p es) := fun id => by
        rw [told_cons, signals_append, received_append, hmade]
      rcases hv.calls_cases hint.orderly.single with
        ⟨hsame, hquiet⟩ | ⟨c, hcall, hcalled⟩ | ⟨hempty, -⟩ | ⟨hempty, -⟩
      · have hleft : (t'.due p).flatten = calls := hsame.trans hcalls
        refine .round hgoes hnodup (hleft ▸ hall) fun id => ?_
        rw [htold, hquiet, List.append_nil]
      · have hleft : calls = c :: (t'.due p).flatten := hcalls.symm.trans hcall
        have hmore : r.round v = (made ++ [c]) ++ (t'.due p).flatten := by
          rw [hall, hleft, List.append_assoc]
          rfl
        refine .round hgoes hnodup hmore fun id => ?_
        rw [htold, hcalled, received_called, handed_append]
      · have hleft : calls = [] := hcalls.symm.trans hempty
        refine absurd (List.eq_nil_iff_forall_not_mem.2 fun c hc => ?_) hnone
        exact absurd ((hcalls.trans hleft) ▸ hm.due_subset hturns c hc) List.not_mem_nil
      · exact absurd hempty hnone

end Serving

/-! ## Subscriptions -/

/-- Whether a subscription takes an observer away, or did so before it was disposed. -/
def Belongs (p : PublisherRef) (id i : Nat) (past : List (Moment V P σ ε)) (w : World V P σ ε) :
    Prop :=
  w.Detaches p id i ∨ ∃ m ∈ past, m.world.Detaches p id i

/-- What the history of a publisher says about calls and disposals. -/
structure Kept (p : PublisherRef) (past : List (Moment V P σ ε))
    (s : Publisher V (Observer V P σ ε)) (w : World V P σ ε) (t : Thread V P σ ε) : Prop where
  numbered : Numbered w t
  serving : Serving p past t (t.due p).flatten
  unheard : View.Unheard (signals p (told past)) (t.view p s)
  /-- Who has been disposed of is gone for good. -/
  disposed : ∀ id i, Belongs p id i past w → w.Detaches p id i ∨
    (w.subscriptions.get? i = some none ∧ id < s.nextId ∧ id ∉ s.ids)

section Disposal

variable [BEq V] {body : P → Prog V P σ ε} {p : PublisherRef} {id : Nat}
  {past since : List (Moment V P σ ε)} {w₀ w w' w'' : World V P σ ε} {t₀ t t' t'' : Thread V P σ ε}
  {es : List (Event V ε)} {s s' : Publisher V (Observer V P σ ε)} {c : SubscriptionRef}
  {k : Prog V P σ ε} {st : List (Frame V P σ ε)} {guard : Option LockId} {c₀ : V}

/-- What disposing a subscription for the first time does. -/
theorem Intact.detached (hint : Intact p s w ⟨.run (.dispose c k), st⟩) (hint' : Intact p s' w' t')
    (hnumbered : Numbered w ⟨.run (.dispose c k), st⟩) (hd : w.Detaches p id c.index)
    (hm : Thread.Moves body w ⟨.run (.dispose c k), st⟩ es w' t') :
    id < s.nextId ∧ s' = s.detach id ∧ (∀ q, q ≠ p → w'.publisher? q = w.publisher? q) ∧
      w'.subscriptions.get? c.index = some none ∧ t' = ⟨.run k, st⟩ := by
  obtain ⟨s₁, hs₁, hlt⟩ := hnumbered.subscriptions p id c.index hd
  obtain rfl := Option.some.inj (hint.found.symm.trans hs₁)
  cases hm with
  | disposedAgain hs => exact nomatch Option.some.inj (hd.symm.trans hs)
  | tornDown hs => exact nomatch Option.some.inj (Option.some.inj (hd.symm.trans hs))
  | detached hs hq =>
      obtain ⟨rfl, rfl⟩ := Teardown.detach.inj (Option.some.inj (Option.some.inj (hd.symm.trans hs)))
      obtain rfl := Option.some.inj (hint.found.symm.trans hq)
      have hafter := hint'.found.symm.trans (World.publisher?_setPublisher_self hint.found)
      exact ⟨hlt, Option.some.inj hafter, fun q hq => World.publisher?_setPublisher_ne hq.symm,
        Heap.get?_set_self _ _ _ _ hs, rfl⟩

theorem Kept.move (h : Kept p past s w t) (hint : Intact p s w t)
    (hm : Thread.Moves body w t es w' t')
    (hv : View.Move p (t.view p s) (signals p es) (t'.view p s')) (hint' : Intact p s' w' t') :
    Kept p (⟨w, t, es⟩ :: past) s' w' t' := by
  refine ⟨h.numbered.move hm, h.serving.move hint hm hv, ?_, fun id i hid => ?_⟩
  · rw [told_cons, signals_append]
    exact h.unheard.move hint.lined hint.orderly.single hv
  · have hbefore : w'.Detaches p id i ∨ Belongs p id i past w := by
      rcases hid with hnow | ⟨m, hm, hthen⟩
      · exact Or.inl hnow
      · rcases List.mem_cons.1 hm with rfl | hm
        · exact Or.inr (Or.inl hthen)
        · exact Or.inr (Or.inr ⟨m, hm, hthen⟩)
    rcases hbefore with hnow | hold
    · exact Or.inl hnow
    rcases h.disposed id i hold with hdetaches | ⟨hnone, hlt, hno⟩
    · by_cases ht : ∃ c k, t.focus = .run (.dispose c k) ∧ c.index = i
      · -- the subscription is disposed in this move
        obtain ⟨f, st⟩ := t
        obtain ⟨c, k, rfl, rfl⟩ := ht
        obtain ⟨hlt, rfl, -, hnone, -⟩ := hint.detached hint' h.numbered hdetaches hm
        exact Or.inr ⟨hnone, hlt, s.notMem_ids_detach id⟩
      · exact Or.inl (hm.subscription_kept hdetaches fun c k hf hi => ht ⟨c, k, hf, hi⟩)
    · exact Or.inr ⟨or_self_iff.1 (hm.subscription hnone), hv.gone hlt hno⟩

omit [BEq V] in
theorem Kept.next {o : Outcome V} (h : Kept p past s w t) (hend : t.outcome? = some o)
    (c : Prog V P σ ε) : Kept p past s w (.start c) := by
  have hdue : t.due p = (Thread.start c).due p := (Thread.settled_of_outcome hend).due
  refine ⟨⟨h.numbered.subscriptions, nofun⟩, .idle, ?_, h.disposed⟩
  intro id hid
  have hunheard := h.unheard id hid
  rwa [View.calls, Thread.view, hdue] at hunheard

/-- A publisher that has just been made has no history. -/
theorem Born.kept (h : Born body p guard c₀ w₀ t₀) : Kept p [] (.new guard c₀) w₀ t₀ := by
  obtain ⟨hset, -⟩ := h.regular
  have hnumbered : Numbered w₀ t₀ := by
    obtain @⟨w, _, k, st, hr, hperf⟩ := h
    have hmove : Thread.Moves body w ⟨.run (.atom (.newPublisher guard c₀) k), st⟩ [] w₀ _ :=
      .performed hperf
    exact hr.numbered.move hmove
  refine ⟨hnumbered, ?_, fun id _ => ⟨rfl, ?_⟩, fun id i hid => hid.imp_right fun ⟨m, hm, _⟩ => ?_⟩
  · rw [hset.due]
    exact .idle
  · rw [View.calls, Thread.view, hset.due]
    rfl
  · exact absurd hm List.not_mem_nil

/-- Who is gone receives what was due and nothing else, whatever happens. -/
theorem Path.received_gone (hint : Intact p s w t) (hlt : id < s.nextId) (hno : id ∉ s.ids)
    (h : Path body w t since w' t') :
    received id (signals p (told since)) <+: handed id (t.due p).flatten := by
  let Inv (since : List (Moment V P σ ε)) (s' : Publisher V (Observer V P σ ε))
      (_ : World V P σ ε) (t' : Thread V P σ ε) : Prop :=
    id < s'.nextId ∧ id ∉ s'.ids ∧
      received id (signals p (told since)) ++ handed id (t'.due p).flatten <+:
        handed id (t.due p).flatten
  obtain ⟨s', -, -, -, hpre⟩ := h.follow Inv hint ⟨hlt, hno, List.prefix_rfl⟩
    (fun since s w t es s' w' t' hinv hint hm hv hint' => by
      obtain ⟨hlt, hno, hpre⟩ := hinv
      obtain ⟨hlt', hno'⟩ := hv.gone hlt hno
      refine ⟨hlt', hno', ?_⟩
      rw [told_cons, signals_append, received_append, List.append_assoc]
      have hnow := hv.handed hint.orderly.single hno
      exact ((List.prefix_append_right_inj _).2 hnow).trans hpre)
    (fun since s w t c o hinv hend => by
      have hdue : t.due p = (Thread.start c).due p := (Thread.settled_of_outcome hend).due
      refine ⟨hinv.1, hinv.2.1, ?_⟩
      rw [← hdue]
      exact hinv.2.2)
  exact (List.prefix_append _ _).trans hpre

/-- A disposal comes back at once. The first one takes the observer away, a later one changes
nothing. -/
theorem Kept.disposes (hkept : Kept p past s w ⟨.run (.dispose c k), st⟩)
    (hint : Intact p s w ⟨.run (.dispose c k), st⟩) (hc : Belongs p id c.index past w) :
    ∃ es w' s', Thread.Moves body w ⟨.run (.dispose c k), st⟩ es w' ⟨.run k, st⟩ ∧
      Intact p s' w' ⟨.run k, st⟩ ∧ id < s'.nextId ∧ s.Loses id s' ∧ id ∉ s'.ids ∧
      ∀ q, q ≠ p → w'.publisher? q = w.publisher? q := by
  rcases hkept.disposed id c.index hc with hdetaches | ⟨hnone, hlt, hno⟩
  · have hm : Thread.Moves body w ⟨.run (.dispose c k), st⟩ _ _ ⟨.run k, st⟩ :=
      .detached hdetaches hint.found
    obtain ⟨s', hint', -⟩ := hint.move hm
    obtain ⟨hlt, rfl, hothers, -, -⟩ := hint.detached hint' hkept.numbered hdetaches hm
    exact ⟨_, _, _, hm, hint', hlt, s.loses_detach hint.lined.nodup id, s.notMem_ids_detach id,
      hothers⟩
  · have hm : Thread.Moves body w ⟨.run (.dispose c k), st⟩ _ _ ⟨.run k, st⟩ :=
      .disposedAgain hnone
    obtain ⟨s', hint', -⟩ := hint.move hm
    obtain rfl := Option.some.inj (hint.found.symm.trans hint'.found)
    exact ⟨_, _, _, hm, hint', hlt, .absent hno, hno, fun _ _ => rfl⟩

omit [BEq V] in
/-- What a program may still hand to an observer is one call of the round that is under way, and
nothing to one that is queued. -/
theorem Kept.handed_cases (hkept : Kept p past s w ⟨.run (.dispose c k), st⟩) (id : Nat) :
    (handed id (Thread.due p ⟨.run k, st⟩).flatten = [] ∨
      ∃ v, handed id (Thread.due p ⟨.run k, st⟩).flatten = [v] ∧ Underway p id v past) ∧
    (id ∈ s.waiting → received id (signals p (told past)) = [] ∧
      handed id (Thread.due p ⟨.run k, st⟩).flatten = []) := by
  refine ⟨?_, fun hw => hkept.unheard id (Or.inl hw)⟩
  by_cases hdue : handed id (Thread.due p ⟨.run k, st⟩).flatten = []
  · exact Or.inl hdue
  · exact Or.inr (hkept.serving.underway nofun hdue)

/-- What becomes of an observer whose subscription is disposed, for the first time or again, after
any history of its publisher. The publisher loses this observer, registered or queued, and nothing
else, and the call comes back at once. Whatever happens afterwards, the observer is called at most
once: with the value of a round that was under way when the subscription was disposed, which began
when the observer was registered and has not come to it. An observer whose registration was still
queued is never called at all. -/
theorem disposal_bound (h₀ : Born body p guard c₀ w₀ t₀)
    (h : Path body w₀ t₀ past w ⟨.run (.dispose c k), st⟩) (hc : Belongs p id c.index past w) :
    ∃ es w' s s', Thread.Moves body w ⟨.run (.dispose c k), st⟩ es w' ⟨.run k, st⟩ ∧
      w.publisher? p = some s ∧ w'.publisher? p = some s' ∧
      s.Loses id s' ∧ id ∉ s'.ids ∧ (∀ q, q ≠ p → w'.publisher? q = w.publisher? q) ∧
      ∀ since w'' t'', Path body w' ⟨.run k, st⟩ since w'' t'' →
        (received id (signals p (told since)) = [] ∨
          ∃ v, received id (signals p (told since)) = [v] ∧ Underway p id v past) ∧
        (id ∈ s.waiting → received id (signals p (told past)) = [] ∧
          received id (signals p (told since)) = []) := by
  obtain ⟨-, hreg⟩ := h₀.regular
  obtain ⟨s, hint, hkept⟩ := h.follow (Kept p) hreg.intact h₀.kept
    (fun _ _ _ _ _ _ _ _ hkept hint hm hv hint' => hkept.move hint hm hv hint')
    (fun _ _ _ _ c _ hkept hend => hkept.next hend c)
  obtain ⟨es, w', s', hm, hint', hlt, hloses, hno, hothers⟩ := hkept.disposes hint hc
  refine ⟨es, w', s, s', hm, hint.found, hint'.found, hloses, hno, hothers, ?_⟩
  intro since w'' t'' hlater
  have hpre := hlater.received_gone hint' hlt hno
  obtain ⟨hcases, hqueued⟩ := hkept.handed_cases id
  refine ⟨?_, fun hw => ?_⟩
  · rcases hcases with hnone | ⟨v, hone, hunder⟩
    · exact Or.inl (List.prefix_nil.1 (hnone ▸ hpre))
    · rw [hone] at hpre
      rcases List.prefix_cons_iff.1 hpre with hnone | ⟨l, hcons, hl⟩
      · exact Or.inl hnone
      · rw [List.prefix_nil.1 hl] at hcons
        exact Or.inr ⟨v, hcons, hunder⟩
  · obtain ⟨hreceived, hnone⟩ := hqueued hw
    exact ⟨hreceived, List.prefix_nil.1 (hnone ▸ hpre)⟩

end Disposal

/-- A client whose first observer answers the value 1 by disposing the subscription of the second
one. It writes 1 and then 2. -/
def silencing (p : PublisherRef) : Prog Nat Empty Unit Unit :=
  .attach p [] (fun v => if v = 1 then .dispose ⟨1⟩ (.ret v) else .ret v) fun _ =>
    .attach p [] .ret fun _ => .publish p 1 (.publish p 2 (.ret 0))

/-- The world in which the client starts, which has made its publisher. -/
def silencingWorld : World Nat Empty Unit Unit :=
  { (World.new () : World Nat Empty Unit Unit) with publishers := .alloc .empty (.new none 0) }

theorem silencing_born : Born nofun ⟨0⟩ none 0 silencingWorld (.start (silencing ⟨0⟩)) :=
  .made ⟨(), .atom (.newPublisher none 0) silencing, [], .refl⟩ rfl

theorem silencing_disposes : ∃ w st es, CalmRun nofun silencingWorld (.start (silencing ⟨0⟩)) es w
      ⟨.run (.dispose ⟨1⟩ (.ret 1)), st⟩ ∧
    w.Detaches ⟨0⟩ 1 1 ∧ received 1 (signals ⟨0⟩ es) = [0] := by
  obtain ⟨w, st, es, hto, h⟩ : ∃ (w : World Nat Empty Unit Unit)
      (st : List (Frame Nat Empty Unit Unit)) (es : List (Event Nat Unit)),
      Thread.advance nofun 18 silencingWorld (.start (silencing ⟨0⟩)) =
        some (w, ⟨.run (.dispose ⟨1⟩ (.ret 1)), st⟩, es) ∧
      w.Detaches ⟨0⟩ 1 1 ∧ received 1 (signals ⟨0⟩ es) = [0] := ⟨_, _, _, rfl, rfl, rfl⟩
  exact ⟨w, st, es, .of_advance hto, h⟩

theorem silencing_ends : ∃ w es, CalmRun nofun silencingWorld (.start (silencing ⟨0⟩)) es w
      (.start (.ret 0)) ∧ received 1 (signals ⟨0⟩ es) = [0, 1] := by
  obtain ⟨w, es, hto, h⟩ : ∃ (w : World Nat Empty Unit Unit) (es : List (Event Nat Unit)),
      Thread.advance nofun 31 silencingWorld (.start (silencing ⟨0⟩)) =
        some (w, .start (.ret 0), es) ∧ received 1 (signals ⟨0⟩ es) = [0, 1] := ⟨_, _, rfl, rfl⟩
  exact ⟨w, es, .of_advance hto, h⟩

/-- The second observer is disposed of in the round of 1, before its turn. It is called with 1, and
not with 2. -/
theorem disposal_bound_silencing :
    ∃ past since w w' last st es, Path nofun silencingWorld (.start (silencing ⟨0⟩)) past w
        ⟨.run (.dispose ⟨1⟩ (.ret 1)), st⟩ ∧
      Belongs ⟨0⟩ 1 1 past w ∧
      Thread.Moves nofun w ⟨.run (.dispose ⟨1⟩ (.ret 1)), st⟩ es w' ⟨.run (.ret 1), st⟩ ∧
      Path nofun w' ⟨.run (.ret 1), st⟩ since last (.start (.ret 0)) ∧
      received 1 (signals ⟨0⟩ (told since)) = [1] ∧ Underway ⟨0⟩ 1 1 past := by
  obtain ⟨w, st, es₁, hbefore, hdetaches, hfirst⟩ := silencing_disposes
  obtain ⟨last, es, hend, hall⟩ := silencing_ends
  obtain ⟨es₂, rfl, hrest⟩ := hbefore.any.rest hend.any rfl
  rcases hrest.first with ⟨-, -, hsame⟩ | ⟨w', t', es₃, es₄, hstep, -, rfl, hafter⟩
  · exact nomatch hsame
  obtain ⟨past, hpath, -⟩ := hbefore.path
  obtain ⟨since, hlater, rfl, -⟩ := hafter.path
  obtain ⟨es, w₂, _, _, hmove, -, -, -, -, -, hbound⟩ :=
    disposal_bound silencing_born hpath (Or.inl hdetaches)
  obtain ⟨rfl, rfl, rfl⟩ := Option.some.inj (hstep.symm.trans hmove.step)
  obtain ⟨hcalled, -⟩ := hbound since last _ hlater
  have hquiet : received 1 (signals ⟨0⟩ es₃) = [] := by
    cases hmove with
    | disposedAgain => rfl
    | @detached _ q i =>
        by_cases hq : q = ⟨0⟩ <;>
          simp [signals, List.filterMap_cons, Event.signal?, hq, received, Signal.handedTo?]
  have hreceived : received 1 (signals ⟨0⟩ (told since)) = [1] := by
    rw [signals_append, signals_append, received_append, received_append, hfirst, hquiet] at hall
    exact (List.cons.inj hall).2
  have hsome : received 1 (signals ⟨0⟩ (told since)) ≠ [] := hreceived ▸ List.cons_ne_nil _ _
  obtain ⟨v, hone, hunder⟩ := hcalled.resolve_left hsome
  obtain ⟨rfl, -⟩ := List.cons.inj (hone.symm.trans hreceived)
  exact ⟨past, since, w, w', last, st, es₃, hpath, Or.inl hdetaches, hmove, hlater, hreceived,
    hunder⟩

end ReactiveCells
