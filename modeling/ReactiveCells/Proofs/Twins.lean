import Mathlib.Data.List.Forall2
import ReactiveCells.Proofs.Lapses
import ReactiveCells.Proofs.Tasks

/-!
# Twins — a view with inverse conversions is a container of its own

A view stores nothing itself. With two conversions that are inverse to each other it cannot be told
from a container of the same kind that holds the converted value. Both are run side by side: the
machine that works on the root and the one that works on the twin make the same moves, with values
that are converted into each other. Only observers make a difference: one of the view stands behind
a gate, which is laid before the registration and asked before each call.

Gates let everything pass. Publishers deliver a value only if it differs from the one delivered
before (`Move.changing`), inverse conversions keep different values apart, and a gate holds what was
delivered last unless its observer is still to be called with it (`Gated`).

Main statements: `Gated.quiet`, `Gated.call` and `Gated.enqueue` (what gates hold, move by move),
`Publisher.Like.commit` and `Publisher.Like.pop` (both do the same).
-/

namespace ReactiveCells

variable {V P σ ε : Type} [BEq V]

/-! ## What corresponds to what -/

/-- What happens to the root of a view when something happens to its twin. -/
def Twins.across (back : V → V) (n : Nat) : Twins → Event V ε → Event V ε
  | .publishers _ _, .message (.observerSubscribed id k) =>
      .message (.observerSubscribed (id + n) k)
  | .publishers p _, .committed _ v => .committed p (back v)
  | .publishers p _, .queued _ id => .queued p (id + n)
  | .publishers p _, .called _ id v => .called p (id + n) (back v)
  | _, e => e

section Correspondence

variable (forth back : V → V) (m : Twins) (n : Nat) (gates : List MemoRef)

/-- Whether an observer of a view does behind its gate what another observer does. -/
def Observer.Like (i : Nat) (o o' : Observer V P σ ε) : Prop :=
  ∃ last obs, gates[i]? = some last ∧ o.react = Gate.guarding ⟨last, forth⟩ obs ∧
    ∀ v, Alike forth back m Unrelated (obs v fun _ => .ret (back v)) (o'.react v)

/-- A registration with the root and one with the twin. The root gave out `n` numbers before. -/
structure Registration.Like (r r' : Registration (Observer V P σ ε)) : Prop where
  id : r.id = r'.id + n
  observer : Observer.Like forth back m gates r'.id r.observer r'.observer

inductive Pending.Like :
    Pending V (Observer V P σ ε) → Pending V (Observer V P σ ε) → Prop where
  | emit (v : V) : Like (.emit (back v)) (.emit v)
  | attach {r r' : Registration (Observer V P σ ε)} : Registration.Like forth back m n gates r r' →
      Like (.attach r) (.attach r')

structure Call.Like (c c' : Call V (Observer V P σ ε)) : Prop where
  id : c.id = c'.id + n
  value : c.value = back c'.value
  observer : Observer.Like forth back m gates c'.id c.observer c'.observer

/-- The root of a view and its twin. -/
structure Publisher.Like (s s' : Publisher V (Observer V P σ ε)) : Prop where
  monitors : s.monitors.length = s'.monitors.length
  current : s.current = back s'.current
  delivered : s.delivered = back s'.delivered
  draining : s.draining = s'.draining
  nextId : s.nextId = s'.nextId + n
  observers : List.Forall₂ (Registration.Like forth back m n gates) s.observers s'.observers
  pending : List.Forall₂ (Pending.Like forth back m n gates) s.pending s'.pending

/-- Stacks that differ as programs that are alike do, and expect related values. -/
inductive Frames.Like :
    (V → V → Prop) → List (Frame V P σ ε) → List (Frame V P σ ε) → Prop where
  | nil : Like Eq [] []
  | resume {R S : V → V → Prop} {k k' : Routine V P σ ε} {st st' : List (Frame V P σ ε)} :
      (∀ x y, R x y → Alike forth back m S (k x) (k' y)) → Like S st st' →
      Like R (.resume k :: st) (.resume k' :: st')
  | leave {R : V → V → Prop} (l l' : Monitor) {st st' : List (Frame V P σ ε)} : Like R st st' →
      Like R (.leave l :: st) (.leave l' :: st')
  | swapIn {c c' : CellRef} {f f' : Routine V P σ ε} {st st' : List (Frame V P σ ε)}
      (stamp a : Nat) : m = .cells c c' →
      (∀ v, Alike forth back m (Reverts back) (f (back v)) (f' v)) → Like (Reverts back) st st' →
      Like (Reverts back) (.swapIn c (stamp + n) a f :: st) (.swapIn c' stamp a f' :: st')
  | commit {p p' : PublisherRef} {st st' : List (Frame V P σ ε)} : m = .publishers p p' →
      Like (Reverts back) st st' → Like (Reverts back) (.commit p :: st) (.commit p' :: st')
  | register {R S : V → V → Prop} {p p' : PublisherRef} (id : Nat)
      {k k' : SubscriptionRef → Prog V P σ ε} {st st' : List (Frame V P σ ε)} :
      m = .publishers p p' → (∀ d d', Alike forth back m S (k d) (k' d')) → Like S st st' →
      Like R (.register p (id + n) k :: st) (.register p' id k' :: st')
  | deliver {R : V → V → Prop} {p p' : PublisherRef}
      {calls calls' : List (Call V (Observer V P σ ε))} {st st' : List (Frame V P σ ε)} :
      m = .publishers p p' → List.Forall₂ (Call.Like forth back m n gates) calls calls' →
      Like (Reverts back) st st' → Like R (.deliver p calls :: st) (.deliver p' calls' :: st')
  | observe {R : V → V → Prop} (o o' : Observer V P σ ε) {st st' : List (Frame V P σ ε)} :
      Like Unrelated st st' → Like R (.observe o :: st) (.observe o' :: st')

/-- Threads that do alike things on top of stacks that are alike. -/
inductive Thread.Like : Thread V P σ ε → Thread V P σ ε → Prop where
  | run {R : V → V → Prop} {c c' : Prog V P σ ε} {st st' : List (Frame V P σ ε)} :
      Alike forth back m R c c' → Frames.Like forth back m n gates R st st' →
      Like ⟨.run c, st⟩ ⟨.run c', st'⟩
  | drain {p p' : PublisherRef} {st st' : List (Frame V P σ ε)} : m = .publishers p p' →
      Frames.Like forth back m n gates (Reverts back) st st' →
      Like ⟨.drain p, st⟩ ⟨.drain p', st'⟩

/-- What the gates of a view hold, given the view of the twin: what was delivered last, unless the
observer is still to hear of it. -/
structure Gated (x : View V P σ ε) (w : World V P σ ε) : Prop where
  nodup : gates.Nodup
  length : gates.length = x.state.nextId
  laid : ∀ last ∈ gates, last.index < w.memos.size
  changing : x.state.timeline.IsChain (· ≠ ·)
  waiting : ∀ id ∈ x.state.waiting, ∀ last, gates[id]? = some last →
    w.memos.get? last.index = some []
  due : ∀ id ∈ x.calls.map (·.id), ∀ last, gates[id]? = some last →
    ∃ seen, w.memos.get? last.index = some seen ∧ x.state.delivered ∉ seen
  done : ∀ id ∈ x.state.present, id ∉ x.calls.map (·.id) → ∀ last, gates[id]? = some last →
    w.memos.get? last.index = some [x.state.delivered]

/-- The world with the root of a view, and the one with its twin. -/
inductive World.Like (w w' : World V P σ ε) (t' : Thread V P σ ε) : Prop where
  | cells {c c' : CellRef} {d d' : Cell V} : m = .cells c c' → w.cell? c = some d →
      w'.cell? c' = some d' → d.value = back d'.value → d.stamp = d'.stamp + n → Like w w' t'
  | publishers {p p' : PublisherRef} {s s' : Publisher V (Observer V P σ ε)} :
      m = .publishers p p' → w.publisher? p = some s → Regular p' s' w' t' →
      Publisher.Like forth back m n gates s s' → Gated gates (t'.view p' s') w → Like w w' t'

/-- Two machines side by side. -/
structure Twin (w : World V P σ ε) (t : Thread V P σ ε) (w' : World V P σ ε)
    (t' : Thread V P σ ε) : Prop where
  store : w.store = w'.store
  like : ∃ gates, Thread.Like forth back m n gates t t' ∧ World.Like forth back m n gates w w' t'

end Correspondence

variable {forth back : V → V} {m : Twins} {n : Nat} {gates : List MemoRef}

/-! ## One gate more -/

section Growth

variable (last : MemoRef)

theorem Observer.Like.mono {i : Nat} {o o' : Observer V P σ ε}
    (h : Observer.Like forth back m gates i o o') :
    Observer.Like forth back m (gates ++ [last]) i o o' := by
  obtain ⟨l, obs, hl, hrest⟩ := h
  have hlt : i < gates.length := (List.getElem?_eq_some_iff.1 hl).1
  exact ⟨l, obs, (List.getElem?_append_left hlt).trans hl, hrest⟩

theorem Registration.Like.mono {r r' : Registration (Observer V P σ ε)}
    (h : Registration.Like forth back m n gates r r') :
    Registration.Like forth back m n (gates ++ [last]) r r' :=
  ⟨h.id, h.observer.mono last⟩

theorem Call.Like.mono {c c' : Call V (Observer V P σ ε)}
    (h : Call.Like forth back m n gates c c') :
    Call.Like forth back m n (gates ++ [last]) c c' :=
  ⟨h.id, h.value, h.observer.mono last⟩

theorem Pending.Like.mono {e e' : Pending V (Observer V P σ ε)}
    (h : Pending.Like forth back m n gates e e') :
    Pending.Like forth back m n (gates ++ [last]) e e' := by
  cases h with
  | emit v => exact .emit v
  | attach hr => exact .attach (hr.mono last)

theorem Frames.Like.mono {R : V → V → Prop} {st st' : List (Frame V P σ ε)}
    (h : Frames.Like forth back m n gates R st st') :
    Frames.Like forth back m n (gates ++ [last]) R st st' := by
  induction h with
  | nil => exact .nil
  | resume hk _ ih => exact .resume hk ih
  | leave l l' _ ih => exact .leave l l' ih
  | swapIn stamp a hm hf _ ih => exact .swapIn stamp a hm hf ih
  | commit hm _ ih => exact .commit hm ih
  | register id hm hk _ ih => exact .register id hm hk ih
  | deliver hm hcalls _ ih => exact .deliver hm (hcalls.imp fun _ _ h => h.mono last) ih
  | observe o o' _ ih => exact .observe o o' ih

end Growth

/-! ## Gates let everything pass -/

section Gated

variable {p : PublisherRef} {x x' : View V P σ ε} {w w₁ : World V P σ ε} {l : List (Signal V)}

omit [BEq V] in
/-- What gates hold is up to the shared lists. -/
theorem Gated.same (h : Gated gates x w) (hmemos : w₁.memos = w.memos) : Gated gates x w₁ := by
  refine ⟨h.nodup, h.length, ?_, h.changing, ?_, ?_, ?_⟩
  all_goals rw [hmemos]
  · exact h.laid
  · exact h.waiting
  · exact h.due
  · exact h.done

omit [BEq V] in
/-- The next entry is taken: a change is news to all gates. -/
theorem Gated.pop {s s' : Publisher V (Observer V P σ ε)} {d : Delivery V (Observer V P σ ε)}
    {f f' : Focus V P σ ε} (h : Gated gates ⟨s, [[]], f⟩ w) (hp : s.pop = some (d, s'))
    (hchanging : s'.timeline.IsChain (· ≠ ·)) : Gated gates ⟨s', [d.calls], f'⟩ w := by
  have hknown : ∀ id ∈ s.present, ∀ last, gates[id]? = some last →
      w.memos.get? last.index = some [s.delivered] := fun id hid =>
    h.done id hid List.not_mem_nil
  have hnews : (s.delivered :: s.changes).IsChain (· ≠ ·) := h.changing
  rcases Publisher.pop_cases hp with ⟨u, rest, hq, rfl, rfl⟩ | ⟨r, rest, hq, rfl, rfl⟩
  · have hw := Publisher.waiting_of_emit hq
    rw [Publisher.changes_of_emit hq] at hnews
    have hround := View.map_id_calls_round s { s with delivered := u, pending := rest } u f'
    refine ⟨h.nodup, h.length, h.laid, hchanging, ?_, ?_, ?_⟩
    · exact fun id hid => h.waiting id (hw.symm ▸ hid)
    · intro id hid last hlast
      refine ⟨_, hknown id (hround ▸ hid) last hlast, fun hmem => ?_⟩
      exact (List.isChain_cons_cons.1 hnews).1 (List.mem_singleton.1 hmem).symm
    · exact fun id hid hnot => absurd (hround.symm ▸ hid) hnot
  · have hw := Publisher.waiting_of_attach hq
    refine ⟨h.nodup, h.length, h.laid, hchanging, ?_, ?_, ?_⟩
    · exact fun id hid => h.waiting id (hw.symm ▸ List.mem_cons_of_mem _ hid)
    · intro id hid last hlast
      obtain rfl := List.mem_singleton.1 hid
      exact ⟨_, h.waiting r.id (hw.symm ▸ List.mem_cons_self) last hlast, List.not_mem_nil⟩
    · intro id hid hnot
      have hmem : id ∈ (s.observers ++ [r]).map (·.id) := hid
      rw [List.map_append] at hmem
      refine hknown id ((List.mem_append.1 hmem).resolve_right fun hnew => hnot ?_)
      exact hnew

/-- Gates hold what they should as long as they are not asked and nobody subscribes. -/
theorem Gated.quiet [LawfulBEq V] (h : Gated gates x w) (hs : View.Sound x)
    (ho : View.Orderly p x) (hm : View.Move p x l x') (hcalm : x'.focus.Calm)
    (hl : l = [] ∨ ∃ v, l = [.committed v]) : Gated gates x' w := by
  have hchanging := hm.changing hs h.changing
  cases hm with
  | other | busy | finish =>
      exact ⟨h.nodup, h.length, h.laid, hchanging, h.waiting, h.due, h.done⟩
  | start hb =>
      obtain ⟨-, rfl⟩ := Publisher.beginDrain_eq_some hb
      exact ⟨h.nodup, h.length, h.laid, hchanging, h.waiting, h.due, h.done⟩
  | commit hf hc =>
      obtain ⟨hw, -, -⟩ := Publisher.numbers_commit hc
      obtain rfl := Publisher.commit_eq_some hc
      exact ⟨h.nodup, h.length, h.laid, hchanging, fun id hid => h.waiting id (hw ▸ hid), h.due,
        h.done⟩
  | pop hp =>
      obtain ⟨-, rfl⟩ := ho.only rfl
      exact h.pop hp hchanging
  | enqueue | detach | call => rcases hl with hl | ⟨v, hl⟩ <;> exact nomatch hl
  | abandon => exact hcalm.elim

omit [BEq V] in
/-- The gate of the observer that is called holds the value afterwards. -/
theorem Gated.call {s : Publisher V (Observer V P σ ε)} {c : Call V (Observer V P σ ε)}
    {calls : List (Call V (Observer V P σ ε))} {due : List (List (Call V (Observer V P σ ε)))}
    {f f' : Focus V P σ ε} {last : MemoRef} (h : Gated gates ⟨s, (c :: calls) :: due, f⟩ w)
    (hs : View.Sound ⟨s, (c :: calls) :: due, f⟩) (hlast : gates[c.id]? = some last) :
    Gated gates ⟨s, calls :: due, f'⟩
      { w with memos := w.memos.set last.index [s.delivered] } := by
  have hfirst : ∀ i ∈ (View.calls ⟨s, calls :: due, f'⟩).map (·.id) ++ s.waiting ++ [s.nextId],
      c.id < i := fun i hi => (List.pairwise_cons.1 hs.inLine).1 i hi
  obtain ⟨seen, hseen, -⟩ := h.due c.id List.mem_cons_self last hlast
  have hself : (w.memos.set last.index [s.delivered]).get? last.index = some [s.delivered] :=
    Heap.get?_set_self _ _ _ _ hseen
  -- no other observer has this gate
  have hother : ∀ id, c.id ≠ id → ∀ l, gates[id]? = some l →
      (w.memos.set last.index [s.delivered]).get? l.index = w.memos.get? l.index := by
    intro id hne l hl
    refine Heap.get?_set_ne _ _ _ _ fun he => hne ?_
    obtain rfl : last = l := congrArg MemoRef.mk he
    have hlt : c.id < gates.length := (List.getElem?_eq_some_iff.1 hlast).1
    exact (List.getElem?_inj hlt h.nodup).1 (hlast.trans hl.symm)
  refine ⟨h.nodup, h.length, ?_, h.changing, ?_, ?_, ?_⟩
  · intro l hl
    rw [Heap.size_set]
    exact h.laid l hl
  · intro id hid l hl
    have hne : c.id ≠ id := Nat.ne_of_lt
      (hfirst id (List.mem_append_left _ (List.mem_append_right _ hid)))
    exact (hother id hne l hl).trans (h.waiting id hid l hl)
  · intro id hid l hl
    have hne : c.id ≠ id := Nat.ne_of_lt
      (hfirst id (List.mem_append_left _ (List.mem_append_left _ hid)))
    obtain ⟨seen, hseen, hnew⟩ := h.due id (List.mem_cons_of_mem _ hid) l hl
    exact ⟨seen, (hother id hne l hl).trans hseen, hnew⟩
  · intro id hid hnot l hl
    by_cases hne : c.id = id
    · subst hne
      obtain rfl : last = l := Option.some.inj (hlast.symm.trans hl)
      exact hself
    · refine (hother id hne l hl).trans (h.done id hid (fun hmem => ?_) l hl)
      exact (List.mem_cons.1 hmem).elim (fun he => hne he.symm) hnot

omit [BEq V] in
/-- A gate is laid for an observer that subscribes. -/
theorem Gated.enqueue {s : Publisher V (Observer V P σ ε)}
    {due : List (List (Call V (Observer V P σ ε)))} {f f' : Focus V P σ ε} {o : Observer V P σ ε}
    (h : Gated gates ⟨s, due, f⟩ w) (hs : View.Sound ⟨s, due, f⟩) :
    Gated (gates ++ [⟨w.memos.size⟩]) ⟨s.enqueue o, due, f'⟩
      { w with memos := w.memos.alloc [] } := by
  let new : MemoRef := ⟨w.memos.size⟩
  have hlength : gates.length = s.nextId := h.length
  have hold : ∀ id, id < s.nextId → ∀ l, (gates ++ [new])[id]? = some l →
      gates[id]? = some l := fun id hid l hl =>
    (List.getElem?_append_left (hlength.symm ▸ hid)).symm.trans hl
  have hkept : ∀ (l : MemoRef) vs, w.memos.get? l.index = some vs →
      (w.memos.alloc []).get? l.index = some vs := fun l vs => Heap.get?_alloc_of_some _ _ _ _
  have hlined := (List.pairwise_append.1 hs.lined).2.2
  have hcalled : ∀ id ∈ (View.calls ⟨s, due, f⟩).map (·.id), id < s.nextId := fun id hid =>
    (List.pairwise_append.1 hs.inLine).2.2 id (List.mem_append_left _ hid) _
      (List.mem_singleton_self _)
  refine ⟨?_, ?_, ?_, ?_, ?_, ?_, ?_⟩
  · refine List.nodup_append.2 ⟨h.nodup, List.pairwise_singleton _ _, ?_⟩
    rintro l hl l' hl' rfl
    have hlt := h.laid l hl
    rw [List.mem_singleton.1 hl'] at hlt
    exact Nat.lt_irrefl _ hlt
  · rw [List.length_append, hlength]
    rfl
  · intro l hl
    rw [Heap.size_alloc]
    rcases List.mem_append.1 hl with hl | hl
    · exact Nat.lt_succ_of_lt (h.laid l hl)
    · rw [List.mem_singleton.1 hl]
      exact Nat.lt_succ_self _
  · exact (Publisher.timeline_enqueue s o).symm ▸ h.changing
  · intro id hid l hl
    have hmem : id ∈ (s.enqueue o).waiting := hid
    rw [Publisher.waiting_enqueue] at hmem
    rcases List.mem_append.1 hmem with hmem | hmem
    · have hlt := hlined id (List.mem_append_right _ hmem) _ (List.mem_singleton_self _)
      exact hkept l _ (h.waiting id hmem l (hold id hlt l hl))
    · rw [List.mem_singleton.1 hmem, ← hlength, List.getElem?_concat_length] at hl
      obtain rfl := Option.some.inj hl
      exact Heap.get?_alloc_self _ _
  · intro id hid l hl
    obtain ⟨seen, hseen, hnew⟩ := h.due id hid l (hold id (hcalled id hid) l hl)
    exact ⟨seen, hkept l _ hseen, hnew⟩
  · intro id hid hnot l hl
    have hlt := hlined id (List.mem_append_left _ hid) _ (List.mem_singleton_self _)
    exact hkept l _ (h.done id hid hnot l (hold id hlt l hl))

end Gated

/-! ## What the root and its twin do -/

section Publishers

variable {p p' : PublisherRef} {s s' : Publisher V (Observer V P σ ε)}

theorem beq_back [LawfulBEq V] (hforth : ∀ v, forth (back v) = v) (x y : V) :
    (back x == back y) = (x == y) := by
  have hback : back x = back y ↔ x = y :=
    ⟨fun h => by rw [← hforth x, h, hforth], congrArg back⟩
  rw [Bool.eq_iff_iff, beq_iff_eq, beq_iff_eq]
  exact hback

theorem Publisher.Like.drain (h : Publisher.Like forth back m n gates s s') (b : Bool) :
    Publisher.Like forth back m n gates { s with draining := b } { s' with draining := b } :=
  ⟨h.monitors, h.current, h.delivered, rfl, h.nextId, h.observers, h.pending⟩

/-- Both change or neither does. -/
theorem Publisher.Like.commit [LawfulBEq V] (hforth : ∀ v, forth (back v) = v)
    (h : Publisher.Like forth back m n gates s s') (v : V) :
    (s.commit (back v) = none ∧ s'.commit v = none) ∨
      ∃ s₁ s₁', s.commit (back v) = some s₁ ∧ s'.commit v = some s₁' ∧
        Publisher.Like forth back m n gates s₁ s₁' := by
  have hbeq : (s.current == back v) = (s'.current == v) := by
    rw [h.current]
    exact beq_back hforth _ _
  rw [Publisher.commit, Publisher.commit, hbeq]
  by_cases hv : (s'.current == v) = true
  · rw [if_pos hv, if_pos hv]
    exact Or.inl ⟨rfl, rfl⟩
  · rw [if_neg hv, if_neg hv]
    refine Or.inr ⟨_, _, rfl, rfl, h.monitors, rfl, h.delivered, h.draining, h.nextId, h.observers,
      ?_⟩
    exact List.rel_append h.pending (.cons (.emit v) .nil)

/-- Both take an entry of the same kind, or neither has one. -/
theorem Publisher.Like.pop (hm : m = .publishers p p')
    (h : Publisher.Like forth back m n gates s s') :
    (s.pop = none ∧ s'.pop = none) ∨
      ∃ d s₁ d' s₁', s.pop = some (d, s₁) ∧ s'.pop = some (d', s₁') ∧
        (d.report : List (Event V ε)) = d'.report.map (m.across back n) ∧
        List.Forall₂ (Call.Like forth back m n gates) d.calls d'.calls ∧
        Publisher.Like forth back m n gates s₁ s₁' := by
  subst hm
  cases hq : s'.pending with
  | nil =>
      have hnone := h.pending
      rw [hq, List.forall₂_nil_right_iff] at hnone
      exact Or.inl ⟨(Publisher.pop_eq_none_iff s).2 hnone, (Publisher.pop_eq_none_iff s').2 hq⟩
  | cons e' rest' =>
      have hsome := h.pending
      rw [hq, List.forall₂_cons_right_iff] at hsome
      -- the queues are alike entry by entry, so their heads are of one kind
      obtain ⟨e, rest, he, hrest, hp⟩ := hsome
      right
      cases he with
      | emit v =>
          have hpop : s.pop = some (.round (s.round (back v)),
              { s with delivered := back v, pending := rest }) := by
            rw [Publisher.pop, hp]
            rfl
          have hpop' : s'.pop = some (.round (s'.round v),
              { s' with delivered := v, pending := rest' }) := by
            rw [Publisher.pop, hq]
            rfl
          refine ⟨_, _, _, _, hpop, hpop', rfl, ?_, ?_⟩
          · show List.Forall₂ _ (s.observers.map _) (s'.observers.map _)
            rw [List.forall₂_map_left_iff, List.forall₂_map_right_iff]
            exact h.observers.imp fun r r' hr => ⟨hr.id, rfl, hr.observer⟩
          · exact ⟨h.monitors, h.current, rfl, h.draining, h.nextId, h.observers, hrest⟩
      | @attach r r' hr =>
          have hpop : s.pop = some
              (.replay ⟨r.id, s.delivered, r.observer⟩ (s.observers.length + 1),
                { s with observers := s.observers ++ [r], pending := rest }) := by
            rw [Publisher.pop, hp]
          have hpop' : s'.pop = some
              (.replay ⟨r'.id, s'.delivered, r'.observer⟩ (s'.observers.length + 1),
                { s' with observers := s'.observers ++ [r'], pending := rest' }) := by
            rw [Publisher.pop, hq]
          refine ⟨_, _, _, _, hpop, hpop', ?_, .cons ⟨hr.id, h.delivered, hr.observer⟩ .nil, ?_⟩
          · rw [Delivery.report, Delivery.report, hr.id, h.observers.length_eq]
            rfl
          · exact ⟨h.monitors, h.current, h.delivered, h.draining, h.nextId,
              List.rel_append h.observers (.cons hr .nil), hrest⟩

theorem Publisher.Like.enqueue (last : MemoRef) {o o' : Observer V P σ ε}
    (h : Publisher.Like forth back m n gates s s')
    (ho : Observer.Like forth back m (gates ++ [last]) s'.nextId o o') :
    Publisher.Like forth back m n (gates ++ [last]) (s.enqueue o) (s'.enqueue o') := by
  refine ⟨h.monitors, h.current, h.delivered, h.draining, ?_, ?_, ?_⟩
  · show s.nextId + 1 = s'.nextId + 1 + n
    rw [h.nextId, Nat.add_right_comm]
  · exact h.observers.imp fun _ _ hr => hr.mono last
  · exact List.rel_append (h.pending.imp fun _ _ he => he.mono last)
      (.cons (.attach ⟨h.nextId, ho⟩) .nil)

end Publishers

end ReactiveCells
