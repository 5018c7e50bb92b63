import ReactiveCells.Proofs.Soon
import ReactiveCells.Proofs.Twins

/-!
# Lockstep — a root and its twin make the same moves

Two machines run side by side, one with a view and one with the twin of its root (`Twin`). Whenever
the twin makes a move the root makes one, too. It makes a second one before it subscribes, to lay
the gate, and after it has called an observer, to ask the gate. So both come to the same value,
leave the same store, and what happens on the way corresponds event by event.

Main statements: `Twin.next` (one move of both) and `Twin.yields_iff` (a whole run of both).
-/

namespace ReactiveCells

variable {V P σ ε : Type} [BEq V]

variable {forth back : V → V} {m : Twins} {n : Nat} {gates : List MemoRef}

/-! ## One move of both -/

section Moves

variable {body : P → Prog V P σ ε} {w w₁ w' w₁' : World V P σ ε} {t t₁ t' t₁' : Thread V P σ ε}
  {es es' : List (Event V ε)}

/-- Monitors are left in the same number. -/
theorem Frames.Like.leaving {R : V → V → Prop} {O O' : Type} {s : Publisher V O}
    {s' : Publisher V O'} {st st' : List (Frame V P σ ε)}
    (hlength : s.monitors.length = s'.monitors.length)
    (h : Frames.Like forth back m n gates R st st') :
    Frames.Like forth back m n gates R (s.leaving ++ st) (s'.leaving ++ st') := by
  have hleave : ∀ ms ms' : List Monitor, ms.length = ms'.length →
      Frames.Like forth back m n gates R (ms.map .leave ++ st) (ms'.map .leave ++ st') := by
    intro ms
    induction ms with
    | nil =>
        intro ms' hl
        rw [List.eq_nil_of_length_eq_zero hl.symm]
        exact h
    | cons l ms ih =>
        intro ms' hl
        cases ms' with
        | nil => exact nomatch hl
        | cons l' ms' => exact .leave l l' (ih ms' (Nat.succ.inj hl))
  exact hleave s.monitors s'.monitors hlength

theorem Thread.Like.calm (h : Thread.Like forth back m n gates t t') : t.Calm ∧ t'.Calm := by
  cases h with
  | run => exact ⟨trivial, trivial⟩
  | drain => exact ⟨trivial, trivial⟩

/-- Whether the twin makes a move and the root makes one or more, which correspond to each other,
and both are side by side again. -/
inductive Proceeds (forth back : V → V) (m : Twins) (n : Nat) (body : P → Prog V P σ ε)
    (w : World V P σ ε) (t : Thread V P σ ε) (w' : World V P σ ε) (t' : Thread V P σ ε) : Prop where
  | intro {e es es' : List (Event V ε)} {w₀ w₁ w₁' : World V P σ ε} {t₀ t₁ t₁' : Thread V P σ ε} :
      Thread.Moves body w t e w₀ t₀ → t₀.Calm → CalmRun body w₀ t₀ es w₁ t₁ →
      Thread.Moves body w' t' es' w₁' t₁' → t₁'.Calm → e ++ es = es'.map (m.across back n) →
      Twin forth back m n w₁ t₁ w₁' t₁' → Proceeds forth back m n body w t w' t'

/-- What two machines that are side by side do next. -/
inductive Twin.Next (forth back : V → V) (m : Twins) (n : Nat) (body : P → Prog V P σ ε)
    (w w' : World V P σ ε) : Thread V P σ ε → Thread V P σ ε → Prop where
  | ended (v : V) : Next forth back m n body w w' ⟨.run (.ret v), []⟩ ⟨.run (.ret v), []⟩
  | panics (text : String) (st st' : List (Frame V P σ ε)) :
      Next forth back m n body w w' ⟨.run (.panic text), st⟩ ⟨.run (.panic text), st'⟩
  | proceeds {t t' : Thread V P σ ε} : Proceeds forth back m n body w t w' t' →
      Next forth back m n body w w' t t'

/-- Both make one move. -/
theorem Proceeds.one (hm : Thread.Moves body w t es w₁ t₁)
    (hm' : Thread.Moves body w' t' es' w₁' t₁') (he : es = es'.map (m.across back n)) (hstore : w₁.store = w₁'.store)
    (hthread : Thread.Like forth back m n gates t₁ t₁')
    (hworld : World.Like forth back m n gates w₁ w₁' t₁') :
    Proceeds forth back m n body w t w' t' :=
  ⟨hm, hthread.calm.1, .refl, hm', hthread.calm.2, (List.append_nil es).trans he, hstore, gates,
    hthread, hworld⟩

/-- The publisher of the twin has changed. -/
theorem World.Like.moved [LawfulBEq V] {p p' : PublisherRef}
    {s' s₁ s₁' : Publisher V (Observer V P σ ε)} {gates₁ : List MemoRef} (hm : m = .publishers p p')
    (hreg : Regular p' s' w' t') (hmove : Thread.Moves body w' t' es' w₁' t₁') (hcalm : t₁'.Calm)
    (hp : w₁.publisher? p = some s₁) (hp' : w₁'.publisher? p' = some s₁')
    (hlike : Publisher.Like forth back m n gates₁ s₁ s₁')
    (hgated : View.Move p' (t'.view p' s') (signals p' es') (t₁'.view p' s₁') →
      Gated gates₁ (t₁'.view p' s₁') w₁) : World.Like forth back m n gates₁ w₁ w₁' t₁' := by
  obtain ⟨s₂, hreg₁, hv⟩ := hreg.move hmove hcalm
  obtain rfl := Option.some.inj (hp'.symm.trans hreg₁.found)
  exact .publishers hm hp hreg₁ hlike (hgated hv)

/-- The publisher of the twin has changed without a call and without a subscription. -/
theorem World.Like.quiet [LawfulBEq V] {p p' : PublisherRef}
    {s' s₁ s₁' : Publisher V (Observer V P σ ε)} (hm : m = .publishers p p')
    (hreg : Regular p' s' w' t') (hgated : Gated gates (t'.view p' s') w)
    (hmove : Thread.Moves body w' t' es' w₁' t₁') (hcalm : t₁'.Calm)
    (hquiet : signals p' es' = [] ∨ ∃ v, signals p' es' = [.committed v])
    (hp : w₁.publisher? p = some s₁) (hp' : w₁'.publisher? p' = some s₁')
    (hlike : Publisher.Like forth back m n gates s₁ s₁') (hmemos : w₁.memos = w.memos) :
    World.Like forth back m n gates w₁ w₁' t₁' :=
  .moved hm hreg hmove hcalm hp hp' hlike fun hv =>
    (hgated.quiet hreg.sound hreg.orderly hv hcalm hquiet).same hmemos

/-- Neither the root nor its twin is touched. -/
theorem World.Like.idle [LawfulBEq V] (h : World.Like forth back m n gates w w' t')
    (hmove : Thread.Moves body w' t' es' w₁' t₁') (hcalm : t₁'.Calm)
    (hquiet : ∀ p, signals p es' = [])
    (hw : w₁.cells = w.cells ∧ w₁.publishers = w.publishers ∧ w₁.memos = w.memos)
    (hw' : w₁'.cells = w'.cells ∧ w₁'.publishers = w'.publishers) :
    World.Like forth back m n gates w₁ w₁' t₁' := by
  cases h with
  | cells hm hc hc' hvalue hstamp =>
      refine .cells hm ?_ ?_ hvalue hstamp
      · rw [World.cell?, hw.1]
        exact hc
      · rw [World.cell?, hw'.1]
        exact hc'
  | publishers hm hp hreg hlike hgated =>
      refine .quiet hm hreg hgated hmove hcalm (Or.inl (hquiet _)) ?_ ?_ hlike hw.2.2
      · rw [World.publisher?, hw.2.1]
        exact hp
      · rw [World.publisher?, hw'.2]
        exact hreg.found

/-- Both make one move that does not touch the root and its twin. -/
theorem Proceeds.idle [LawfulBEq V] (h : World.Like forth back m n gates w w' t')
    (hm : Thread.Moves body w t es w₁ t₁) (hm' : Thread.Moves body w' t' es' w₁' t₁')
    (he : es = es'.map (m.across back n)) (hquiet : ∀ p, signals p es' = [])
    (hstore : w₁.store = w₁'.store) (hthread : Thread.Like forth back m n gates t₁ t₁')
    (hw : w₁.cells = w.cells ∧ w₁.publishers = w.publishers ∧ w₁.memos = w.memos)
    (hw' : w₁'.cells = w'.cells ∧ w₁'.publishers = w'.publishers) :
    Proceeds forth back m n body w t w' t' :=
  .one hm hm' he hstore hthread (h.idle hm' hthread.calm.2 hquiet hw hw')

theorem World.Like.cell {c c' : CellRef} (h : World.Like forth back m n gates w w' t')
    (hm : m = .cells c c') : ∃ d d', w.cell? c = some d ∧ w'.cell? c' = some d' ∧
      d.value = back d'.value ∧ d.stamp = d'.stamp + n := by
  cases h with
  | cells hm' hc hc' hvalue hstamp =>
      obtain ⟨rfl, rfl⟩ := Twins.cells.inj (hm.symm.trans hm')
      exact ⟨_, _, hc, hc', hvalue, hstamp⟩
  | publishers hm' => exact nomatch hm.symm.trans hm'

theorem World.Like.publisher {p p' : PublisherRef} (h : World.Like forth back m n gates w w' t')
    (hm : m = .publishers p p') : ∃ s s', w.publisher? p = some s ∧ Regular p' s' w' t' ∧
      Publisher.Like forth back m n gates s s' ∧ Gated gates (t'.view p' s') w := by
  cases h with
  | cells hm' => exact nomatch hm.symm.trans hm'
  | publishers hm' hp hreg hlike hgated =>
      obtain ⟨rfl, rfl⟩ := Twins.publishers.inj (hm.symm.trans hm')
      exact ⟨_, _, hp, hreg, hlike, hgated⟩

/-- Both are stored to. -/
theorem World.Like.stored {c c' : CellRef} {d d' : Cell V} {v : V} (hm : m = .cells c c')
    (hc : w.cell? c = some d) (hc' : w'.cell? c' = some d') (hstamp : d.stamp = d'.stamp + n) :
    World.Like forth back m n gates (w.setCell c (d.store (back v))) (w'.setCell c' (d'.store v))
      t' :=
  .cells hm (Heap.get?_set_self _ _ _ _ hc) (Heap.get?_set_self _ _ _ _ hc') rfl
    ((congrArg Nat.succ hstamp).trans (Nat.succ_add _ _).symm)

/-- Both are about to drain. -/
theorem Proceeds.drain [LawfulBEq V] {p p' : PublisherRef} {st st' : List (Frame V P σ ε)}
    (hm : m = .publishers p p') (hstore : w.store = w'.store)
    (hst : Frames.Like forth back m n gates (Reverts back) st st')
    (hw : World.Like forth back m n gates w w' ⟨.drain p', st'⟩) :
    Proceeds forth back m n body w ⟨.drain p, st⟩ w' ⟨.drain p', st'⟩ := by
  obtain ⟨s, s', hp, hreg, hlike, hgated⟩ := hw.publisher hm
  have hret : Alike (P := P) (σ := σ) (ε := ε) forth back m (Reverts back) (.ret s.current)
      (.ret s'.current) := .ret hlike.current
  cases hd : s'.draining with
  | true =>
      have hb : s.beginDrain = none := if_pos (hlike.draining.trans hd)
      have hb' : s'.beginDrain = none := if_pos hd
      exact .idle hw (.busy hp hb) (.busy hreg.found hb') rfl (fun _ => rfl) hstore
        (.run hret hst) ⟨rfl, rfl, rfl⟩ ⟨rfl, rfl⟩
  | false =>
      have hb : s.beginDrain = some { s with draining := true } :=
        if_neg (Bool.eq_false_iff.1 (hlike.draining.trans hd))
      have hb' : s'.beginDrain = some { s' with draining := true } :=
        if_neg (Bool.eq_false_iff.1 hd)
      have hmove : Thread.Moves body w' ⟨.drain p', st'⟩ [] _ _ := .draining hreg.found hb'
      refine .one (.draining hp hb) hmove rfl hstore (.run hret (.deliver hm .nil hst)) ?_
      exact .quiet hm hreg hgated hmove trivial (Or.inl rfl) (World.publisher?_setPublisher_self hp)
        (World.publisher?_setPublisher_self hreg.found) (hlike.drain true) rfl

/-- Both call an observer, and the gate of that of the view lets the value pass. -/
theorem Proceeds.called [LawfulBEq V] {p p' : PublisherRef} {x y : V}
    {c c' : Call V (Observer V P σ ε)} {calls calls' : List (Call V (Observer V P σ ε))}
    {st st' : List (Frame V P σ ε)} (hforth : ∀ v, forth (back v) = v) (hm : m = .publishers p p')
    (hc : Call.Like forth back m n gates c c')
    (hcalls : List.Forall₂ (Call.Like forth back m n gates) calls calls')
    (hst : Frames.Like forth back m n gates (Reverts back) st st') (hstore : w.store = w'.store)
    (hw : World.Like forth back m n gates w w'
      ⟨.run (.ret y), .deliver p' (c' :: calls') :: st'⟩) :
    Proceeds forth back m n body w ⟨.run (.ret x), .deliver p (c :: calls) :: st⟩ w'
      ⟨.run (.ret y), .deliver p' (c' :: calls') :: st'⟩ := by
  obtain ⟨s, s', hp, hreg, hlike, hgated⟩ := hw.publisher hm
  obtain ⟨last, obs, hlast, hreact, hobs⟩ := hc.observer
  have hview : (⟨.run (.ret y), .deliver p' (c' :: calls') :: st'⟩ : Thread V P σ ε).view p' s' =
      ⟨s', (c' :: calls') :: Thread.due p' ⟨.run (.ret y), st'⟩, .run (.ret y)⟩ := by
    rw [Thread.view, Thread.due_cons_deliver_self]
  rw [hview] at hgated
  have hsound := hreg.sound
  rw [hview] at hsound
  -- what is handed over is news to the gate
  have hhanded : c'.value = s'.delivered := hsound.handed c' List.mem_cons_self
  obtain ⟨seen, hseen, hnew⟩ := hgated.due c'.id List.mem_cons_self last hlast
  have hany : ¬seen.any (· == c'.value) = true := by
    rw [hhanded, List.any_eq_true]
    rintro ⟨u, hu, hbeq⟩
    exact hnew (eq_of_beq hbeq ▸ hu)
  let w₁ : World V P σ ε := { w with memos := w.memos.set last.index [s'.delivered] }
  have hpass : w.perform (.memo last (Gate.pass ⟨last, forth⟩ (back c'.value))) =
      some (seen, w₁, []) := by
    rw [World.perform_memo hseen, Gate.pass]
    show some (seen, { w with
      memos := w.memos.set last.index (if seen.any (· == forth (back c'.value)) = true then _
        else [forth (back c'.value)]) }, []) = _
    rw [hforth, if_neg hany, hhanded]
  have hgate : CalmRun body w
      ⟨.run (c.observer.react c.value), .observe c.observer :: .deliver p calls :: st⟩ [] w₁
      ⟨.run (obs c'.value fun _ => .ret (back c'.value)),
        .observe c.observer :: .deliver p calls :: st⟩ := by
    have hmove : Thread.step body w
        ⟨.run (c.observer.react c.value), .observe c.observer :: .deliver p calls :: st⟩ =
        some (w₁, ⟨.run (if seen.any (· == forth (back c'.value)) then .ret (back c'.value)
          else obs (forth (back c'.value)) fun _ => .ret (back c'.value)),
            .observe c.observer :: .deliver p calls :: st⟩, []) := by
      rw [hreact, hc.value, Gate.guarding_eq]
      exact (Thread.Moves.performed hpass).step
    rw [hforth, if_neg hany] at hmove
    exact .single hmove trivial
  have hmove : Thread.Moves body w' ⟨.run (.ret y), .deliver p' (c' :: calls') :: st'⟩
      [.called p' c'.id c'.value] w' _ := .called
  refine ⟨.called, trivial, hgate, hmove, trivial, ?_, hstore, gates,
    .run (hobs c'.value) (.observe _ _ (.deliver hm hcalls hst)), ?_⟩
  · subst hm
    rw [hc.id, hc.value]
    rfl
  · refine .moved hm hreg hmove trivial hp hreg.found hlike fun _ => ?_
    rw [Thread.view, Thread.due_cons_of_calls? rfl, Thread.due_cons_deliver_self]
    exact hgated.call hsound hlast

/-- Both take the next entry of the queue, or there is none. -/
theorem Proceeds.entry [LawfulBEq V] {p p' : PublisherRef} {x y : V} {st st' : List (Frame V P σ ε)}
    (hm : m = .publishers p p') (hst : Frames.Like forth back m n gates (Reverts back) st st')
    (hstore : w.store = w'.store)
    (hw : World.Like forth back m n gates w w' ⟨.run (.ret y), .deliver p' [] :: st'⟩) :
    Proceeds forth back m n body w ⟨.run (.ret x), .deliver p [] :: st⟩ w'
      ⟨.run (.ret y), .deliver p' [] :: st'⟩ := by
  obtain ⟨s, s', hp, hreg, hlike, hgated⟩ := hw.publisher hm
  rcases hlike.pop (ε := ε) hm with ⟨hpop, hpop'⟩ |
    ⟨d, s₁, d', s₁', hpop, hpop', hrep, hcalls, hlike₁⟩
  · have hmove : Thread.Moves body w' ⟨.run (.ret y), .deliver p' [] :: st'⟩ [] _ _ :=
      .drained hreg.found hpop'
    refine .one (.drained hp hpop) hmove rfl hstore (.run (.ret hlike.current) hst) ?_
    exact .quiet hm hreg hgated hmove trivial (Or.inl rfl) (World.publisher?_setPublisher_self hp)
      (World.publisher?_setPublisher_self hreg.found) (hlike.drain false) rfl
  · have hmove : Thread.Moves body w' ⟨.run (.ret y), .deliver p' [] :: st'⟩ d'.report _ _ :=
      .popped hreg.found hpop'
    refine .one (.popped hp hpop) hmove hrep hstore
      (.run (R := Unrelated) (.ret trivial) (.deliver hm hcalls hst)) ?_
    exact .quiet hm hreg hgated hmove trivial (Or.inl (signals_report _ _))
      (World.publisher?_setPublisher_self hp) (World.publisher?_setPublisher_self hreg.found)
      hlike₁ rfl

/-- The function of a modification has come to a value. -/
theorem Proceeds.commit [LawfulBEq V] {p p' : PublisherRef} {y : V} {st st' : List (Frame V P σ ε)}
    (hforth : ∀ v, forth (back v) = v) (hm : m = .publishers p p')
    (hst : Frames.Like forth back m n gates (Reverts back) st st') (hstore : w.store = w'.store)
    (hw : World.Like forth back m n gates w w' ⟨.run (.ret y), .commit p' :: st'⟩) :
    Proceeds forth back m n body w ⟨.run (.ret (back y)), .commit p :: st⟩ w'
      ⟨.run (.ret y), .commit p' :: st'⟩ := by
  obtain ⟨s, s', hp, hreg, hlike, hgated⟩ := hw.publisher hm
  -- both write or neither does, since the conversions are inverse
  rcases hlike.commit hforth y with ⟨hc, hc'⟩ | ⟨s₁, s₁', hc, hc', hlike₁⟩
  · exact .idle hw (.amendedSame hp hc) (.amendedSame hreg.found hc') rfl (fun _ => rfl) hstore
      (.run (.ret hlike.current) hst) ⟨rfl, rfl, rfl⟩ ⟨rfl, rfl⟩
  · have hmove : Thread.Moves body w' ⟨.run (.ret y), .commit p' :: st'⟩ [.committed p' y] _ _ :=
      .amended hreg.found hc'
    refine .one (.amended hp hc) hmove ?_ hstore (.drain hm hst) ?_
    · subst hm
      rfl
    · refine .quiet hm hreg hgated hmove trivial (Or.inr ⟨y, ?_⟩)
        (World.publisher?_setPublisher_self hp) (World.publisher?_setPublisher_self hreg.found)
        hlike₁ rfl
      simp

/-- A value reaches the frame of a write that waits to be made. -/
theorem Proceeds.swapIn [LawfulBEq V] {c c' : CellRef} {y : V} {stamp a : Nat}
    {f f' : Routine V P σ ε} {st st' : List (Frame V P σ ε)} (hm : m = .cells c c')
    (hf : ∀ v, Alike forth back m (Reverts back) (f (back v)) (f' v))
    (hst : Frames.Like forth back m n gates (Reverts back) st st') (hstore : w.store = w'.store)
    (hw : World.Like forth back m n gates w w' ⟨.run (.ret y), .swapIn c' stamp a f' :: st'⟩) :
    Proceeds forth back m n body w ⟨.run (.ret (back y)), .swapIn c (stamp + n) a f :: st⟩ w'
      ⟨.run (.ret y), .swapIn c' stamp a f' :: st'⟩ := by
  obtain ⟨d, d', hc, hc', hvalue, hstamp⟩ := hw.cell hm
  -- the stamps differ by n, so both find theirs or neither does
  by_cases hs : d'.stamp = stamp
  · have hswap : d.swapIn (stamp + n) (back y) = some (d.store (back y)) :=
      if_pos (hs ▸ hstamp)
    have hswap' : d'.swapIn stamp y = some (d'.store y) := if_pos hs
    refine .one (.swapped hc hswap) (.swapped hc' hswap') rfl hstore (.run (.ret rfl) hst) ?_
    exact .stored hm hc hc' hstamp
  · have hswap : d.swapIn (stamp + n) (back y) = none :=
      if_neg fun he => hs (Nat.add_right_cancel (hstamp.symm.trans he))
    have hswap' : d'.swapIn stamp y = none := if_neg hs
    refine .idle hw (.contended hc hswap) (.contended hc' hswap') ?_ (fun _ => rfl) hstore ?_
      ⟨rfl, rfl, rfl⟩ ⟨rfl, rfl⟩
    · subst hm
      rfl
    · rw [hvalue, hstamp]
      exact .run (hf d'.value) (.swapIn d'.stamp (a + 1) hm hf hst)

/-- A value reaches the topmost frame, if there is one. -/
theorem Twin.Next.returned [LawfulBEq V] (body : P → Prog V P σ ε) {R : V → V → Prop} {x y : V}
    {st st' : List (Frame V P σ ε)} (hforth : ∀ v, forth (back v) = v) (hxy : R x y)
    (hst : Frames.Like forth back m n gates R st st') (hstore : w.store = w'.store)
    (hw : World.Like forth back m n gates w w' ⟨.run (.ret y), st'⟩) :
    Twin.Next forth back m n body w w' ⟨.run (.ret x), st⟩ ⟨.run (.ret y), st'⟩ := by
  cases hst with
  | nil =>
      obtain rfl : x = y := hxy
      exact .ended x
  | resume hk hst =>
      exact .proceeds (.idle hw .resumed .resumed rfl (fun _ => rfl) hstore (.run (hk x y hxy) hst)
        ⟨rfl, rfl, rfl⟩ ⟨rfl, rfl⟩)
  | leave l l' hst =>
      exact .proceeds (.idle hw .left .left rfl (fun _ => rfl) hstore (.run (.ret hxy) hst)
        ⟨rfl, rfl, rfl⟩ ⟨rfl, rfl⟩)
  | observe o o' hst =>
      exact .proceeds (.idle hw .observed .observed rfl (fun _ => rfl) hstore
        (.run (.ret trivial) hst) ⟨rfl, rfl, rfl⟩ ⟨rfl, rfl⟩)
  | register id hm hk hst =>
      exact .proceeds (.idle hw .registered .registered rfl (fun _ => rfl) hstore
        (.run (hk _ _) hst) ⟨rfl, rfl, rfl⟩ ⟨rfl, rfl⟩)
  | swapIn stamp a hm hf hst =>
      obtain rfl : x = back y := hxy
      exact .proceeds (.swapIn hm hf hst hstore hw)
  | commit hm hst =>
      obtain rfl : x = back y := hxy
      exact .proceeds (.commit hforth hm hst hstore hw)
  | deliver hm hcalls hst =>
      cases hcalls with
      | nil => exact .proceeds (.entry hm hst hstore hw)
      | cons hc hcalls => exact .proceeds (.called hforth hm hc hcalls hst hstore hw)

/-- Both subscribe, the view after it has laid a gate. -/
theorem Proceeds.subscribe [LawfulBEq V] {R : V → V → Prop} {p p' : PublisherRef}
    {keeps keeps' : List PublisherRef} {o : V → Act V P σ ε Unit} {o' : Routine V P σ ε}
    {k k' : SubscriptionRef → Prog V P σ ε} {st st' : List (Frame V P σ ε)}
    (hm : m = .publishers p p')
    (ho : ∀ v, Alike forth back m Unrelated (o v fun _ => .ret (back v)) (o' v))
    (hk : ∀ d d', Alike forth back m R (k d) (k' d'))
    (hst : Frames.Like forth back m n gates R st st') (hstore : w.store = w'.store)
    (hw : World.Like forth back m n gates w w' ⟨.run (.attach p' keeps' o' k'), st'⟩) :
    Proceeds forth back m n body w
      ⟨.run (.atom (.newMemo []) fun (last : MemoRef) =>
        .attach p keeps (Gate.guarding ⟨last, forth⟩ o) k), st⟩
      w' ⟨.run (.attach p' keeps' o' k'), st'⟩ := by
  obtain ⟨s, s', hp, hreg, hlike, hgated⟩ := hw.publisher hm
  let last : MemoRef := ⟨w.memos.size⟩
  let w₀ : World V P σ ε := { w with memos := w.memos.alloc [] }
  have hlaid : w.perform (.newMemo []) = some (last, w₀, []) := rfl
  have hp₀ : w₀.publisher? p = some s := hp
  have hlength : gates.length = s'.nextId := hgated.length
  have hlast : (gates ++ [last])[s'.nextId]? = some last := by
    rw [← hlength, List.getElem?_concat_length]
  have hlike₁ : Publisher.Like forth back m n (gates ++ [last])
      (s.enqueue ⟨Gate.guarding ⟨last, forth⟩ o, keeps⟩) (s'.enqueue ⟨o', keeps'⟩) :=
    hlike.enqueue last ⟨last, o, hlast, rfl, ho⟩
  have hmove : Thread.Moves body w' ⟨.run (.attach p' keeps' o' k'), st'⟩
      [.queued p' s'.nextId] _ _ := .attached hreg.found
  refine ⟨.performed hlaid, trivial, .single (Thread.Moves.attached hp₀).step trivial, hmove,
    trivial, ?_, ?_, gates ++ [last], .drain hm ?_, ?_⟩
  · subst hm
    rw [hlike.nextId]
    rfl
  · rw [World.enterAll_eq, World.enterAll_eq]
    exact hstore
  · rw [hlike.nextId]
    exact .leaving hlike.monitors (.register _ hm hk (hst.mono last))
  · refine .moved hm hreg hmove trivial ?_ ?_ hlike₁ fun _ => ?_
    · exact World.publisher?_enterAll_setPublisher hp₀
    · exact World.publisher?_enterAll_setPublisher hreg.found
    · rw [Thread.view, Thread.due_leaving, Thread.due_cons_of_calls? rfl]
      refine Gated.same (hgated.enqueue hreg.sound) ?_
      rw [World.enterAll_eq]
      rfl

/-- Both are written to. -/
theorem Proceeds.publish [LawfulBEq V] {R : V → V → Prop} {p p' : PublisherRef} (v : V)
    {k k' : Prog V P σ ε} {st st' : List (Frame V P σ ε)} (hforth : ∀ v, forth (back v) = v)
    (hm : m = .publishers p p') (hk : Alike forth back m R k k')
    (hst : Frames.Like forth back m n gates R st st') (hstore : w.store = w'.store)
    (hw : World.Like forth back m n gates w w' ⟨.run (.publish p' v k'), st'⟩) :
    Proceeds forth back m n body w ⟨.run (.publish p (back v) k), st⟩ w'
      ⟨.run (.publish p' v k'), st'⟩ := by
  obtain ⟨s, s', hp, hreg, hlike, hgated⟩ := hw.publisher hm
  have hstack : Frames.Like forth back m n gates (Reverts back)
      (s.leaving ++ .resume (fun _ => k) :: st) (s'.leaving ++ .resume (fun _ => k') :: st') :=
    .leaving hlike.monitors (.resume (fun _ _ _ => hk) hst)
  rcases hlike.commit hforth v with ⟨hc, hc'⟩ | ⟨s₁, s₁', hc, hc', hlike₁⟩
  · refine .idle hw (.publishedSame hp hc) (.publishedSame hreg.found hc') rfl (fun _ => rfl) ?_
      (.run (.ret hlike.current) hstack) ?_ ?_
    all_goals rw [World.enterAll_eq]
    · rw [World.enterAll_eq]
      exact hstore
    · exact ⟨rfl, rfl, rfl⟩
    · exact ⟨rfl, rfl⟩
  · have hmove : Thread.Moves body w' ⟨.run (.publish p' v k'), st'⟩ [.committed p' v] _ _ :=
      .published hreg.found hc'
    refine .one (.published hp hc) hmove ?_ ?_ (.drain hm hstack) ?_
    · subst hm
      rfl
    · simp only [World.enterAll_eq]
      exact hstore
    · refine .quiet hm hreg hgated hmove trivial (Or.inr ⟨v, ?_⟩)
        (World.publisher?_enterAll_setPublisher hp)
        (World.publisher?_enterAll_setPublisher hreg.found)
        hlike₁ ?_
      · simp
      · rw [World.enterAll_eq]
        rfl

/-- Both begin a modification. -/
theorem Proceeds.amend [LawfulBEq V] {R : V → V → Prop} {p p' : PublisherRef}
    {f f' k k' : Routine V P σ ε} {st st' : List (Frame V P σ ε)} (hm : m = .publishers p p')
    (hf : ∀ v, Alike forth back m (Reverts back) (f (back v)) (f' v))
    (hk : ∀ v, Alike forth back m R (k (back v)) (k' v))
    (hst : Frames.Like forth back m n gates R st st') (hstore : w.store = w'.store)
    (hw : World.Like forth back m n gates w w' ⟨.run (.amend p' f' k'), st'⟩) :
    Proceeds forth back m n body w ⟨.run (.amend p f k), st⟩ w'
      ⟨.run (.amend p' f' k'), st'⟩ := by
  obtain ⟨s, s', hp, hreg, hlike, -⟩ := hw.publisher hm
  have hrest : Frames.Like forth back m n gates (Reverts back) (.resume k :: st)
      (.resume k' :: st') := by
    refine .resume ?_ hst
    rintro x y rfl
    exact hk y
  refine .idle hw (.amending hp) (.amending hreg.found) rfl (fun _ => rfl) ?_
    (.run (hlike.current ▸ hf s'.current) (.commit hm (.leaving hlike.monitors hrest))) ?_ ?_
  all_goals rw [World.enterAll_eq]
  · rw [World.enterAll_eq]
    exact hstore
  · exact ⟨rfl, rfl, rfl⟩
  · exact ⟨rfl, rfl⟩

/-- Both perform an operation that leaves a root and its twin alone. -/
theorem Proceeds.untouched [LawfulBEq V] {R : V → V → Prop} {a a' : Atom V σ ε} {x : a.Answer}
    {x' : a'.Answer} {k : a.Answer → Prog V P σ ε} {k' : a'.Answer → Prog V P σ ε}
    {st st' : List (Frame V P σ ε)} (ha : w.perform a = some (x, w₁, es))
    (ha' : w'.perform a' = some (x', w₁', es')) (he : es = es'.map (m.across back n))
    (hk : Alike forth back m R (k x) (k' x')) (hst : Frames.Like forth back m n gates R st st')
    (hstore : w₁.store = w₁'.store)
    (hw : World.Like forth back m n gates w w' ⟨.run (.atom a' k'), st'⟩)
    (hsame : w₁.cells = w.cells ∧ w₁.publishers = w.publishers ∧ w₁.memos = w.memos)
    (hsame' : w₁'.cells = w'.cells ∧ w₁'.publishers = w'.publishers) :
    Proceeds forth back m n body w ⟨.run (.atom a k), st⟩ w' ⟨.run (.atom a' k'), st'⟩ :=
  .idle hw (.performed ha) (.performed ha') he (fun p => signals_perform p ha') hstore
    (.run hk hst) hsame hsame'

/-- Both perform an operation that stores to a root and its twin. -/
theorem Proceeds.stored {R : V → V → Prop} {a a' : Atom V σ ε} {x : a.Answer}
    {x' : a'.Answer} {k : a.Answer → Prog V P σ ε} {k' : a'.Answer → Prog V P σ ε}
    {st st' : List (Frame V P σ ε)} {c c' : CellRef} {d d' : Cell V} {v : V}
    (hm : m = .cells c c') (hc : w.cell? c = some d) (hc' : w'.cell? c' = some d')
    (hstamp : d.stamp = d'.stamp + n)
    (ha : w.perform a = some (x, w.setCell c (d.store (back v)), []))
    (ha' : w'.perform a' = some (x', w'.setCell c' (d'.store v), []))
    (hk : Alike forth back m R (k x) (k' x')) (hst : Frames.Like forth back m n gates R st st')
    (hstore : w.store = w'.store) :
    Proceeds forth back m n body w ⟨.run (.atom a k), st⟩ w' ⟨.run (.atom a' k'), st'⟩ :=
  .one (.performed ha) (.performed ha') rfl hstore (.run hk hst) (.stored hm hc hc' hstamp)

/-- Both compare and set. -/
theorem Proceeds.exchange [LawfulBEq V] {R : V → V → Prop} {c c' : CellRef} {u v : V}
    {d d' : Cell V} {k k' : Bool → Prog V P σ ε} {st st' : List (Frame V P σ ε)}
    (hforth : ∀ v, forth (back v) = v) (hm : m = .cells c c') (hc : w.cell? c = some d)
    (hc' : w'.cell? c' = some d') (hvalue : d.value = back d'.value)
    (hstamp : d.stamp = d'.stamp + n) (hk : ∀ b, Alike forth back m R (k b) (k' b))
    (hst : Frames.Like forth back m n gates R st st') (hstore : w.store = w'.store)
    (hw : World.Like forth back m n gates w w' ⟨.run (.atom (.exchange c' u v) k'), st'⟩) :
    Proceeds forth back m n body w ⟨.run (.atom (.exchange c (back u) (back v)) k), st⟩ w'
      ⟨.run (.atom (.exchange c' u v) k'), st'⟩ := by
  have hbeq : (d.value == back u) = (d'.value == u) := by
    rw [hvalue]
    exact beq_back hforth _ _
  by_cases hu : (d'.value == u) = true
  · have ha : w.perform (.exchange c (back u) (back v)) =
        some (true, w.setCell c (d.store (back v)), []) := by
      simp only [World.perform, hc, Cell.exchange, hbeq, hu, Option.map_some]
      rfl
    have ha' : w'.perform (.exchange c' u v) = some (true, w'.setCell c' (d'.store v), []) := by
      simp only [World.perform, hc', Cell.exchange, hu, Option.map_some]
      rfl
    exact .stored hm hc hc' hstamp ha ha' (hk true) hst hstore
  · have ha : w.perform (.exchange c (back u) (back v)) = some (false, w, []) := by
      simp only [World.perform, hc, Cell.exchange, hbeq, hu, Option.map_some]
      rfl
    have ha' : w'.perform (.exchange c' u v) = some (false, w', []) := by
      simp only [World.perform, hc', Cell.exchange, hu, Option.map_some]
      rfl
    exact .untouched ha ha' rfl (hk false) hst hstore hw ⟨rfl, rfl, rfl⟩ ⟨rfl, rfl⟩

/-- Both make the next move, or both have come to the same value, or both panic. -/
theorem Twin.next [LawfulBEq V] (body : P → Prog V P σ ε) (hforth : ∀ v, forth (back v) = v)
    (h : Twin forth back m n w t w' t') : Twin.Next forth back m n body w w' t t' := by
  obtain ⟨hstore, gates, hthread, hw⟩ := h
  cases hthread with
  | drain hm hst => exact .proceeds (.drain hm hstore hst hw)
  | @run R c c' st st' hc hst =>
    cases hc with
    | ret hxy => exact .returned body hforth hxy hst hstore hw
    | panic text => exact .panics text st st'
    | own f hk =>
        have ha : w.perform (.own f) = some (w.store, { w with store := f w.store }, []) := rfl
        have ha' : w'.perform (.own f) = some (w'.store, { w' with store := f w'.store }, []) := rfl
        refine .proceeds (.untouched ha ha' rfl ?_ hst (congrArg f hstore) hw
          ⟨rfl, rfl, rfl⟩ ⟨rfl, rfl⟩)
        exact hstore ▸ hk w.store
    | tell e hk =>
        have ha : w.perform (.tell e) = some ((), w, [.note e]) := rfl
        have ha' : w'.perform (.tell e) = some ((), w', [.note e]) := rfl
        refine .proceeds (.untouched ha ha' ?_ hk hst hstore hw ⟨rfl, rfl, rfl⟩ ⟨rfl, rfl⟩)
        cases m <;> rfl
    | hold hb hk =>
        exact .proceeds (.idle hw .held .held rfl (fun _ => rfl) hstore
          (.run hb (.leave _ _ (.resume hk hst))) ⟨rfl, rfl, rfl⟩ ⟨rfl, rfl⟩)
    | load hm hk =>
        obtain ⟨d, d', hc, hc', hvalue, -⟩ := hw.cell hm
        refine .proceeds (.untouched (congrArg (Option.map _) hc) (congrArg (Option.map _) hc')
          rfl ?_ hst hstore hw ⟨rfl, rfl, rfl⟩ ⟨rfl, rfl⟩)
        exact hvalue ▸ hk d'.value
    | store v hm hk =>
        obtain ⟨d, d', hc, hc', -, hstamp⟩ := hw.cell hm
        exact .proceeds (.stored hm hc hc' hstamp (congrArg (Option.map _) hc)
          (congrArg (Option.map _) hc') hk hst hstore)
    | swap v hm hk =>
        obtain ⟨d, d', hc, hc', hvalue, hstamp⟩ := hw.cell hm
        refine .proceeds (.stored hm hc hc' hstamp (congrArg (Option.map _) hc)
          (congrArg (Option.map _) hc') ?_ hst hstore)
        exact hvalue ▸ hk d'.value
    | exchange u v hm hk =>
        obtain ⟨d, d', hc, hc', hvalue, hstamp⟩ := hw.cell hm
        exact .proceeds (.exchange hforth hm hc hc' hvalue hstamp hk hst hstore hw)
    | retry hm hf hk =>
        obtain ⟨d, d', hc, hc', hvalue, hstamp⟩ := hw.cell hm
        have hrest : Frames.Like forth back m n gates (Reverts back) (.resume _ :: st)
            (.resume _ :: st') := .resume (fun x y (hxy : x = back y) => hxy ▸ hk y) hst
        refine .proceeds (.idle hw (.retried hc) (.retried hc') rfl (fun _ => rfl) hstore ?_
          ⟨rfl, rfl, rfl⟩ ⟨rfl, rfl⟩)
        rw [hvalue, hstamp]
        exact .run (hf d'.value) (.swapIn d'.stamp 0 hm hf hrest)
    | current hm hk =>
        obtain ⟨s, s', hp, hreg, hlike, -⟩ := hw.publisher hm
        refine .proceeds (.untouched (World.perform_current hp)
          (World.perform_current hreg.found) rfl ?_ hst hstore hw ⟨rfl, rfl, rfl⟩ ⟨rfl, rfl⟩)
        exact hlike.current ▸ hk s'.current
    | publish v hm hk => exact .proceeds (.publish v hforth hm hk hst hstore hw)
    | amend hm hf hk => exact .proceeds (.amend hm hf hk hst hstore hw)
    | subscribe hm ho hk => exact .proceeds (.subscribe hm ho hk hst hstore hw)

end Moves

/-! ## Whole runs of both -/

/-- Whether a program comes to a value without a panic, what happens on the way and which store it
leaves. -/
def Prog.Yields (body : P → Prog V P σ ε) (w : World V P σ ε) (c : Prog V P σ ε)
    (es : List (Event V ε)) (v : V) (store : σ) : Prop :=
  ∃ w', CalmRun body w (.start c) es w' ⟨.run (.ret v), []⟩ ∧ w'.store = store

section Runs

variable [LawfulBEq V] {body : P → Prog V P σ ε} {w w' w₁ w₁' : World V P σ ε}
  {t t' t₁ t₁' : Thread V P σ ε} {es es' : List (Event V ε)}

/-- As far as the twin comes, the root comes. -/
theorem Twin.follow (hforth : ∀ v, forth (back v) = v) (h : Twin forth back m n w t w' t')
    (hrun : CalmRun body w' t' es' w₁' t₁') :
    ∃ w₁ t₁, CalmRun body w t (es'.map (m.across back n)) w₁ t₁ ∧
      Twin forth back m n w₁ t₁ w₁' t₁' := by
  induction hrun with
  | refl => exact ⟨w, t, .refl, h⟩
  | next _ _ hc => exact hc.elim
  | step _ hstep hcalm ih =>
      obtain ⟨w₂, t₂, hroot, htwin⟩ := ih
      cases htwin.next body hforth with
      | ended v => exact nomatch hstep
      | panics text st st' =>
          cases hstep
          exact hcalm.elim
      | proceeds hnext =>
          obtain ⟨hm, hc, hmore, hm', -, he, htwin⟩ := hnext
          cases hm'.step.symm.trans hstep
          rw [List.map_append, ← he]
          exact ⟨_, _, hroot.trans (.cons hm.step hc hmore), htwin⟩

/-- As far as the root comes it has come as far as the twin, or will soon have. -/
theorem Twin.lead (hforth : ∀ v, forth (back v) = v) (h : Twin forth back m n w t w' t')
    (hcalm : t.Calm) (hrun : CalmRun body w t es w₁ t₁) :
    Soon body (fun es w₁ t₁ => ∃ es' w₁' t₁', CalmRun body w' t' es' w₁' t₁' ∧
      es = es'.map (m.across back n) ∧ Twin forth back m n w₁ t₁ w₁' t₁') es w₁ t₁ := by
  refine (Soon.run (.now ⟨[], w', t', .refl, rfl, h⟩) hcalm hrun ?_).1
  rintro _ w t es₁ w₁ t₁ ⟨es', w', t', hrun', rfl, htwin⟩ - hm hcalm₁
  cases htwin.next body hforth with
  | ended v => exact nomatch hm.step
  | panics text st st' =>
      cases hm
      exact hcalm₁.elim
  | proceeds hnext =>
      obtain ⟨hm₁, -, hmore, hm', hc', he, htwin⟩ := hnext
      cases hm₁.step.symm.trans hm.step
      refine .of_run hmore (.now ⟨_, _, _, hrun'.trans (.single hm'.step hc'), ?_, htwin⟩)
      rw [List.map_append, ← he, List.append_assoc]

/-- A program comes to a value on the root of a view if and only if the one that it is like comes to
the same value on the twin. They leave the same store, and the events correspond to each other. -/
theorem Twin.yields_iff {c c' : Prog V P σ ε} {u : V} {store : σ}
    (hforth : ∀ v, forth (back v) = v)
    (h : Twin forth back m n w (.start c) w' (.start c')) :
    c.Yields body w es u store ↔
      ∃ es', es = es'.map (m.across back n) ∧ c'.Yields body w' es' u store := by
  constructor
  · rintro ⟨w₁, hrun, rfl⟩
    obtain ⟨es', w₁', t₁', hrun', rfl, htwin⟩ :=
      (h.lead hforth trivial hrun).ended (Thread.step_of_outcome rfl)
    cases htwin.next body hforth with
    | ended => exact ⟨es', rfl, w₁', hrun', htwin.store.symm⟩
    | proceeds hnext =>
        obtain ⟨hm, -⟩ := hnext
        exact nomatch hm.step
  · rintro ⟨es', rfl, w₁', hrun', rfl⟩
    obtain ⟨w₁, t₁, hrun, htwin⟩ := h.follow hforth hrun'
    cases htwin.next body hforth with
    | ended => exact ⟨w₁, hrun, htwin.store⟩
    | proceeds hnext =>
        obtain ⟨-, -, -, hm', -⟩ := hnext
        exact nomatch hm'.step

end Runs

end ReactiveCells
