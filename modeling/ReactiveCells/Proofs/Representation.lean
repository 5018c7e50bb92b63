import ReactiveCells.Proofs.Handles
import ReactiveCells.Proofs.Handover
import ReactiveCells.Proofs.Lapses
import ReactiveCells.Proofs.Scope

/-!
# Representation — what the fields of a publisher say of each other

A publisher keeps the value held, the value delivered last, the observers, the queue, a mark for
drains and a counter, and each operation on it changes some of them. Whatever threads do between
these operations, the fields fit together, as long as no panic ends a drain: the queue leads from
the value delivered last to the one held, without a step that changes nothing, and observers stand
in line under increasing numbers.

When nobody drains, the queue can still hold something: it was put there by calls that are about to
drain. The newest entry belongs to one of them. It cannot be overtaken by a removal: an observer is
removed by its subscription, and whoever subscribes gets that after the drain. So a number is held
by one registration or one subscription at a time, in all threads together (`Crowd.Apart`).

Main statements: `Represented.move` (what one move of one thread keeps) and
`publisher_representation`.
-/

namespace ReactiveCells

variable {ι V P σ ε : Type}

/-! ## One publisher -/

/-- What the events tell of an entry that is queued. -/
def Pending.signal {O : Type} : Pending V O → Signal V
  | .emit v => .committed v
  | .attach r => .queued r.id

namespace View

variable [BEq V] {p : PublisherRef} {x x' : View V P σ ε} {l : List (Signal V)}

/-- Unless a drain is in progress afterwards, a move queues an entry in order to drain, or nothing
is queued any more, or it queues nothing and takes away at most an observer that it removes. -/
theorem Move.queue_cases (hm : Move p x l x') (hdue : x.due ≠ [] → x.state.draining = true)
    (hrest : x'.state.draining = false) :
    (∃ e, l = [e.signal] ∧ x'.state.pending = x.state.pending ++ [e] ∧ x'.focus = .drain p) ∨
      x'.state.pending = [] ∨
      ((∀ e : Pending V (Observer V P σ ε), l ≠ [e.signal]) ∧ x.focus ≠ .drain p ∧
        x.state.draining = false ∧
        x'.state.pending = x.state.pending.filter fun e => e.id?.all (· ∉ removed l)) := by
  have drains : ∀ {calls : List (Call V (Observer V P σ ε))} {due}, x.due = calls :: due →
      x.state.draining = true := fun he => hdue (he ▸ List.cons_ne_nil _ _)
  cases hm with
  | @other s due f f' hf hf' =>
      refine Or.inr (Or.inr ⟨nofun, hf, hrest, ?_⟩)
      refine (List.filter_eq_self.2 fun e _ => ?_).symm
      cases e <;> rfl
  | @commit s s' due f v hf hc =>
      obtain rfl := Publisher.commit_eq_some hc
      exact Or.inl ⟨.emit v, rfl, rfl, rfl⟩
  | @enqueue s due f o hf => exact Or.inl ⟨.attach ⟨s.nextId, o⟩, rfl, rfl, rfl⟩
  | start hb =>
      obtain ⟨-, rfl⟩ := Publisher.beginDrain_eq_some hb
      exact nomatch hrest
  | busy hb => exact nomatch hrest.symm.trans (Publisher.beginDrain_eq_none hb)
  | call => exact nomatch hrest.symm.trans (drains rfl)
  | pop hp => exact nomatch hrest.symm.trans ((Publisher.pop_draining hp).trans (drains rfl))
  | @finish s due v hp => exact Or.inr (Or.inl ((Publisher.pop_eq_none_iff s).1 hp))
  | @detach s due f f' id hf hf' =>
      refine Or.inr (Or.inr ⟨?_, hf, hrest, ?_⟩)
      · rintro (v | r) h <;> exact nomatch h
      · refine List.filter_congr fun e _ => ?_
        cases e with
        | emit v => rfl
        | attach r => by_cases hr : r.id = id <;> simp [Pending.id?, removed, Signal.removal?, hr]
  | abandon => exact Or.inr (Or.inl rfl)

end View

/-! ## Who holds a number -/

namespace Crowd

/-- In all threads together a number is held once, by a registration or by a subscription, and all
numbers held are below `n`. -/
structure Apart (p : PublisherRef) (n : Nat) (c : Crowd ι V P σ ε) : Prop where
  nodup : ∀ i, (c.world.taken p (c.threads i)).Nodup
  apart : ∀ i j, i ≠ j → ∀ id ∈ (c.threads i).registering p, id ∉ (c.threads j).registering p
  bound : ∀ i, ∀ id ∈ c.world.taken p (c.threads i), id < n

/-- No thread has anything to do with a publisher, and nobody holds a number of it. -/
structure Unaware (p : PublisherRef) (c : Crowd ι V P σ ε) : Prop where
  settled : ∀ i, (c.threads i).Settled p
  taken : ∀ i, c.world.taken p (c.threads i) = []

variable [DecidableEq ι] [BEq V] {body : P → Prog V P σ ε} {p : PublisherRef}
  {c c' : Crowd ι V P σ ε} {i : ι} {w : World V P σ ε} {t : Thread V P σ ε}
  {es : List (Event V ε)}

omit [DecidableEq ι] in
/-- What a thread is registering is none of the numbers that another thread has removed or holds
after a move. -/
theorem Apart.other {n : Nat} {j : ι} {id : Nat} (h : Apart p n c)
    (hm : Thread.Moves body c.world (c.threads i) es w t)
    (hnew : ∀ id ∈ subscribed (signals p es), id = n) (hj : j ≠ i)
    (hid : id ∈ (c.threads j).registering p) : id ∉ removed (signals p es) ++ w.taken p t := by
  intro hmem
  have htally : id ∈ subscribed (signals p es) ++ c.world.taken p (c.threads i) := by
    refine hm.tally.subset ?_
    rw [List.append_assoc]
    exact List.mem_append_right _ hmem
  rcases List.mem_append.1 htally with hsub | hold
  · have hlt := h.bound j id (List.mem_append_left _ hid)
    exact Nat.ne_of_lt hlt (hnew id hsub)
  · rcases List.mem_append.1 hold with hreg | hhandle
    · exact h.apart j i hj id hid hreg
    · exact (List.nodup_append.1 (h.nodup j)).2.2 id hid id hhandle rfl

/-- A number that is queued is new, and all others are handed on within a thread. -/
theorem Apart.move {n n' : Nat} (h : Apart p n c)
    (hm : Thread.Moves body c.world (c.threads i) es w t)
    (hnext : (subscribed (signals p es) = [] ∧ n' = n) ∨
      (subscribed (signals p es) = [n] ∧ n' = n + 1)) : Apart p n' (c.put i w t) := by
  have hnew : ∀ id ∈ subscribed (signals p es), id = n ∧ n' = n + 1 := by
    intro id hid
    rcases hnext with ⟨hnone, -⟩ | ⟨hone, hn⟩
    · exact absurd (hnone ▸ hid) List.not_mem_nil
    · exact ⟨List.mem_singleton.1 (hone ▸ hid), hn⟩
  have hle : n ≤ n' := by
    rcases hnext with ⟨-, he⟩ | ⟨-, he⟩ <;> omega
  have htally := hm.tally (p := p)
  have hnodup : (w.taken p t).Nodup := by
    refine (htally.nodup_iff.2 (List.nodup_append.2 ⟨?_, h.nodup i, ?_⟩)).of_append_right
    · rcases hnext with ⟨he, -⟩ | ⟨he, -⟩ <;> rw [he]
      · exact List.nodup_nil
      · exact List.nodup_singleton n
    · rintro id hid _ hold rfl
      exact Nat.ne_of_lt (h.bound i id hold) (hnew id hid).1
  -- what this thread holds now it held before, or it is the number just given out
  have hother : ∀ j, j ≠ i → ∀ id ∈ (c.threads j).registering p, id ∉ w.taken p t :=
    fun j hj id hid hmem =>
      h.other hm (fun id hid => (hnew id hid).1) hj hid (List.mem_append_right _ hmem)
  have hself : ∀ id ∈ w.taken p t, id < n' := by
    intro id hid
    rcases List.mem_append.1 (htally.subset (List.mem_append_right _ hid)) with hsub | hold
    · obtain ⟨rfl, hn⟩ := hnew id hsub
      omega
    · exact Nat.lt_of_lt_of_le (h.bound i id hold) hle
  constructor
  case nodup =>
    refine forall_threads_put (q := fun _ t => (World.taken p w t).Nodup) hnodup fun j hj => ?_
    refine List.nodup_append.2 ⟨(List.nodup_append.1 (h.nodup j)).1,
      (List.nodup_append.1 hnodup).2.1, ?_⟩
    rintro id hid _ hhandle rfl
    exact hother j hj id hid (List.mem_append_right _ hhandle)
  case apart =>
    intro j k hjk id hid
    by_cases hj : j = i
    · subst hj
      rw [threads_put_self] at hid
      rw [threads_put_ne (Ne.symm hjk)]
      exact fun hk => hother k (Ne.symm hjk) id hk (List.mem_append_left _ hid)
    · rw [threads_put_ne hj] at hid
      by_cases hk : k = i
      · subst hk
        rw [threads_put_self]
        exact fun hreg => hother j hj id hid (List.mem_append_left _ hreg)
      · rw [threads_put_ne hk]
        exact h.apart j k hjk id hid
  case bound =>
    refine forall_threads_put (q := fun _ t => ∀ id ∈ World.taken p w t, id < n') hself
      fun j _ id hid => ?_
    rcases List.mem_append.1 hid with hreg | hhandle
    · exact Nat.lt_of_lt_of_le (h.bound j id (List.mem_append_left _ hreg)) hle
    · exact hself id (List.mem_append_right _ hhandle)

omit [BEq V] in
/-- A thread that has ended registers nobody, and so does one that has just started. -/
theorem Apart.next {n : Nat} {o : Outcome V} (h : Apart p n c)
    (hend : (c.threads i).outcome? = some o) (b : Prog V P σ ε) :
    Apart p n (c.put i c.world (.start b)) := by
  have hstack : (c.threads i).stack = [] := Thread.stack_of_outcome hend
  have hsame : ∀ j, ((c.put i c.world (.start b)).threads j).registering p =
      (c.threads j).registering p :=
    forall_threads_put (q := fun j t => t.registering p = (c.threads j).registering p)
      (congrArg (List.filterMap _) hstack.symm) fun _ _ => rfl
  have htaken : ∀ j, c.world.taken p ((c.put i c.world (.start b)).threads j) =
      c.world.taken p (c.threads j) := fun j => congrArg (· ++ _) (hsame j)
  refine ⟨fun j => ?_, fun j k hjk => ?_, fun j => ?_⟩
  · exact (htaken j).symm ▸ h.nodup j
  · rw [hsame, hsame]
    exact h.apart j k hjk
  · exact (htaken j).symm ▸ h.bound j

end Crowd

/-! ## Who has queued what waits -/

/-- A move of one of several threads, and the crowd that it was made in. -/
structure Turn (ι V P σ ε : Type) where
  mover : ι
  crowd : Crowd ι V P σ ε
  events : List (Event V ε)

/-- Whether a move queues an entry at a publisher. -/
def Turn.Queues (p : PublisherRef) (e : Pending V (Observer V P σ ε)) (m : Turn ι V P σ ε) :
    Prop :=
  signals p m.events = [e.signal]

/-- Whether an entry is the newest that was queued at a publisher, and the call of the thread that
queued it has not reached its drain: that thread has made no move since. The latest move comes
first. -/
inductive Awaits (p : PublisherRef) (i : ι) (e : Pending V (Observer V P σ ε)) :
    List (Turn ι V P σ ε) → Prop where
  | queued {m : Turn ι V P σ ε} {past : List (Turn ι V P σ ε)} :
      m.mover = i → m.Queues p e → Awaits p i e (m :: past)
  | waits {m : Turn ι V P σ ε} {past : List (Turn ι V P σ ε)} :
      m.mover ≠ i → (∀ e', ¬ m.Queues p e') → Awaits p i e past → Awaits p i e (m :: past)

/-- Whoever queues an observer is registering it. -/
theorem Thread.Moves.registers [BEq V] {body : P → Prog V P σ ε} {p : PublisherRef}
    {w w' : World V P σ ε} {t t' : Thread V P σ ε} {es : List (Event V ε)}
    {e : Pending V (Observer V P σ ε)} (hm : Moves body w t es w' t')
    (he : signals p es = [e.signal]) : ∀ id ∈ e.id?, id ∈ t'.registering p := by
  intro id hid
  obtain v | r := e
  · exact nomatch hid
  · obtain rfl : r.id = id := Option.some.inj hid
    have hq : .queued r.id ∈ signals p es := he ▸ List.mem_singleton_self _
    obtain ⟨f, st⟩ := t
    obtain ⟨keeps, o, k, rfl⟩ := hm.queues hq
    cases hm with
    | @attached _ _ _ _ s _ hs =>
        have hnumber : s.nextId = r.id := by
          simpa [Pending.signal] using he
        rw [Thread.registering_leaving, Thread.registering_cons, ← hnumber]
        exact List.mem_append_left _ (by simp [Frame.registering?])

namespace Crowd

variable [DecidableEq ι] [BEq V] {body : P → Prog V P σ ε} {ok : Thread V P σ ε → Prop}
  {starts : Prog V P σ ε → Prop} {p : PublisherRef} {c₀ c c' : Crowd ι V P σ ε} {i : ι}
  {es : List (Event V ε)} {past : List (Turn ι V P σ ε)} {s : Publisher V (Observer V P σ ε)}

/-- What leads from one crowd to another, with all moves made on the way, the latest first. Every
thread that moves satisfies `ok`. -/
inductive Path (body : P → Prog V P σ ε) (ok : Thread V P σ ε → Prop) (c₀ : Crowd ι V P σ ε) :
    List (Turn ι V P σ ε) → Crowd ι V P σ ε → Prop where
  | refl : Path body ok c₀ [] c₀
  | step {past : List (Turn ι V P σ ε)} {c c' : Crowd ι V P σ ε} {i : ι}
      {es : List (Event V ε)} :
      Path body ok c₀ past c → ok (c.threads i) → Step body c i es c' →
      Path body ok c₀ (⟨i, c, es⟩ :: past) c'
  /-- A thread has ended and starts another program. -/
  | next {past : List (Turn ι V P σ ε)} {c : Crowd ι V P σ ε} {i : ι} {o : Outcome V}
      (b : Prog V P σ ε) :
      Path body ok c₀ past c → (c.threads i).outcome? = some o →
      Path body ok c₀ past (c.put i c.world (.start b))

/-- Every run has taken a path. -/
theorem Run.path (h : Run body starts ok c₀ es c) :
    ∃ past, Path body ok c₀ past c ∧ past.reverse.flatMap (·.events) = es := by
  induction h with
  | refl => exact ⟨[], .refl, rfl⟩
  | @step es es' c c' i _ hok hstep ih =>
      obtain ⟨past, hpath, rfl⟩ := ih
      exact ⟨⟨i, c, es'⟩ :: past, hpath.step hok hstep, by simp⟩
  | next _ hend _ ih =>
      obtain ⟨past, hpath, htold⟩ := ih
      exact ⟨past, hpath.next _ hend, htold⟩

/-- A publisher in the middle of what threads do: the invariant behind its representation. -/
structure Represented (p : PublisherRef) (past : List (Turn ι V P σ ε))
    (s : Publisher V (Observer V P σ ε)) (c : Crowd ι V P σ ε) : Prop where
  shared : ∃ v ls due, Shared p v ls s due c
  alternates : s.Alternates
  apart : Apart p s.nextId c
  /-- What nobody drains was queued by a thread that is about to drain. -/
  newest : s.pending ≠ [] → s.draining = false →
    ∃ i e, s.pending.getLast? = some e ∧ Awaits p i e past ∧ (c.threads i).focus = .drain p ∧
      ∀ id ∈ e.id?, id ∈ (c.threads i).registering p

omit [DecidableEq ι] in
/-- Whoever has calls due drains. -/
theorem Shared.draining {v : V} {ls : List (Signal V)}
    {due : List (List (Call V (Observer V P σ ε)))} (h : Shared p v ls s due c)
    (hi : (c.threads i).due p ≠ []) : s.draining = true := by
  have hdue : due ≠ [] := by
    rcases h.led.all i with hnone | hall
    · exact absurd hnone hi
    · exact hall ▸ hi
  obtain ⟨calls, due₁, rfl⟩ := List.exists_cons_of_ne_nil hdue
  exact ((h.single (.drain p)).only rfl).1

omit [DecidableEq ι] in
/-- A publisher that is marked is being drained by somebody. -/
theorem Shared.somebody {v : V} {ls : List (Signal V)}
    {due : List (List (Call V (Observer V P σ ε)))} (h : Shared p v ls s due c)
    (hd : s.draining = true) : ∃ i, (c.threads i).due p ≠ [] := by
  have hdue : due ≠ [] := by
    intro he
    exact Bool.false_ne_true (((h.single (.drain p)).resting he).symm.trans hd)
  obtain ⟨i, hi⟩ := h.led.somebody hdue
  exact ⟨i, hi ▸ hdue⟩

/-- A move that gives up no drain keeps a publisher represented. -/
theorem Represented.move (h : Represented p past s c) (hstep : Step body c i es c')
    (hwhole : ¬ (c.threads i).Breaks p) : ∃ s', Represented p (⟨i, c, es⟩ :: past) s' c' := by
  obtain ⟨v, ls, due, hshared⟩ := h.shared
  obtain ⟨s', due', hshared'⟩ := hshared.move hstep hwhole
  cases hstep with | @mk w t hfree hm
  obtain ⟨s'', hs'', hv⟩ := hm.view hshared.found
  obtain rfl : s'' = s' := Option.some.inj (hs''.symm.trans hshared'.found)
  have hnext := hv.nextId_eq
  refine ⟨s'', ⟨v, _, due', hshared'⟩, ?_, h.apart.move hm hnext, fun hq hrest => ?_⟩
  · exact hv.alternates (hshared.delivering (.drain p)).sound.current h.alternates
  rcases hv.queue_cases hshared.draining hrest with
    ⟨e, hsignal, hpending, hfocus⟩ | hnone | ⟨hquiet, hfocus, hd, hpending⟩
  · have hlast : s''.pending.getLast? = some e := by
      rw [show s''.pending = s.pending ++ [e] from hpending]
      exact List.getLast?_concat
    refine ⟨i, e, hlast, .queued rfl hsignal, ?_, ?_⟩
    · rw [threads_put_self]
      exact hfocus
    · rw [threads_put_self]
      exact hm.registers hsignal
  · exact absurd hnone hq
  · have hpending : s''.pending = s.pending.filter _ := hpending
    have hold : s.pending ≠ [] := by
      intro he
      rw [hpending, he] at hq
      exact hq rfl
    obtain ⟨j, e, hlast, hawaits, hdrain, hreg⟩ := h.newest hold hd
    have hj : j ≠ i := by
      rintro rfl
      exact hfocus hdrain
    -- the thread that queued the entry has yet to hand out its subscription
    have hkept : e.id?.all (· ∉ removed (signals p es)) = true := by
      rw [Option.all_eq_true]
      intro id hid
      refine decide_eq_true fun hmem => ?_
      refine h.apart.other hm (fun id hid => ?_) hj (hreg id hid) (List.mem_append_left _ hmem)
      rcases hnext with ⟨hnone, -⟩ | ⟨hone, -⟩
      · exact absurd (hnone ▸ hid) List.not_mem_nil
      · exact List.mem_singleton.1 (hone ▸ hid)
    refine ⟨j, e, ?_, .waits (Ne.symm hj) hquiet hawaits, ?_, ?_⟩
    · obtain ⟨older, hsplit⟩ := List.getLast?_eq_some_iff.1 hlast
      rw [hpending, hsplit, List.filter_append, List.filter_singleton, hkept]
      exact List.getLast?_concat
    · rw [threads_put_ne hj]
      exact hdrain
    · rw [threads_put_ne hj]
      exact hreg

omit [DecidableEq ι] in
/-- A publisher that has just been made is represented. -/
theorem Unaware.represented {guard : Option LockId} {v : V} (h : Unaware p c)
    (hp : c.world.publisher? p = some (.new guard v)) : Represented p past (.new guard v) c := by
  refine ⟨⟨v, [], [], shared_new hp h.settled⟩, .singleton v, ⟨fun i => ?_, fun i j _ id hid => ?_,
    fun i id hid => ?_⟩, fun hq => absurd rfl hq⟩
  · rw [h.taken i]
    exact List.nodup_nil
  · have hnone := (List.append_eq_nil_iff.1 (h.taken i)).1
    exact absurd (hnone ▸ hid) List.not_mem_nil
  · exact absurd (h.taken i ▸ hid) List.not_mem_nil

/-- A move leaves a publisher unknown or makes it. -/
theorem Unaware.move (h : Unaware p c) (hp : c.world.publisher? p = none)
    (hstep : Step body c i es c') :
    Unaware p c' ∧ (c'.world.publisher? p = none ∨
      ∃ guard v, c'.world.publisher? p = some (.new guard v)) := by
  cases hstep with | @mk w t hfree hm
  obtain ⟨hquiet, hset, hmade⟩ := hm.unknown hp (h.settled i)
  have htally := hm.tally (p := p)
  rw [hquiet, h.taken i] at htally
  have hnone : w.taken p t = [] := (List.append_eq_nil_iff.1 htally.eq_nil).2
  refine ⟨⟨forall_threads_put (q := fun _ t => t.Settled p) hset fun j _ => h.settled j,
    forall_threads_put (q := fun _ t => World.taken p w t = []) hnone fun j _ => ?_⟩, hmade⟩
  exact List.append_eq_nil_iff.2
    ⟨(List.append_eq_nil_iff.1 (h.taken j)).1, (List.append_eq_nil_iff.1 hnone).2⟩

omit [BEq V] in
theorem Unaware.next {o : Outcome V} (h : Unaware p c) (hend : (c.threads i).outcome? = some o)
    (b : Prog V P σ ε) : Unaware p (c.put i c.world (.start b)) := by
  have hstack : (c.threads i).stack = [] := Thread.stack_of_outcome hend
  have hsame : (Thread.start b).registering p = (c.threads i).registering p :=
    congrArg (List.filterMap _) hstack.symm
  refine ⟨forall_threads_put (q := fun _ t => t.Settled p) (Thread.settled_start p b) fun j _ =>
    h.settled j, forall_threads_put (q := fun _ t => World.taken p c.world t = []) ?_ fun j _ =>
    h.taken j⟩
  exact (congrArg (· ++ _) hsame).trans (h.taken i)

/-- A thread that starts a program leaves a publisher represented. -/
theorem Represented.next {o : Outcome V} (h : Represented p past s c)
    (hend : (c.threads i).outcome? = some o) (b : Prog V P σ ε) :
    Represented p past s (c.put i c.world (.start b)) := by
  obtain ⟨v, ls, due, hshared⟩ := h.shared
  refine ⟨⟨v, ls, due, hshared.next hend b⟩, h.alternates, h.apart.next hend b, fun hq hrest => ?_⟩
  obtain ⟨j, e, hlast, hawaits, hdrain, hreg⟩ := h.newest hq hrest
  have hj : j ≠ i := by
    rintro rfl
    exact (Thread.settled_of_outcome hend).focus hdrain
  refine ⟨j, e, hlast, hawaits, ?_, ?_⟩
  · rw [threads_put_ne hj]
    exact hdrain
  · rw [threads_put_ne hj]
    exact hreg

/-- From the beginning a publisher is unknown or represented. -/
theorem Path.represented (h₀ : Unaware p c₀) (hp : c₀.world.publisher? p = none)
    (h : Path body (fun t => ¬ t.Breaks p) c₀ past c) :
    (c.world.publisher? p = none ∧ Unaware p c) ∨ ∃ s, Represented p past s c := by
  induction h with
  | refl => exact Or.inl ⟨hp, h₀⟩
  | step _ hwhole hstep ih =>
      rcases ih with ⟨hnone, hun⟩ | ⟨s, hrep⟩
      · obtain ⟨hun', hnone' | ⟨guard, v, hnew⟩⟩ := hun.move hnone hstep
        · exact Or.inl ⟨hnone', hun'⟩
        · exact Or.inr ⟨_, hun'.represented hnew⟩
      · exact Or.inr (hrep.move hstep hwhole)
  | next b _ hend ih =>
      rcases ih with ⟨hnone, hun⟩ | ⟨s, hrep⟩
      · exact Or.inl ⟨hnone, hun.next hend b⟩
      · exact Or.inr ⟨s, hrep.next hend b⟩

end Crowd

section Main

variable [DecidableEq ι] [BEq V] {body : P → Prog V P σ ε} {p : PublisherRef} {store : σ}
  {c₀ c : Crowd ι V P σ ε} {past : List (Turn ι V P σ ε)} {s : Publisher V (Observer V P σ ε)}

/-- However threads that start with nothing take turns, and whatever publishers they make, at every
moment, as long as no panic ends a drain of it, the fields of a publisher fit together. The last of
the values delivered and queued is the value held, and no two neighbours are the same. The observers
registered and then those queued have increasing numbers, all below the next one. And if anything is
queued, then some thread is draining, or the newest entry was queued by a call that has not reached
its drain. -/
theorem publisher_representation (hworld : c₀.world = World.new store)
    (hstart : ∀ i, ∃ b, c₀.threads i = .start b)
    (h : Crowd.Path body (fun t => ¬ t.Breaks p) c₀ past c)
    (hs : c.world.publisher? p = some s) :
    (s.timeline.getLast? = some s.current ∧ s.timeline.IsChain fun u v => (u == v) = false) ∧
      (s.ids.Pairwise (· < ·) ∧ ∀ id ∈ s.ids, id < s.nextId) ∧
      (s.pending ≠ [] →
        (s.draining = true ∧ ∃ i, (c.threads i).due p ≠ []) ∨
          ∃ i e, s.pending.getLast? = some e ∧ Awaits p i e past ∧
            (c.threads i).focus = .drain p) := by
  have hun : Crowd.Unaware p c₀ := by
    refine ⟨fun i => ?_, fun i => ?_⟩
    · obtain ⟨b, hb⟩ := hstart i
      exact hb ▸ Thread.settled_start p b
    · obtain ⟨b, hb⟩ := hstart i
      rw [hb, hworld]
      rfl
  have hnone : c₀.world.publisher? p = none := by
    rw [hworld]
    rfl
  obtain ⟨hnone', -⟩ | ⟨s', hrep⟩ := h.represented hun hnone
  · exact nomatch hs.symm.trans hnone'
  obtain ⟨v, ls, due, hshared⟩ := hrep.shared
  obtain rfl := Option.some.inj (hs.symm.trans hshared.found)
  have hsound := (hshared.delivering (.drain p)).sound
  have hlined := List.pairwise_append.1 hsound.lined
  refine ⟨⟨hsound.current, hrep.alternates⟩, ⟨hlined.1, fun id hid => ?_⟩, fun hq => ?_⟩
  · exact hlined.2.2 id hid _ (List.mem_singleton_self _)
  · cases hd : s.draining with
    | true => exact Or.inl ⟨rfl, hshared.somebody hd⟩
    | false =>
        obtain ⟨i, e, hlast, hawaits, hdrain, -⟩ := hrep.newest hq hd
        exact Or.inr ⟨i, e, hlast, hawaits, hdrain⟩

end Main

/-- Two threads: one makes a publisher and subscribes an observer, the other one writes 2. -/
def maker : Bool → Prog Nat Empty Unit Unit
  | true => .atom (.newPublisher none 0) fun p => .attach p [] .ret fun _ => .ret 0
  | false => .publish ⟨0⟩ 2 (.ret 0)

/-- Both threads have queued something and neither has begun to drain: the value held waits behind
the observer, and the newest entry is the one of the thread that wrote. -/
theorem publisher_representation_maker :
    ∃ (c₀ c : Crowd Bool Nat Empty Unit Unit) (past : List (Turn Bool Nat Empty Unit Unit))
      (s : Publisher Nat (Observer Nat Empty Unit Unit)),
      Crowd.Path nofun (fun t => ¬ t.Breaks ⟨0⟩) c₀ past c ∧ c.world.publisher? ⟨0⟩ = some s ∧
      s.timeline = [0, 2] ∧ s.timeline.getLast? = some s.current ∧ s.ids = [0] ∧ s.nextId = 1 ∧
      s.draining = false ∧
      ∃ i e, s.pending.getLast? = some e ∧ e.value? = some 2 ∧ Awaits ⟨0⟩ i e past := by
  let c₀ : Crowd Bool Nat Empty Unit Unit := ⟨World.new (), fun i => .start (maker i)⟩
  let whole (t : Thread Nat Empty Unit Unit) : Prop := ¬ t.Breaks ⟨0⟩
  have hrun : (Crowd.advance nofun whole [true, true, false] c₀).map (fun (c, _) =>
      (c.world.publisher? ⟨0⟩).map fun s => decide (s.timeline = [0, 2] ∧ s.ids = [0] ∧
        s.nextId = 1 ∧ s.draining = false ∧
        s.pending.getLast?.bind Pending.value? = some 2)) = some (some true) := by
    decide +kernel
  obtain ⟨⟨c, es⟩, hadvance, hend⟩ := Option.map_eq_some_iff.1 hrun
  obtain ⟨s, hs, hfields⟩ := Option.map_eq_some_iff.1 hend
  obtain ⟨htimeline, hids, hnext, hrest, hvalue⟩ := decide_eq_true_eq.mp hfields
  obtain ⟨e, hlast, hvalue⟩ := Option.bind_eq_some_iff.1 hvalue
  have h : Crowd.Run nofun (fun _ => False) whole c₀ es c := .of_advance hadvance
  obtain ⟨past, hpath, -⟩ := h.path
  obtain ⟨⟨hheld, -⟩, -, hqueued⟩ := publisher_representation rfl (fun i => ⟨_, rfl⟩) hpath hs
  have hq : s.pending ≠ [] := by
    intro hnone
    rw [hnone] at hlast
    exact nomatch hlast
  obtain ⟨hd, -⟩ | ⟨i, e', hlast', hawaits, -⟩ := hqueued hq
  · exact nomatch hrest.symm.trans hd
  · obtain rfl := Option.some.inj (hlast.symm.trans hlast')
    exact ⟨c₀, c, past, s, hpath, hs, htimeline, hheld, hids, hnext, hrest, i, e, hlast, hvalue,
      hawaits⟩

end ReactiveCells
