import Mathlib.Data.List.Chain
import ReactiveCells.Proofs.Conservation
import ReactiveCells.Proofs.History

/-!
# Lapses — what new observers are handed after a panic

A new observer is handed the value delivered last, not the value held. As a rule the two are equal
whenever nothing is being delivered. A panic that ends a drain throws the queued changes away, and
from then on the value delivered last lags behind the value held. Nothing but the next change mends
that lapse (`lapse`): until then new observers are handed the outdated value, and a write of it
counts as a change, so it is handed out once more.

As long as no panic ends a drain there is no lapse, and no observer is called twice in a row with
one value (`View.Novel`). Panics elsewhere do not matter, and neither does what observers do.

Main statement: `replay_until_lapse`.
-/

namespace ReactiveCells

variable {V P σ ε : Type}

/-- The values delivered last and held since a panic ended a drain of a publisher, if nothing was
committed in between. -/
def lapse (p : PublisherRef) : List (Moment V P σ ε) → Option (V × V)
  | [] => none
  | m :: past =>
      if m.thread.Breaks p then (m.world.publisher? p).map fun s => (s.delivered, s.current)
      else if (commits (signals p m.events)).isEmpty then lapse p past else none

/-- What a publisher delivered last and holds, given the lapse it is in. -/
def Publisher.Lags {O : Type} (s : Publisher V O) : Option (V × V) → Prop
  | none => s.timeline.getLast? = some s.current
  | some (d, c) => s.changes = [] ∧ s.delivered = d ∧ s.current = c

section Lapse

variable {p : PublisherRef} {m : Moment V P σ ε} {past : List (Moment V P σ ε)}
  {s s' : Publisher V (Observer V P σ ε)}

theorem lapse_of_breaks (h : m.thread.Breaks p) :
    lapse p (m :: past) = (m.world.publisher? p).map fun s => (s.delivered, s.current) :=
  if_pos h

theorem lapse_of_quiet (h : ¬ m.thread.Breaks p) (hquiet : commits (signals p m.events) = []) :
    lapse p (m :: past) = lapse p past :=
  (if_neg h).trans (if_pos (List.isEmpty_iff.2 hquiet))

theorem lapse_of_commit (h : ¬ m.thread.Breaks p) (hcommit : commits (signals p m.events) ≠ []) :
    lapse p (m :: past) = none :=
  (if_neg h).trans (if_neg (mt List.isEmpty_iff.1 hcommit))

/-- Without a panic that ends a drain there is no lapse. -/
theorem lapse_of_whole (h : ∀ m ∈ past, ¬ m.thread.Breaks p) : lapse p past = none := by
  induction past with
  | nil => rfl
  | cons m past ih =>
      have hm := h m List.mem_cons_self
      by_cases hquiet : commits (signals p m.events) = []
      · rw [lapse_of_quiet hm hquiet]
        exact ih fun m hm => h m (List.mem_cons_of_mem _ hm)
      · exact lapse_of_commit hm hquiet

variable [BEq V] {o : Option (V × V)} {l : List (Signal V)} {x x' : View V P σ ε}

/-- The lapse of a publisher stays what it is until a change is committed or a panic ends a
drain. -/
theorem View.Move.lags (hm : View.Move p x l x') (h : x.state.Lags o)
    (hkept : x'.focus.Calm ∨ x.due.length ≤ x'.due.length) :
    x'.state.Lags (if commits l = [] then o else none) := by
  cases hm with
  | other | busy | call | finish => exact h
  | start hb =>
      obtain ⟨-, rfl⟩ := Publisher.beginDrain_eq_some hb
      exact h
  | commit hf hc =>
      obtain ⟨ht, hcur⟩ := Publisher.timeline_commit hc
      show _ = some _
      rw [ht, hcur]
      exact List.getLast?_concat
  | @enqueue s due f ob hf =>
      cases o with
      | none => exact (congrArg List.getLast? (Publisher.timeline_enqueue s ob)).trans h
      | some dc => exact ⟨(Publisher.changes_enqueue s ob).trans h.1, h.2⟩
  | @detach s due f f' id hf hf' =>
      cases o with
      | none => exact (congrArg List.getLast? (Publisher.timeline_detach s id)).trans h
      | some dc => exact ⟨(Publisher.changes_detach s id).trans h.1, h.2⟩
  | abandon => exact hkept.elim False.elim fun hle => absurd hle (Nat.not_succ_le_self _)
  | @pop s d s' due v hp =>
      rcases Publisher.pop_cases hp with ⟨u, rest, hq, rfl, rfl⟩ | ⟨r, rest, hq, rfl, rfl⟩
      · have hch := Publisher.changes_of_emit hq
        cases o with
        | none =>
            have hlast : (s.delivered :: s.changes).getLast? = some s.current := h
            rw [hch, List.getLast?_cons_cons] at hlast
            exact hlast
        | some dc => exact nomatch hch.symm.trans h.1
      · have hch := Publisher.changes_of_attach hq
        cases o with
        | none =>
            have hlast : (s.delivered :: s.changes).getLast? = some s.current := h
            rw [hch] at hlast
            exact hlast
        | some dc => exact ⟨hch.symm.trans h.1, h.2⟩

/-- A publisher lags behind as its lapse tells, whatever clients do. -/
theorem Path.lags {body : P → Prog V P σ ε} {w₀ w : World V P σ ε} {t₀ t : Thread V P σ ε}
    (h₀ : Intact p s w₀ t₀) (hs : s.Lags none) (h : Path body w₀ t₀ past w t) :
    ∃ s, Intact p s w t ∧ s.Lags (lapse p past) := by
  refine h.follow (fun past s _ _ => s.Lags (lapse p past)) h₀ hs ?_ fun _ _ _ _ _ _ hinv _ => hinv
  intro past s w t es s' w' t' hinv hint hm hv hint'
  -- a lapse begins where a panic ends a drain, and the next commit ends it
  by_cases hbreaks : t.Breaks p
  · obtain ⟨rfl, -⟩ := hint.abandons hm hint' hbreaks
    rw [lapse_of_breaks hbreaks, hint.found]
    exact ⟨rfl, rfl, rfl⟩
  · have hlags := hv.lags hinv (hm.kept hbreaks)
    by_cases hquiet : commits (signals p es) = []
    · rw [lapse_of_quiet hbreaks hquiet]
      rw [if_pos hquiet] at hlags
      exact hlags
    · rw [lapse_of_commit hbreaks hquiet]
      rw [if_neg hquiet] at hlags
      exact hlags

end Lapse

/-! ## Observers are told news -/

/-- Whether the values delivered last and queued are all changes: none is the same as the one
before it. -/
def Publisher.Alternates {O : Type} [BEq V] (s : Publisher V O) : Prop :=
  s.timeline.IsChain fun u v => (u == v) = false

namespace View

variable {p : PublisherRef} {n : Nat} {ls l : List (Signal V)} {x x' : View V P σ ε}

/-- A commit differs from the value held, which is the last one queued or delivered. -/
theorem Move.alternates [BEq V] (hm : Move p x l x')
    (hcur : x.state.timeline.getLast? = some x.state.current) (h : x.state.Alternates) :
    x'.state.Alternates := by
  cases hm with
  | other | busy | call | finish => exact h
  | start hb =>
      obtain ⟨-, rfl⟩ := Publisher.beginDrain_eq_some hb
      exact h
  | @commit s s' due f v hf hc =>
      show s'.timeline.IsChain _
      rw [(Publisher.timeline_commit hc).1, List.isChain_append]
      refine ⟨h, .singleton v, fun u hu y hy => ?_⟩
      obtain rfl : s.current = u := Option.some.inj (hcur.symm.trans hu)
      obtain rfl : v = y := Option.some.inj hy
      exact Publisher.ne_of_commit hc
  | @enqueue s due f o hf =>
      show (s.enqueue o).timeline.IsChain _
      rw [Publisher.timeline_enqueue]
      exact h
  | @pop s d s' due v hp =>
      show s'.timeline.IsChain _
      rcases Publisher.timeline_pop hp with he | he
      · rw [he]
        exact h
      · rw [he]
        exact h.tail
  | @detach s due f f' id hf hf' =>
      show (s.detach id).timeline.IsChain _
      rw [Publisher.timeline_detach]
      exact h
  | @abandon s calls due text => exact .singleton s.delivered

/-- Every change is one. -/
theorem Move.changing [BEq V] [LawfulBEq V] (hm : Move p x l x') (hs : Sound x)
    (h : x.state.timeline.IsChain (· ≠ ·)) : x'.state.timeline.IsChain (· ≠ ·) := by
  have halternates : x.state.Alternates := h.imp fun _ _ => beq_false_of_ne
  exact (hm.alternates hs.current halternates).imp fun _ _ => ne_of_beq_false

/-- What observers numbered from `n` on have received: always something new. -/
structure Novel (n : Nat) (ls : List (Signal V)) (x : View V P σ ε) : Prop where
  /-- Every change is one. -/
  changing : x.state.timeline.IsChain (· ≠ ·)
  apart : ∀ id, n ≤ id → (received id ls).IsChain (· ≠ ·)
  issued : ∀ id, n ≤ id → received id ls ≠ [] → id < x.state.nextId ∧ id ∉ x.state.waiting
  /-- Who is to be called has not been handed the value delivered last. -/
  due : ∀ id, n ≤ id → ∀ v, (received id ls).getLast? = some v →
    id ∈ x.calls.map (·.id) → v ≠ x.state.delivered
  /-- All others have. -/
  done : ∀ id, n ≤ id → ∀ v, (received id ls).getLast? = some v →
    id ∉ x.calls.map (·.id) → id ∈ x.state.present → v = x.state.delivered

/-- Something other than a call or a delivery happens. -/
theorem Novel.same {s : Signal V} (h : Novel n ls x) (hs : ∀ id v, s ≠ .called id v)
    (hl : l = [] ∨ l = [s]) (hchain : x'.state.timeline.IsChain (· ≠ ·))
    (hcalls : x'.calls = x.calls) (hd : x'.state.delivered = x.state.delivered)
    (hn : x.state.nextId ≤ x'.state.nextId)
    (hw : ∀ id ∈ x'.state.waiting, id ∈ x.state.waiting ∨ id = x.state.nextId)
    (hpres : ∀ id ∈ x'.state.present, id ∈ x.state.present) : Novel n (ls ++ l) x' := by
  have hrec : ∀ id, received id (ls ++ l) = received id ls := by
    intro id
    rcases hl with rfl | rfl
    · rw [List.append_nil]
    · refine received_append_none ?_
      cases s with
      | called i v => exact absurd rfl (hs i v)
      | _ => rfl
  refine ⟨hchain, ?_, ?_, ?_, ?_⟩
  · intro id hid
    rw [hrec]
    exact h.apart id hid
  · intro id hid hne
    rw [hrec] at hne
    obtain ⟨hlt, hnot⟩ := h.issued id hid hne
    refine ⟨Nat.lt_of_lt_of_le hlt hn, fun hmem => ?_⟩
    rcases hw id hmem with hold | rfl
    · exact hnot hold
    · exact Nat.lt_irrefl _ hlt
  · intro id hid v hv hc
    rw [hrec] at hv
    rw [hcalls] at hc
    rw [hd]
    exact h.due id hid v hv hc
  · intro id hid v hv hc hp
    rw [hrec] at hv
    rw [hcalls] at hc
    rw [hd]
    exact h.done id hid v hv hc (hpres id hp)

/-- An observer is called with something that it has not been handed last. -/
theorem Novel.call {s : Publisher V (Observer V P σ ε)} {c : Call V (Observer V P σ ε)}
    {calls : List (Call V (Observer V P σ ε))} {due : List (List (Call V (Observer V P σ ε)))}
    {f f' : Focus V P σ ε} (h : Novel n ls ⟨s, (c :: calls) :: due, f⟩)
    (hs : Sound ⟨s, (c :: calls) :: due, f⟩) :
    Novel n (ls ++ [.called c.id c.value]) ⟨s, calls :: due, f'⟩ := by
  have hvalue : c.value = s.delivered := hs.handed c List.mem_cons_self
  -- whoever is called stands before all that are due or queued, so nobody is called twice
  have hfirst : ∀ i ∈ (View.calls ⟨s, calls :: due, f'⟩).map (·.id) ++ s.waiting ++ [s.nextId],
      c.id < i := fun i hi => (List.pairwise_cons.1 hs.inLine).1 i hi
  have hself : received c.id (ls ++ [.called c.id c.value]) =
      received c.id ls ++ [s.delivered] := by
    rw [received_append, ← hvalue]
    simp [received, Signal.handedTo?]
  have hother : ∀ id, c.id ≠ id → received id (ls ++ [.called c.id c.value]) =
      received id ls := fun id hne =>
    received_append_none (Signal.handedTo?_called_ne hne _)
  refine ⟨h.changing, ?_, ?_, ?_, ?_⟩
  · intro id hid
    by_cases hne : c.id = id
    · subst hne
      rw [hself]
      refine (h.apart _ hid).append (List.isChain_singleton _) ?_
      intro u hu v hv
      obtain rfl := Option.some.inj hv
      exact h.due _ hid u hu List.mem_cons_self
    · rw [hother id hne]
      exact h.apart id hid
  · intro id hid hrec
    by_cases hne : c.id = id
    · subst hne
      refine ⟨hfirst _ (List.mem_append_right _ (List.mem_singleton_self _)), fun hw => ?_⟩
      exact Nat.lt_irrefl _ (hfirst _ (List.mem_append_left _ (List.mem_append_right _ hw)))
    · rw [hother id hne] at hrec
      exact h.issued id hid hrec
  · intro id hid v hv hc
    have hne : c.id ≠ id := by
      rintro rfl
      exact Nat.lt_irrefl _ (hfirst _ (List.mem_append_left _ (List.mem_append_left _ hc)))
    rw [hother id hne] at hv
    exact h.due id hid v hv (List.mem_cons_of_mem _ hc)
  · intro id hid v hv hc hp
    by_cases hne : c.id = id
    · subst hne
      rw [hself, List.getLast?_concat] at hv
      exact (Option.some.inj hv).symm
    · rw [hother id hne] at hv
      exact h.done id hid v hv (fun hmem => (List.mem_cons.1 hmem).elim (fun e => hne e.symm) hc) hp

/-- The next entry is taken: a change is news to all observers. -/
theorem Novel.pop {s s' : Publisher V (Observer V P σ ε)} {d : Delivery V (Observer V P σ ε)}
    {f f' : Focus V P σ ε} (h : Novel n ls ⟨s, [[]], f⟩) (hp : s.pop = some (d, s'))
    (hchain : s'.timeline.IsChain (· ≠ ·)) : Novel n ls ⟨s', [d.calls], f'⟩ := by
  have hknown : ∀ id, n ≤ id → ∀ v, (received id ls).getLast? = some v →
      id ∈ s.present → v = s.delivered := fun id hid v hv =>
    h.done id hid v hv List.not_mem_nil
  have hsome : ∀ {id v}, (received id ls).getLast? = some v → received id ls ≠ [] := by
    intro id v hv hnil
    rw [hnil] at hv
    exact nomatch hv
  have hnews : (s.delivered :: s.changes).IsChain (· ≠ ·) := h.changing
  rcases Publisher.pop_cases hp with ⟨u, rest, hq, rfl, rfl⟩ | ⟨r, rest, hq, rfl, rfl⟩
  · have hch := Publisher.changes_of_emit hq
    have hw := Publisher.waiting_of_emit hq
    rw [hch] at hnews
    have hround := View.map_id_calls_round s { s with delivered := u, pending := rest } u f'
    refine ⟨hchain, h.apart, ?_, ?_, ?_⟩
    · intro id hid hrec
      have hissued := h.issued id hid hrec
      exact ⟨hissued.1, fun hmem => hissued.2 (hw ▸ hmem)⟩
    · intro id hid v hv hc
      rw [hknown id hid v hv (hround ▸ hc)]
      exact (List.isChain_cons_cons.1 hnews).1
    · exact fun id hid v hv hc hp => absurd (hround.symm ▸ hp) hc
  · have hw := Publisher.waiting_of_attach hq
    refine ⟨hchain, h.apart, ?_, ?_, ?_⟩
    · intro id hid hrec
      have hissued := h.issued id hid hrec
      exact ⟨hissued.1, fun hmem => hissued.2 (hw ▸ List.mem_cons_of_mem _ hmem)⟩
    · intro id hid v hv hc
      obtain rfl := List.mem_singleton.1 hc
      exact absurd (hw ▸ List.mem_cons_self) (h.issued _ hid (hsome hv)).2
    · intro id hid v hv hc hp
      have hmem : id ∈ (s.observers ++ [r]).map (·.id) := hp
      rw [List.map_append] at hmem
      refine hknown id hid v hv ((List.mem_append.1 hmem).resolve_right fun hnew => ?_)
      obtain rfl := List.mem_singleton.1 hnew
      exact absurd (hw ▸ List.mem_cons_self) (h.issued _ hid (hsome hv)).2

/-- As long as no panic ends a drain, observers are told news only. -/
theorem Novel.move [BEq V] [LawfulBEq V] (h : Novel n ls x) (hs : Sound x) (ho : Orderly p x)
    (hm : Move p x l x') (hkept : x'.focus.Calm ∨ x.due.length ≤ x'.due.length) :
    Novel n (ls ++ l) x' := by
  have hchain := hm.changing hs h.changing
  cases hm with
  | other | busy | finish =>
      exact h.same (s := .queued 0) nofun (Or.inl rfl) hchain rfl rfl (Nat.le_refl _)
        (fun _ => Or.inl) fun _ => id
  | start hb =>
      obtain ⟨-, rfl⟩ := Publisher.beginDrain_eq_some hb
      exact h.same (s := .queued 0) nofun (Or.inl rfl) hchain rfl rfl (Nat.le_refl _)
        (fun _ => Or.inl) fun _ => id
  | @commit s s' due f v hf hc =>
      obtain ⟨hw, -, -⟩ := Publisher.numbers_commit hc
      obtain rfl := Publisher.commit_eq_some hc
      exact h.same (s := .committed v) nofun (Or.inr rfl) hchain rfl rfl (Nat.le_refl _)
        (fun id hid => Or.inl (hw ▸ hid)) fun _ => id
  | @enqueue s due f o hf =>
      refine h.same (s := .queued s.nextId) nofun (Or.inr rfl) hchain rfl rfl (Nat.le_succ _) ?_
        fun _ => id
      intro id hid
      have hmem : id ∈ (s.enqueue o).waiting := hid
      rw [Publisher.waiting_enqueue] at hmem
      exact (List.mem_append.1 hmem).imp_right List.mem_singleton.1
  | @detach s due f f' id hf hf' =>
      refine h.same (s := .detached id) nofun (Or.inr rfl) hchain rfl rfl (Nat.le_refl _) ?_ ?_
      · intro i hi
        have hmem : i ∈ (s.detach id).waiting := hi
        rw [Publisher.waiting_detach] at hmem
        exact Or.inl (List.mem_filter.1 hmem).1
      · intro i hi
        have hmem : i ∈ (s.detach id).present := hi
        rw [Publisher.present_detach] at hmem
        exact (List.mem_filter.1 hmem).1
  | call => exact h.call hs
  | pop hp =>
      obtain ⟨-, rfl⟩ := ho.only rfl
      rw [List.append_nil]
      exact h.pop hp hchain
  | abandon => exact hkept.elim False.elim fun hle => absurd hle (Nat.not_succ_le_self _)

end View

section Replay

variable [BEq V] {body : P → Prog V P σ ε} {starts : Prog V P σ ε → Prop} {w₀ w : World V P σ ε}
  {t₀ t : Thread V P σ ε} {es : List (Event V ε)} {p : PublisherRef} {guard : Option LockId}
  {c₀ : V} {s : Publisher V (Observer V P σ ε)} {past : List (Moment V P σ ε)}

/-! ## From a settled state on -/

omit [BEq V] in
/-- What a settled publisher has delivered last and holds. -/
theorem Intact.lags_settled (h : Intact p s w t) (hset : t.Settled p) {o : Option (V × V)}
    (hlags : s.Lags o) :
    (o = none → s.delivered = s.current) ∧
      ∀ d c, o = some (d, c) → s.delivered = d ∧ s.current = c := by
  have hch := Publisher.changes_of_empty (h.idle hset).2
  constructor
  · rintro rfl
    have hlast : (s.delivered :: s.changes).getLast? = some s.current := hlags
    rw [hch] at hlast
    exact Option.some.inj hlast
  · rintro d c rfl
    exact hlags.2

omit [BEq V] in
/-- A settled publisher that has delivered what it holds. -/
theorem Intact.sound (h : Intact p s w t) (hset : t.Settled p) (heq : s.delivered = s.current) :
    View.Sound (t.view p s) := by
  obtain ⟨-, hidle⟩ := h.idle hset
  have hcalls : (t.view p s).calls = [] := View.calls_of_settled hset
  refine ⟨?_, h.lined, ?_, ?_⟩
  · show (s.delivered :: s.changes).getLast? = some s.current
    rw [Publisher.changes_of_empty hidle, heq]
    rfl
  · rw [hcalls]
    exact nofun
  · rw [hcalls, show (t.view p s).state.waiting = [] from Publisher.waiting_of_empty hidle]
    exact List.pairwise_singleton _ _

omit [BEq V] in
theorem Thread.Settled.whole (h : t.Settled p) : ¬ t.Breaks p := by
  intro hbreaks
  obtain ⟨text, calls, st, rfl⟩ := Thread.breaks_iff.1 hbreaks
  exact h.ne_deliver rfl

/-- As long as no panic ends a drain, observers that subscribe from now on are told news only. -/
theorem Run.novel [LawfulBEq V] (h₀ : Intact p s w₀ t₀) (hset : t₀.Settled p)
    (heq : s.delivered = s.current)
    (h : Run body starts (fun t => ¬ t.Breaks p) w₀ t₀ es w t) {id : Nat} (hid : s.nextId ≤ id) :
    (received id (signals p es)).IsChain (· ≠ ·) := by
  suffices hinv : ∃ s', Intact p s' w t ∧ View.Sound (t.view p s') ∧
      View.Novel s.nextId (signals p es) (t.view p s') ∧ ¬ t.Breaks p by
    obtain ⟨s', -, -, hnovel, -⟩ := hinv
    exact hnovel.apart id hid
  induction h with
  | refl =>
      have hch := Publisher.changes_of_empty (h₀.idle hset).2
      refine ⟨s, h₀, h₀.sound hset heq, ⟨?_, fun _ _ => .nil, ?_, nofun, nofun⟩, hset.whole⟩
      · show (s.delivered :: s.changes).IsChain (· ≠ ·)
        rw [hch]
        exact List.isChain_singleton _
      · exact fun _ _ hne => absurd rfl hne
  | step _ hstep hwhole' ih =>
      obtain ⟨s₁, hint, hsound, hnovel, hwhole⟩ := ih
      have hm := Thread.moves_iff.2 hstep
      obtain ⟨s', hint', hv⟩ := hint.move hm
      have hkept := hm.kept hwhole
      refine ⟨s', hint', hsound.kept hint.orderly.single hv hkept, ?_, hwhole'⟩
      rw [signals_append]
      exact hnovel.move hsound hint.orderly hv hkept
  | @next _ _ t₁ _ c _ hend _ hwhole' ih =>
      obtain ⟨s₁, hint, hsound, hnovel, -⟩ := ih
      have hset₁ : t₁.Settled p := Thread.settled_of_outcome hend
      have hd : (Thread.start c).due p = t₁.due p := hset₁.due.symm
      have hview : (Thread.start c).view p s₁ = ⟨s₁, t₁.due p, .run c⟩ := by
        rw [Thread.view, hd]
        rfl
      refine ⟨s₁, hint.next hend c, ?_, ?_, hwhole'⟩
      · rw [hview]
        exact ⟨hsound.current, hsound.lined, hsound.handed, hsound.inLine⟩
      · rw [hview]
        exact ⟨hnovel.changing, hnovel.apart, hnovel.issued, hnovel.due, hnovel.done⟩

/-- A drain that begins takes the first entry of the queue. -/
theorem Run.takes (body : P → Prog V P σ ε) {d : Delivery V (Observer V P σ ε)}
    {s' : Publisher V (Observer V P σ ε)} (st : List (Frame V P σ ε))
    (hp : w.publisher? p = some s) (hd : s.draining = false)
    (hpop : Publisher.pop { s with draining := true } = some (d, s')) :
    ∃ w', CalmRun body w ⟨.drain p, st⟩ d.report w'
      ⟨.run (.ret s.current), .deliver p d.calls :: st⟩ ∧ w'.publisher? p = some s' ∧
      w'.memos = w.memos := by
  have hbegin : s.beginDrain = some { s with draining := true } := if_neg (Bool.eq_false_iff.1 hd)
  have hbegun : (w.setPublisher p { s with draining := true }).publisher? p = some _ :=
    World.publisher?_setPublisher_self hp
  have hpopped : Thread.Moves body _ ⟨.run (.ret s.current), .deliver p [] :: st⟩ d.report _
      ⟨.run (.ret s.current), .deliver p d.calls :: st⟩ := .popped hbegun hpop
  have hrun : CalmRun body _ _ d.report _ _ := .single hpopped.step trivial
  exact ⟨_, .cons (Thread.Moves.draining hp hbegin).step trivial hrun,
    World.publisher?_setPublisher_self hbegun, rfl⟩

/-- A change of a settled publisher begins a round. -/
theorem Intact.begins {v : V} {k : Prog V P σ ε} {st : List (Frame V P σ ε)}
    (h : Intact p s w ⟨.run (.publish p v k), st⟩)
    (hset : Thread.Settled p ⟨.run (.publish p v k), st⟩) (hne : (s.current == v) = false) :
    ∃ w' s', CalmRun body w ⟨.run (.publish p v k), st⟩ [.committed p v] w'
        ⟨.run (.ret v), .deliver p (s.round v) :: (s.leaving ++ .resume (fun _ => k) :: st)⟩ ∧
      w'.publisher? p = some s' ∧ s'.draining = true := by
  obtain ⟨hdrain, hidle⟩ := h.idle hset
  let queued : Publisher V (Observer V P σ ε) :=
    { s with current := v, pending := s.pending ++ [.emit v] }
  have hcommit : s.commit v = some queued := if_neg (Bool.eq_false_iff.1 hne)
  have hqueued : ((w.enterAll s.monitors).setPublisher p queued).publisher? p = some queued :=
    World.publisher?_enterAll_setPublisher h.found
  have hpop : Publisher.pop { queued with draining := true } = some (.round (s.round v),
      { queued with delivered := v, draining := true, pending := [] }) := by
    simp [Publisher.pop, queued, hidle, Publisher.round]
  obtain ⟨w', htaken, hp', -⟩ := Run.takes body (s.leaving ++ .resume (fun _ => k) :: st) hqueued
    hdrain hpop
  exact ⟨w', _, .cons (Thread.Moves.published h.found hcommit).step trivial htaken, hp', rfl⟩

/-- A new observer is handed the value delivered last. -/
theorem Intact.replays {keeps : List PublisherRef} {o : Routine V P σ ε}
    {k : SubscriptionRef → Prog V P σ ε} {st : List (Frame V P σ ε)}
    (h : Intact p s w ⟨.run (.attach p keeps o k), st⟩)
    (hset : Thread.Settled p ⟨.run (.attach p keeps o k), st⟩) :
    ∃ w', CalmRun body w ⟨.run (.attach p keeps o k), st⟩
      [.queued p s.nextId, .message (.observerSubscribed s.nextId (s.observers.length + 1)),
        .called p s.nextId s.delivered] w'
      ⟨.run (o s.delivered),
        .observe ⟨o, keeps⟩ :: .deliver p [] :: (s.leaving ++ .register p s.nextId k :: st)⟩ := by
  obtain ⟨hdrain, hidle⟩ := h.idle hset
  let queued := s.enqueue ⟨o, keeps⟩
  let call : Call V (Observer V P σ ε) := ⟨s.nextId, s.delivered, ⟨o, keeps⟩⟩
  have hqueued : ((w.enterAll s.monitors).setPublisher p queued).publisher? p = some queued :=
    World.publisher?_enterAll_setPublisher h.found
  have hpop : Publisher.pop { queued with draining := true } =
      some (.replay call (s.observers.length + 1), { queued with
        draining := true, observers := s.observers ++ [⟨s.nextId, ⟨o, keeps⟩⟩], pending := [] }) := by
    simp [Publisher.pop, Publisher.enqueue, queued, call, hidle]
  obtain ⟨w', htaken, -⟩ := Run.takes body (s.leaving ++ .register p s.nextId k :: st) hqueued
    hdrain hpop
  have hcall : Thread.Moves body w' ⟨.run (.ret s.current),
      .deliver p [call] :: (s.leaving ++ .register p s.nextId k :: st)⟩ _ w' _ := .called
  refine ⟨w', .cons (Thread.Moves.attached h.found).step trivial (htaken.trans ?_)⟩
  exact .single hcall.step trivial

/-- A write of the value delivered last, where another value is held, is delivered. -/
theorem Intact.redelivers [LawfulBEq V] {r : Registration (Observer V P σ ε)}
    {rs : List (Registration (Observer V P σ ε))} {k : Prog V P σ ε} {st : List (Frame V P σ ε)}
    (h : Intact p s w ⟨.run (.publish p s.delivered k), st⟩)
    (hset : Thread.Settled p ⟨.run (.publish p s.delivered k), st⟩)
    (hne : s.delivered ≠ s.current) (hobs : s.observers = r :: rs) :
    ∃ w' st', CalmRun body w ⟨.run (.publish p s.delivered k), st⟩
      [.committed p s.delivered, .called p r.id s.delivered] w'
      ⟨.run (r.observer.react s.delivered), st'⟩ := by
  obtain ⟨w', -, hround, -⟩ := h.begins hset (beq_eq_false_iff_ne.2 hne.symm)
  rw [show s.round s.delivered = ⟨r.id, s.delivered, r.observer⟩ ::
    rs.map fun r => ⟨r.id, s.delivered, r.observer⟩ from congrArg _ hobs] at hround
  exact ⟨w', _, hround.trans (.single (Thread.moves_iff.1 .called) trivial)⟩

/-- Whatever panicked before, a settled publisher has delivered the value it holds, unless a panic
ended a drain of it and nothing was committed since: then both values are those of that moment. A
new observer is handed the value delivered last. If that is the value held, observers that subscribe
from now on never receive one value twice in a row, as long as no panic ends a drain. If it is not,
a write of it counts as a change and is handed out once more. -/
theorem replay_until_lapse [LawfulBEq V] (h₀ : Born body p guard c₀ w₀ t₀)
    (h : Path body w₀ t₀ past w t) (hset : t.Settled p) :
    ∃ s, w.publisher? p = some s ∧
      ((∀ m ∈ past, ¬ m.thread.Breaks p) → lapse p past = none) ∧
      (lapse p past = none → s.delivered = s.current) ∧
      (∀ d c, lapse p past = some (d, c) → s.delivered = d ∧ s.current = c) ∧
      (∀ keeps o k st, t = ⟨.run (.attach p keeps o k), st⟩ → ∃ w', CalmRun body w t
        [.queued p s.nextId, .message (.observerSubscribed s.nextId (s.observers.length + 1)),
          .called p s.nextId s.delivered] w'
        ⟨.run (o s.delivered),
          .observe ⟨o, keeps⟩ :: .deliver p [] :: (s.leaving ++ .register p s.nextId k :: st)⟩) ∧
      (s.delivered = s.current → ∀ es w' t',
        Run body (fun _ => True) (fun t => ¬ t.Breaks p) w t es w' t' → ∀ id, s.nextId ≤ id →
        (received id (signals p es)).IsChain (· ≠ ·)) ∧
      (s.delivered ≠ s.current → ∀ r rs k st, s.observers = r :: rs →
        t = ⟨.run (.publish p s.delivered k), st⟩ → ∃ w' st', CalmRun body w t
          [.committed p s.delivered, .called p r.id s.delivered] w'
          ⟨.run (r.observer.react s.delivered), st'⟩) := by
  obtain ⟨-, hreg⟩ := h₀.regular
  obtain ⟨s, hint, hlags⟩ := h.lags hreg.intact rfl
  obtain ⟨hstep, hlapse⟩ := hint.lags_settled hset hlags
  refine ⟨s, hint.found, lapse_of_whole, hstep, hlapse, ?_, ?_, ?_⟩
  · rintro keeps o k st rfl
    exact hint.replays hset
  · exact fun heq es w' t' hrun id hid => hrun.novel hint hset heq hid
  · rintro hne r rs k st hobs rfl
    exact hint.redelivers hset hne hobs

/-- A client whose observer answers the value 1 with the value 2 and then panics. The client writes
1, goes on after the panic, and subscribes another observer. -/
def stumbling (p : PublisherRef) : Prog Nat Empty Unit Unit :=
  .attach p [] (fun v => if v = 1 then .publish p 2 (.panic "boom") else .ret v) fun _ =>
    .attempt (.publish p 1 (.ret 0)) fun _ => .attach p [] .ret fun _ => .ret 0

/-- The other observer is handed 1 although 2 is held. -/
theorem replay_until_lapse_stumbling :
    ∃ past w s w' t', Path nofun w (.start (stumbling ⟨0⟩)) past w' t' ∧ t'.Settled ⟨0⟩ ∧
      w'.publisher? ⟨0⟩ = some s ∧ lapse ⟨0⟩ past = some (1, 2) ∧ s.current = 2 ∧
      ∃ w'' t'', CalmRun nofun w' t' [.queued ⟨0⟩ 1, .message (.observerSubscribed 1 2),
        .called ⟨0⟩ 1 1] w'' t'' := by
  let w₀ : World Nat Empty Unit Unit := World.new ()
  let w₁ : World Nat Empty Unit Unit := { w₀ with publishers := .alloc .empty (.new none 0) }
  have h₀ : Born nofun ⟨0⟩ none 0 w₁ (.start (stumbling ⟨0⟩)) :=
    .made ⟨(), .atom (.newPublisher none 0) stumbling, [], .refl⟩ rfl
  obtain ⟨w, o, hmade, hq⟩ : ∃ (w : World Nat Empty Unit Unit) (o : Observer Nat Empty Unit Unit),
      Thread.run nofun (fun _ _ _ => (none : Option Unit)) 20 w₁ (.start (stumbling ⟨0⟩)) [] =
        (w, ⟨.run (.attach ⟨0⟩ [] .ret fun _ => .ret 0), []⟩, []) ∧
      w.publisher? ⟨0⟩ = some ⟨none, 2, 1, [⟨0, o⟩], [], false, 1⟩ :=
    ⟨_, _, rfl, rfl⟩
  obtain ⟨es, hrun⟩ : ∃ es, Run nofun (fun _ => False) Thread.Any w₁ (.start (stumbling ⟨0⟩)) es w
      ⟨.run (.attach ⟨0⟩ [] .ret fun _ => .ret 0), []⟩ := Run.of_run hmade
  obtain ⟨past, hpath, -⟩ := hrun.path
  have hset : Thread.Settled ⟨0⟩ (⟨.run (.attach ⟨0⟩ [] .ret fun _ => .ret 0), []⟩ :
      Thread Nat Empty Unit Unit) := ⟨nofun, rfl⟩
  obtain ⟨s, hs, -, hstep, hlapse, hreplay, -, -⟩ := replay_until_lapse h₀ hpath hset
  obtain rfl := Option.some.inj (hs.symm.trans hq)
  have hsome : lapse ⟨0⟩ past = some (1, 2) := by
    cases hl : lapse ⟨0⟩ past with
    | none => exact absurd (hstep hl) (show (1 : Nat) ≠ 2 from nofun)
    | some dc =>
        obtain ⟨hd, hc⟩ := hlapse dc.1 dc.2 hl
        rw [show dc = (1, 2) from Prod.ext hd.symm hc.symm]
  obtain ⟨w', hfirst⟩ := hreplay [] .ret (fun _ => .ret 0) [] rfl
  exact ⟨past, w₁, _, w, _, hpath, hset, hs, hsome, rfl, w', _, hfirst⟩

end Replay

end ReactiveCells
