import Mathlib.Data.List.Nodup
import Mathlib.Data.List.Perm.Subperm
import ReactiveCells.Proofs.Compatible
import ReactiveCells.Proofs.Enforcement

/-!
# Confluence — compatible enforcers settle on one value

A write to a box with enforcers starts a drain in which every enforcer that rejects a value queues
its own correction of it, overwriting the corrections of the others. With compatible invariants all
values that are ever queued lead to the same value, and each weighs less than the one it corrects:
the queue gets lighter with every entry taken, so the drain ends, and the value then held is
accepted by all enforcers.

The other observers of the box may do what they like as long as they come back without writing to
it. What they need of the world and how many subscriptions they have yet to make is up to them
(`Bystanders`).

Main statement: `compatible_enforcers_agree`.
-/

namespace ReactiveCells

variable {V P σ ε : Type}

/-! ## Monitors are given back -/

namespace World

variable {w : World V P σ ε} {p : PublisherRef} {s : Publisher V (Observer V P σ ε)}

/-- Leaves monitors, the first of the list first. -/
def leaveAll (w : World V P σ ε) (ms : List Monitor) : World V P σ ε :=
  ms.foldl (fun w m => w.leave m) w

/-- Leaving monitors changes nothing but the monitors held. -/
theorem leaveAll_eq (w : World V P σ ε) (ms : List Monitor) :
    w.leaveAll ms = { w with held := ms.foldl (fun h m => h.leave m) w.held } := by
  induction ms generalizing w with
  | nil => rfl
  | cons m ms ih => exact ih (w.leave m)

theorem publisher?_leaveAll (ms : List Monitor) :
    (w.leaveAll ms).publisher? p = w.publisher? p := by
  induction ms generalizing w with
  | nil => rfl
  | cons m ms ih => exact ih (w := w.leave m)

theorem leaveAll_enterAll (w : World V P σ ε) (ms : List Monitor) :
    (w.enterAll ms).leaveAll ms = w := by
  induction ms with
  | nil => rfl
  | cons m ms ih =>
      show (((w.enterAll ms).enter m).leave m).leaveAll ms = w
      rw [leave_enter, ih]

/-- Monitors are held beside the publishers. -/
theorem enterAll_setPublisher (w : World V P σ ε) (ms : List Monitor) :
    (w.enterAll ms).setPublisher p s = (w.setPublisher p s).enterAll ms := by
  rw [enterAll_eq, enterAll_eq]
  rfl

end World

variable [BEq V] (body : P → Prog V P σ ε)

/-- A value goes through the frames that leave monitors. -/
theorem leave_run (w : World V P σ ε) (u : V) (ms : List Monitor) (st : List (Frame V P σ ε)) :
    CalmRun body w ⟨.run (.ret u), ms.map .leave ++ st⟩ [] (w.leaveAll ms) ⟨.run (.ret u), st⟩ := by
  induction ms generalizing w with
  | nil => exact .refl
  | cons m ms ih => exact .cons (Thread.moves_iff.1 .left) trivial (ih (w.leave m))

section Corrections

variable {w : World V P σ ε} {p : PublisherRef} {s : Publisher V (Observer V P σ ε)}

/-- A write in the middle of a drain changes nothing but the publisher: its first move is all that
is seen of it. -/
theorem write_draining (hp : w.publisher? p = some s) (hd : s.draining = true) (v : V)
    (k : Prog V P σ ε) (st : List (Frame V P σ ε)) :
    (s.commit v = none ∧ ∃ w₁ t₁, Thread.Moves body w ⟨.run (.publish p v k), st⟩ [] w₁ t₁ ∧
      t₁.Calm ∧ CalmRun body w₁ t₁ [] w ⟨.run k, st⟩) ∨
    ∃ s', s.commit v = some s' ∧ ∃ w₁ t₁,
      Thread.Moves body w ⟨.run (.publish p v k), st⟩ [.committed p v] w₁ t₁ ∧
      t₁.Calm ∧ CalmRun body w₁ t₁ [] (w.setPublisher p s') ⟨.run k, st⟩ := by
  -- once nothing is to be drained the monitors are left and the program goes on
  have leave : ∀ (w' : World V P σ ε) (u : V), CalmRun body (w'.enterAll s.monitors)
      ⟨.run (.ret u), s.leaving ++ .resume (fun _ => k) :: st⟩ [] w' ⟨.run k, st⟩ := by
    intro w' u
    have hleave := leave_run body (w'.enterAll s.monitors) u s.monitors (.resume (fun _ => k) :: st)
    rw [World.leaveAll_enterAll] at hleave
    exact hleave.trans (.single (Thread.moves_iff.1 .resumed) trivial)
  cases hc : s.commit v with
  | none => exact Or.inl ⟨rfl, _, _, .publishedSame hp hc, trivial, leave w _⟩
  | some s' =>
      have hd' : s'.beginDrain = none := by
        obtain rfl := Publisher.commit_eq_some hc
        exact if_pos hd
      have hthere : ((w.enterAll s.monitors).setPublisher p s').publisher? p = some s' :=
        World.publisher?_enterAll_setPublisher hp
      refine Or.inr ⟨s', rfl, _, _, .published hp hc, trivial,
        .cons (Thread.moves_iff.1 (.busy hthere hd')) trivial ?_⟩
      rw [World.enterAll_setPublisher]
      exact leave (w.setPublisher p s') _

/-- A write in the middle of a drain is queued at most. -/
theorem publish_draining (hp : w.publisher? p = some s) (hd : s.draining = true) (v : V)
    (k : Prog V P σ ε) (st : List (Frame V P σ ε)) :
    ∃ es w' s', CalmRun body w ⟨.run (.publish p v k), st⟩ es w' ⟨.run k, st⟩ ∧
      w'.publisher? p = some s' ∧
      ((w' = w ∧ s' = s) ∨ (w' = w.setPublisher p s' ∧ s.commit v = some s')) := by
  rcases write_draining body hp hd v k st with ⟨-, w₁, t₁, hm, hcalm, hrun⟩ |
    ⟨s', hc, w₁, t₁, hm, hcalm, hrun⟩
  · exact ⟨_, w, s, .cons hm.step hcalm hrun, hp, Or.inl ⟨rfl, rfl⟩⟩
  · exact ⟨_, _, s', .cons hm.step hcalm hrun, World.publisher?_setPublisher_self hp,
      Or.inr ⟨rfl, hc⟩⟩

/-- An enforcer that is called comes back, and has queued its correction at most. -/
theorem corrector_run [LawfulBEq V] (hp : w.publisher? p = some s) (hd : s.draining = true)
    (f : V → V) (v : V) (st : List (Frame V P σ ε)) :
    ∃ es w' s', CalmRun body w ⟨.run (corrector p f v), st⟩ es w' ⟨.run (.ret v), st⟩ ∧
      w'.publisher? p = some s' ∧
      ((w' = w ∧ s' = s) ∨ (w' = w.setPublisher p s' ∧ f v ≠ v ∧ s.commit (f v) = some s')) := by
  by_cases hv : f v = v
  · have hret : (corrector p f v : Prog V P σ ε) = .ret v := by
      rw [corrector, if_neg (by rw [hv, bne_self_eq_false]; exact Bool.false_ne_true)]
    rw [hret]
    exact ⟨[], w, s, .refl, hp, Or.inl ⟨rfl, rfl⟩⟩
  · have hcorr : (corrector p f v : Prog V P σ ε) =
        .atom (.report .correcting) fun _ => .publish p (f v) (.ret v) := by
      rw [corrector, if_pos (bne_iff_ne.2 hv)]
    obtain ⟨es, w', s', hrun, hp', hs'⟩ := publish_draining body hp hd (f v) (.ret v) st
    rw [hcorr]
    refine ⟨_, w', s', .cons (Thread.moves_iff.1 (.performed rfl)) trivial hrun, hp', ?_⟩
    rcases hs' with hsame | ⟨hw, hc⟩
    · exact Or.inl hsame
    · exact Or.inr ⟨hw, hv, hc⟩

end Corrections

/-! ## Bystanders -/

/-- What somebody who writes nothing may do to a box in the middle of a drain: subscribe others who
write nothing, and remove such observers. -/
structure Undisturbed (enforcers : List Nat) (passive : Observer V P σ ε → Prop)
    (s s' : Publisher V (Observer V P σ ε)) : Prop where
  current : s'.current = s.current
  changes : s'.changes = s.changes
  stay : ∀ r ∈ s.observers, r.id ∈ enforcers → r ∈ s'.observers
  observers : ∀ r ∈ s'.observers, r ∈ s.observers
  arrivals : ∀ r ∈ s'.arrivals, r ∈ s.arrivals ∨ passive r.observer

/-- Observers that come back without having written anything, in the worlds that they can make do
with: those in `worlds n` for some bound `n` on the subscriptions that they will still make. -/
structure Bystanders (body : P → Prog V P σ ε) (p : PublisherRef) (enforcers : List Nat)
    (passive : Observer V P σ ε → Prop) (worlds : Nat → World V P σ ε → Prop) : Prop where
  /-- They do not depend on what the box does. -/
  stable : ∀ n w s s', worlds n w → w.publisher? p = some s → worlds n (w.setPublisher p s')
  react : ∀ n w s o v, worlds n w → w.publisher? p = some s → s.draining = true → passive o →
    ∃ es w' u s' m, CalmRun body w (.start (o.react v)) es w' ⟨.run (.ret u), []⟩ ∧
      w'.publisher? p = some s' ∧ Undisturbed enforcers passive s s' ∧ worlds m w' ∧
      m + s'.waiting.length ≤ n + s.waiting.length

/-- A box with the enforcers of some invariants, the numbers of which are given, and bystanders. -/
structure Lineup (p : PublisherRef) (fs : List (V → V)) (enforcers : List Nat)
    (passive : Observer V P σ ε → Prop) (s : Publisher V (Observer V P σ ε)) : Prop where
  correct : ∀ i ∈ enforcers, ∃ r ∈ s.observers, r.id = i ∧
    ∃ f ∈ fs, r.observer.react = corrector p f
  complete : ∀ f ∈ fs, ∃ r ∈ s.observers, r.id ∈ enforcers ∧ r.observer.react = corrector p f
  others : ∀ r ∈ s.observers, r.id ∉ enforcers → passive r.observer
  arrivals : ∀ r ∈ s.arrivals, passive r.observer

/-- A box in the middle of a drain: every value in its queue leads to `z`. -/
structure Converging (p : PublisherRef) (fs : List (V → V)) (enforcers : List Nat)
    (passive : Observer V P σ ε → Prop) (worlds : Nat → World V P σ ε → Prop) (z : V) (n : Nat)
    (w : World V P σ ε) (s : Publisher V (Observer V P σ ε)) : Prop where
  lineup : Lineup p fs enforcers passive s
  world : worlds n w
  changes : ∀ v ∈ s.changes, applyAll fs v = z
  current : applyAll fs s.current = z

/-- What a call is for: an enforcer with one of the invariants, or a bystander. -/
def Assigned (p : PublisherRef) (fs : List (V → V)) (enforcers : List Nat)
    (passive : Observer V P σ ε → Prop) (v : V) (c : Call V (Observer V P σ ε)) : Prop :=
  (c.id ∈ enforcers ∧ c.value = v ∧ ∃ f ∈ fs, c.observer.react = corrector p f) ∨
    (c.id ∉ enforcers ∧ passive c.observer)

/-- What the queue of a box weighs. -/
def load (n : Nat) (fs : List (V → V)) (s : Publisher V (Observer V P σ ε)) : Nat :=
  (s.changes.map (weight n fs)).sum + s.waiting.length

section Drain

variable {body} {p : PublisherRef} {fs : List (V → V)} {enforcers : List Nat}
  {passive : Observer V P σ ε → Prop} {worlds : Nat → World V P σ ε → Prop} {z v : V} {n : Nat}
  {w : World V P σ ε} {s s' : Publisher V (Observer V P σ ε)}

theorem Undisturbed.lineup (h : Undisturbed enforcers passive s s')
    (hs : Lineup p fs enforcers passive s) : Lineup p fs enforcers passive s' := by
  refine ⟨?_, ?_, ?_, ?_⟩
  · intro i hi
    obtain ⟨r, hr, rfl, hcorr⟩ := hs.correct i hi
    exact ⟨r, h.stay r hr hi, rfl, hcorr⟩
  · intro f hf
    obtain ⟨r, hr, hi, hcorr⟩ := hs.complete f hf
    exact ⟨r, h.stay r hr hi, hi, hcorr⟩
  · intro r hr
    exact hs.others r (h.observers r hr)
  · intro r hr
    rcases h.arrivals r hr with hold | hnew
    · exact hs.arrivals r hold
    · exact hnew

/-- A commit concerns nobody in the lineup. -/
theorem Lineup.commit (hs : Lineup p fs enforcers passive s) (hc : s.commit v = some s') :
    Lineup p fs enforcers passive s' := by
  have harr := Publisher.arrivals_commit hc
  obtain rfl := Publisher.commit_eq_some hc
  exact ⟨hs.correct, hs.complete, hs.others, harr ▸ hs.arrivals⟩

/-- A call that is made leaves everybody on the way to the same value, and what it adds to the
queue is a share of the value called with at most. -/
theorem Converging.call [LawfulBEq V] (hby : Bystanders body p enforcers passive worlds)
    (hfs : Compatible fs) (h : Converging p fs enforcers passive worlds z n w s)
    (hp : w.publisher? p = some s) (hd : s.draining = true) (hv : applyAll fs v = z)
    {c : Call V (Observer V P σ ε)} (hc : Assigned p fs enforcers passive v c)
    (calls : List (Call V (Observer V P σ ε))) (u : V) (st : List (Frame V P σ ε)) :
    ∃ es w' s' u' m, CalmRun body w ⟨.run (.ret u), .deliver p (c :: calls) :: st⟩ es w'
        ⟨.run (.ret u'), .deliver p calls :: st⟩ ∧ w'.publisher? p = some s' ∧
      Converging p fs enforcers passive worlds z m w' s' ∧
      load enforcers.length fs s' + m ≤ load enforcers.length fs s + n +
        if c.id ∈ enforcers then share enforcers.length fs v else 0 := by
  have hcall : Thread.step body w ⟨.run (.ret u), .deliver p (c :: calls) :: st⟩ = _ :=
    Thread.moves_iff.1 .called
  have hback : ∀ (w' : World V P σ ε) (u' : V), CalmRun body w'
      ⟨.run (.ret u'), .observe c.observer :: .deliver p calls :: st⟩ [] w'
      ⟨.run (.ret u'), .deliver p calls :: st⟩ :=
    fun w' u' => .single (Thread.moves_iff.1 .observed) trivial
  rcases hc with ⟨hid, hval, f, hf, hreact⟩ | ⟨hid, hpass⟩
  · rw [if_pos hid]
    obtain ⟨es, w', s', hrun, hp', hs'⟩ := corrector_run body hp hd f c.value
      (.observe c.observer :: .deliver p calls :: st)
    rw [← hreact] at hrun
    refine ⟨_, w', s', c.value, n, .cons hcall trivial (hrun.trans (hback w' c.value)), hp', ?_⟩
    rcases hs' with ⟨rfl, rfl⟩ | ⟨rfl, hne, hc⟩
    · exact ⟨h, Nat.le_add_right _ _⟩
    · rw [hval] at hne hc
      have hch := Publisher.changes_commit hc
      refine ⟨⟨h.lineup.commit hc, hby.stable n w s s' h.world hp, ?_, ?_⟩, ?_⟩
      · intro y hy
        rw [hch] at hy
        rcases List.mem_append.1 hy with hold | hnew
        · exact h.changes y hold
        · rw [List.mem_singleton.1 hnew, hfs.applyAll_apply hf, hv]
      · rw [(Publisher.timeline_commit hc).2, hfs.applyAll_apply hf, hv]
      · have hweight := hfs.weight_correction enforcers.length hf hne
        have hw := (Publisher.numbers_commit hc).1
        rw [load, load, hch, hw, List.map_append, List.sum_append, List.map_singleton,
          List.sum_singleton]
        omega
  · rw [if_neg hid]
    obtain ⟨es, w', u', s', m, hrun, hp', hund, hw', hle⟩ :=
      hby.react n w s c.observer c.value h.world hp hd hpass
    have hover := hrun.over (.observe c.observer :: .deliver p calls :: st)
    refine ⟨_, w', s', u', m, .cons hcall trivial (hover.trans (hback w' u')), hp', ?_, ?_⟩
    · refine ⟨hund.lineup h.lineup, hw', ?_, ?_⟩
      · rw [hund.changes]
        exact h.changes
      · rw [hund.current]
        exact h.current
    · rw [load, load, hund.changes]
      omega

/-- The calls due are made one after another. -/
theorem Converging.calls [LawfulBEq V] (hby : Bystanders body p enforcers passive worlds)
    (hfs : Compatible fs) (hv : applyAll fs v = z) {calls : List (Call V (Observer V P σ ε))}
    (h : Converging p fs enforcers passive worlds z n w s) {u : V} {st : List (Frame V P σ ε)}
    (hint : Intact p s w ⟨.run (.ret u), .deliver p calls :: st⟩)
    (hc : ∀ c ∈ calls, Assigned p fs enforcers passive v c) :
    ∃ es w' s' u' m, CalmRun body w ⟨.run (.ret u), .deliver p calls :: st⟩ es w'
        ⟨.run (.ret u'), .deliver p [] :: st⟩ ∧ w'.publisher? p = some s' ∧
      Converging p fs enforcers passive worlds z m w' s' ∧
      load enforcers.length fs s' + m ≤ load enforcers.length fs s + n +
        calls.countP (fun c => c.id ∈ enforcers) * share enforcers.length fs v := by
  induction calls generalizing n w s u with
  | nil => exact ⟨[], w, s, u, n, .refl, hint.found, h, Nat.le_add_right _ _⟩
  | cons c calls ih =>
      obtain ⟨es, w₁, s₁, u₁, m₁, hrun, hp₁, h₁, hle₁⟩ :=
        h.call hby hfs hint.found hint.draining hv (hc c List.mem_cons_self) calls u st
      obtain ⟨s₁', hint₁⟩ := hint.run hrun
      obtain rfl := Option.some.inj (hp₁.symm.trans hint₁.found)
      obtain ⟨es', w', s', u', m, hrun', hp', h', hle'⟩ :=
        ih h₁ hint₁ fun c' hc' => hc c' (List.mem_cons_of_mem c hc')
      refine ⟨_, w', s', u', m, hrun.trans hrun', hp', h', ?_⟩
      by_cases hid : c.id ∈ enforcers
      · rw [if_pos hid] at hle₁
        rw [List.countP_cons_of_pos (by simpa using hid), Nat.succ_mul]
        omega
      · rw [if_neg hid] at hle₁
        rw [List.countP_cons_of_neg (by simpa using hid)]
        omega

/-- Who is called in a round: every enforcer once at most, and bystanders. -/
theorem Lineup.round (hs : Lineup p fs enforcers passive s) (hn : s.present.Nodup) (v : V) :
    (∀ c ∈ s.round v, Assigned p fs enforcers passive v c) ∧
      (s.round v).countP (fun c => c.id ∈ enforcers) ≤ enforcers.length := by
  constructor
  · intro c hc
    obtain ⟨r, hr, rfl⟩ := List.mem_map.1 hc
    by_cases hid : r.id ∈ enforcers
    · obtain ⟨r', hr', he, hcorr⟩ := hs.correct r.id hid
      obtain rfl : r' = r := List.inj_on_of_nodup_map hn hr' hr he
      exact Or.inl ⟨hid, rfl, hcorr⟩
    · exact Or.inr ⟨hid, hs.others r hr hid⟩
  · have hcount : (s.round v).countP (fun c => c.id ∈ enforcers) =
        (s.present.filter (· ∈ enforcers)).length := by
      rw [← List.countP_eq_length_filter, ← Publisher.map_id_round s v, List.countP_map]
      rfl
    have hsub : s.present.filter (· ∈ enforcers) ⊆ enforcers := by
      intro i hi
      simpa using (List.mem_filter.1 hi).2
    rw [hcount]
    exact ((hn.filter _).subperm hsub).length_le

/-- A change that is taken goes to everybody. With all that this may add, the queue is lighter than
before. -/
theorem Converging.pop_emit (hby : Bystanders body p enforcers passive worlds)
    (h : Converging p fs enforcers passive worlds z n w s) (hp : w.publisher? p = some s)
    (hn : s.ids.Nodup) {rest : List (Pending V (Observer V P σ ε))}
    (hq : s.pending = .emit v :: rest) (hs' : s' = { s with delivered := v, pending := rest }) :
    applyAll fs v = z ∧
      Converging p fs enforcers passive worlds z n (w.setPublisher p s') s' ∧
      (∀ c ∈ s.round v, Assigned p fs enforcers passive v c) ∧
      load enforcers.length fs s' + (s.round v).countP (fun c => c.id ∈ enforcers) *
        share enforcers.length fs v < load enforcers.length fs s := by
  subst hs'
  have hch := Publisher.changes_of_emit hq
  have hw := Publisher.waiting_of_emit hq
  have harr := Publisher.arrivals_of_emit hq
  obtain ⟨hassigned, hcount⟩ := h.lineup.round (List.nodup_append.1 hn).1 v
  refine ⟨h.changes v (hch ▸ List.mem_cons_self), ⟨⟨h.lineup.correct, h.lineup.complete,
    h.lineup.others, ?_⟩, hby.stable n w s _ h.world hp, ?_, h.current⟩, hassigned, ?_⟩
  · intro r hr
    exact h.lineup.arrivals r (harr ▸ hr)
  · intro y hy
    exact h.changes y (hch ▸ List.mem_cons_of_mem v hy)
  · have hlt := mul_share_lt_weight enforcers.length fs v
    have hle := Nat.mul_le_mul_right (share enforcers.length fs v) hcount
    rw [load, load, hch, hw, List.map_cons, List.sum_cons]
    show ((Pending.values rest).map _).sum + (Pending.numbers rest).length +
      (s.round v).countP _ * _ < _
    omega

/-- Who subscribed meanwhile is a bystander. -/
theorem Converging.pop_attach (hby : Bystanders body p enforcers passive worlds)
    (h : Converging p fs enforcers passive worlds z n w s) (hp : w.publisher? p = some s)
    (hn : s.ids.Nodup) {r : Registration (Observer V P σ ε)}
    {rest : List (Pending V (Observer V P σ ε))} (hq : s.pending = .attach r :: rest)
    (hs' : s' = { s with observers := s.observers ++ [r], pending := rest }) :
    Converging p fs enforcers passive worlds z n (w.setPublisher p s') s' ∧
      r.id ∉ enforcers ∧ passive r.observer ∧
      load enforcers.length fs s' < load enforcers.length fs s := by
  subst hs'
  have hch := Publisher.changes_of_attach hq
  have hw := Publisher.waiting_of_attach hq
  have harr := Publisher.arrivals_of_attach hq
  have hpass : passive r.observer := h.lineup.arrivals r (harr ▸ List.mem_cons_self)
  have hid : r.id ∉ enforcers := by
    intro hi
    obtain ⟨r', hr', he, -⟩ := h.lineup.correct r.id hi
    have hwait : r.id ∈ s.waiting := hw ▸ List.mem_cons_self
    exact (List.nodup_append.1 hn).2.2 r.id (he ▸ List.mem_map_of_mem hr') r.id hwait rfl
  refine ⟨⟨⟨?_, ?_, ?_, ?_⟩, hby.stable n w s _ h.world hp, ?_, h.current⟩, hid, hpass, ?_⟩
  · intro i hi
    obtain ⟨r', hr', hrest⟩ := h.lineup.correct i hi
    exact ⟨r', List.mem_append_left _ hr', hrest⟩
  · intro f hf
    obtain ⟨r', hr', hrest⟩ := h.lineup.complete f hf
    exact ⟨r', List.mem_append_left _ hr', hrest⟩
  · intro r' hr' hi
    rcases List.mem_append.1 hr' with hold | hnew
    · exact h.lineup.others r' hold hi
    · rw [List.mem_singleton.1 hnew]
      exact hpass
  · intro r' hr'
    exact h.lineup.arrivals r' (harr ▸ List.mem_cons_of_mem r hr')
  · intro y hy
    exact h.changes y (hch ▸ hy)
  · rw [load, load, hch, hw, List.length_cons]
    exact Nat.lt_succ_self _

/-- Taking an entry hands out calls. With all that they may add, the queue is lighter than
before. -/
theorem Converging.pop (hby : Bystanders body p enforcers passive worlds)
    (h : Converging p fs enforcers passive worlds z n w s) (hp : w.publisher? p = some s)
    (hn : s.ids.Nodup) {d : Delivery V (Observer V P σ ε)} (hpop : s.pop = some (d, s')) :
    ∃ v, applyAll fs v = z ∧
      Converging p fs enforcers passive worlds z n (w.setPublisher p s') s' ∧
      (∀ c ∈ d.calls, Assigned p fs enforcers passive v c) ∧
      load enforcers.length fs s' + d.calls.countP (fun c => c.id ∈ enforcers) *
        share enforcers.length fs v < load enforcers.length fs s := by
  rcases Publisher.pop_cases hpop with ⟨v, rest, hq, rfl, hs'⟩ | ⟨r, rest, hq, rfl, hs'⟩
  · exact ⟨v, h.pop_emit hby hp hn hq hs'⟩
  · obtain ⟨h', hid, hpass, hlt⟩ := h.pop_attach hby hp hn hq hs'
    refine ⟨s.current, h.current, h', ?_, ?_⟩
    · intro c hc
      obtain rfl := List.mem_singleton.1 hc
      exact Or.inr ⟨hid, hpass⟩
    · have hnone : (Delivery.replay ⟨r.id, s.delivered, r.observer⟩
          (s.observers.length + 1)).calls.countP (fun c => c.id ∈ enforcers) = 0 :=
        List.countP_eq_zero.2 fun c hc => by
          obtain rfl := List.mem_singleton.1 hc
          simpa using hid
      rw [hnone, Nat.zero_mul]
      exact hlt

/-- A drain of a box with compatible enforcers ends, with a value that all values lead to. -/
theorem Converging.drain [LawfulBEq V] (hby : Bystanders body p enforcers passive worlds)
    (hfs : Compatible fs) (h : Converging p fs enforcers passive worlds z n w s) {u : V}
    {st : List (Frame V P σ ε)} (hint : Intact p s w ⟨.run (.ret u), .deliver p [] :: st⟩) :
    ∃ es w' s' m, CalmRun body w ⟨.run (.ret u), .deliver p [] :: st⟩ es w'
        ⟨.run (.ret s'.current), st⟩ ∧ w'.publisher? p = some s' ∧
      Converging p fs enforcers passive worlds z m w' s' := by
  induction hload : load enforcers.length fs s + n using Nat.strongRecOn generalizing n w s u with
  | ind total ih =>
      cases hpop : s.pop with
      | none =>
          have hstep : Thread.step body w ⟨.run (.ret u), .deliver p [] :: st⟩ = some (_, _, _) :=
            Thread.moves_iff.1 (.drained hint.found hpop)
          refine ⟨_, _, s.endDrain, n, .single hstep trivial,
            World.publisher?_setPublisher_self hint.found, ?_⟩
          exact ⟨⟨h.lineup.correct, h.lineup.complete, h.lineup.others, h.lineup.arrivals⟩,
            hby.stable n w s _ h.world hint.found, h.changes, h.current⟩
      | some taken =>
          obtain ⟨d, s₁⟩ := taken
          obtain ⟨v, hv, h₁, hassigned, hlt⟩ := h.pop hby hint.found hint.lined.nodup hpop
          have hrun₁ : CalmRun body w ⟨.run (.ret u), .deliver p [] :: st⟩ _ (w.setPublisher p s₁)
              ⟨.run (.ret u), .deliver p d.calls :: st⟩ :=
            .single (Thread.moves_iff.1 (.popped hint.found hpop)) trivial
          obtain ⟨s₁', hint₁⟩ := hint.run hrun₁
          obtain rfl := Option.some.inj
            ((World.publisher?_setPublisher_self hint.found).symm.trans hint₁.found)
          -- all calls due are made, and then the queue is lighter than before
          obtain ⟨es₂, w₂, s₂, u₂, m₂, hrun₂, hp₂, h₂, hle₂⟩ := h₁.calls hby hfs hv hint₁ hassigned
          obtain ⟨s₂', hint₂⟩ := hint₁.run hrun₂
          obtain rfl := Option.some.inj (hp₂.symm.trans hint₂.found)
          obtain ⟨es₃, w₃, s₃, m₃, hrun₃, hp₃, h₃⟩ := ih _ (by omega) h₂ hint₂ rfl
          exact ⟨_, w₃, s₃, m₃, hrun₁.trans (hrun₂.trans hrun₃), hp₃, h₃⟩

/-- A write to a settled box that changes its value comes back, and leaves a value that all values
lead to. -/
theorem Lineup.publish [LawfulBEq V] (hl : Lineup p fs enforcers passive s)
    (hby : Bystanders body p enforcers passive worlds) (hfs : Compatible fs) {x : V}
    {k : Prog V P σ ε} {st : List (Frame V P σ ε)} (hint : Intact p s w ⟨.run (.publish p x k), st⟩)
    (hset : Thread.Settled p ⟨.run (.publish p x k), st⟩) (hw : worlds n (w.enterAll s.monitors))
    (hc : s.commit x = some s') :
    ∃ es w₁ s₁ m, CalmRun body w ⟨.run (.publish p x k), st⟩ es (w₁.leaveAll s.monitors)
        ⟨.run k, st⟩ ∧ w₁.publisher? p = some s₁ ∧
      Converging p fs enforcers passive worlds (applyAll fs x) m w₁ s₁ := by
  obtain ⟨hdrain, hempty⟩ := hint.idle hset
  let s₂ : Publisher V (Observer V P σ ε) := { s' with draining := true }
  have hbegin : s'.beginDrain = some s₂ := by
    obtain rfl := Publisher.commit_eq_some hc
    exact if_neg (by rw [show s.draining = false from hdrain]; exact Bool.false_ne_true)
  have hin : (w.enterAll s.monitors).publisher? p = some s :=
    (World.publisher?_enterAll _).trans hint.found
  have hs' : ((w.enterAll s.monitors).setPublisher p s').publisher? p = some s' :=
    World.publisher?_setPublisher_self hin
  have hstart : CalmRun body w ⟨.run (.publish p x k), st⟩ _
      (((w.enterAll s.monitors).setPublisher p s').setPublisher p s₂)
      ⟨.run (.ret s'.current), .deliver p [] :: (s.leaving ++ .resume (fun _ => k) :: st)⟩ :=
    .cons (Thread.moves_iff.1 (.published hint.found hc)) trivial
      (.single (Thread.moves_iff.1 (.draining hs' hbegin)) trivial)
  obtain ⟨s₂', hint₂⟩ := hint.run hstart
  obtain rfl := Option.some.inj ((World.publisher?_setPublisher_self hs').symm.trans hint₂.found)
  have hch : s₂.changes = [x] := by
    show s'.changes = [x]
    rw [Publisher.changes_commit hc, Publisher.changes_of_empty hempty]
    rfl
  have hl' : Lineup p fs enforcers passive s' := hl.commit hc
  have hconv : Converging p fs enforcers passive worlds (applyAll fs x) n
      (((w.enterAll s.monitors).setPublisher p s').setPublisher p s₂) s₂ := by
    refine ⟨⟨hl'.correct, hl'.complete, hl'.others, hl'.arrivals⟩, ?_, ?_, ?_⟩
    · exact hby.stable n _ s' s₂ (hby.stable n _ s s' hw hin) hs'
    · intro v hv
      rw [hch] at hv
      rw [List.mem_singleton.1 hv]
    · exact congrArg _ (Publisher.timeline_commit hc).2
  obtain ⟨es, w₁, s₁, m, hrun, hp₁, h₁⟩ := hconv.drain hby hfs hint₂
  have hleave : CalmRun body w₁ ⟨.run (.ret s₁.current), s.leaving ++ .resume (fun _ => k) :: st⟩ []
      (w₁.leaveAll s.monitors) ⟨.run (.ret s₁.current), .resume (fun _ => k) :: st⟩ :=
    leave_run body w₁ s₁.current s.monitors _
  have hresume : CalmRun body (w₁.leaveAll s.monitors)
      ⟨.run (.ret s₁.current), .resume (fun _ => k) :: st⟩ [] (w₁.leaveAll s.monitors)
      ⟨.run k, st⟩ :=
    .single (Thread.moves_iff.1 .resumed) trivial
  exact ⟨_, w₁, s₁, m, hstart.trans (hrun.trans (hleave.trans hresume)), hp₁, h₁⟩

/-- A write to a settled box with compatible enforcers comes back, and the value then held is what
all invariants together make of the value written, in whatever order the enforcers stand. -/
theorem compatible_enforcers_agree [LawfulBEq V] {starts : Prog V P σ ε → Prop}
    {guard : Option LockId} {c₀ x : V} {w₀ : World V P σ ε} {t₀ : Thread V P σ ε}
    {es : List (Event V ε)} {b : Node (Routine V P σ ε) .reactive} {k : Prog V P σ ε}
    {st : List (Frame V P σ ε)} (hb : b.IsBox p) (h₀ : Born body p guard c₀ w₀ t₀)
    (h : Run body starts Thread.Calm w₀ t₀ es w ⟨.run (b.set x fun _ => k), st⟩)
    (hset : Thread.Settled p ⟨.run (b.set x fun _ => k), st⟩) (hs : w.publisher? p = some s)
    (hl : Lineup p fs enforcers passive s) (hfs : Compatible fs)
    (hby : Bystanders body p enforcers passive worlds) (hw : worlds n (w.enterAll s.monitors)) :
    ∃ es' w' s', CalmRun body w ⟨.run (b.set x fun _ => k), st⟩ es' w' ⟨.run k, st⟩ ∧
      w'.publisher? p = some s' ∧ s'.current = applyAll fs x := by
  rw [hb.set_eq] at h hset ⊢
  obtain ⟨s', hreg⟩ := h₀.found h
  obtain rfl := Option.some.inj (hs.symm.trans hreg.found)
  cases hc : s.commit x with
  | none =>
      -- the value is held already, so all enforcers accept it
      have hcur : s.current = x := eq_of_beq ((Publisher.commit_eq_none_iff s x).1 hc)
      have hrun : CalmRun body w ⟨.run (.publish p x k), st⟩ _
          ((w.enterAll s.monitors).leaveAll s.monitors) ⟨.run k, st⟩ :=
        .cons (Thread.moves_iff.1 (.publishedSame hs hc)) trivial
          ((leave_run body _ s.current s.monitors _).trans
            (.single (Thread.moves_iff.1 .resumed) trivial))
      rw [World.leaveAll_enterAll] at hrun
      refine ⟨_, w, s, hrun, hs, ?_⟩
      have hacc : ∀ f ∈ fs, f s.current = s.current := by
        intro f hf
        obtain ⟨r, hr, -, hreact⟩ := hl.complete f hf
        exact h₀.accepted h hset hs ⟨r, hr, hreact⟩
      rw [hcur] at hacc ⊢
      exact (applyAll_of_accepted hacc).symm
  | some s' =>
      obtain ⟨es', w₁, s₁, m, hrun, hp₁, h₁⟩ := hl.publish hby hfs hreg.intact hset hw hc
      have hp' : (w₁.leaveAll s.monitors).publisher? p = some s₁ :=
        (World.publisher?_leaveAll _).trans hp₁
      refine ⟨es', w₁.leaveAll s.monitors, s₁, hrun, hp', ?_⟩
      -- the write has come back to a settled box, so all enforcers accept the value it left
      have hset' : Thread.Settled p ⟨.run k, st⟩ := ⟨nofun, hset.due⟩
      have hall := h.trans (hrun.mono (fun _ hf => hf.elim) fun _ ht => ht)
      have hacc : ∀ f ∈ fs, f s₁.current = s₁.current := by
        intro f hf
        obtain ⟨r, hr, -, hreact⟩ := h₁.lineup.complete f hf
        exact h₀.accepted hall hset' hp' ⟨r, hr, hreact⟩
      rw [← applyAll_of_accepted hacc]
      exact h₁.current

end Drain

/-- Caps the first component. -/
def capFirst (v : Nat × Nat) : Nat × Nat := (min 10 v.1, v.2)

/-- Caps the second component. -/
def capSecond (v : Nat × Nat) : Nat × Nat := (v.1, min 10 v.2)

/-- A client that attaches an enforcer for each component and an observer that takes notes, and
then writes. -/
def capPair (p : PublisherRef) : Prog (Nat × Nat) Empty Unit Unit :=
  Enforcer.enforce (.rx p) (Node.pureRoutine capFirst) fun _ =>
    Enforcer.enforce (.rx p) (Node.pureRoutine capSecond) fun _ =>
      .attach p [] (fun v => .atom (.tell ()) fun _ => .ret v) fun _ =>
        (Node.rx p).set (15, 15) fun _ => .ret (0, 0)

/-- Two corrections of the pair overwrite each other, and still both components are capped. -/
theorem compatible_enforcers_agree_cap :
    ∃ es w s, CalmRun nofun (World.new ()) (.start (.atom (.newPublisher none (0, 0)) capPair)) es w
        ⟨.run (.ret (0, 0)), []⟩ ∧
      w.publisher? ⟨0⟩ = some s ∧ s.current = (10, 10) := by
  let w₀ : World (Nat × Nat) Empty Unit Unit := World.new ()
  let w₁ : World (Nat × Nat) Empty Unit Unit :=
    { w₀ with publishers := .alloc .empty (.new none (0, 0)) }
  have h₀ : Born nofun ⟨0⟩ none (0, 0) w₁ ⟨.run (capPair ⟨0⟩), []⟩ :=
    .made ⟨(), .atom (.newPublisher none (0, 0)) capPair, [], .refl⟩ rfl
  let note : Observer (Nat × Nat) Empty Unit Unit := ⟨fun v => .atom (.tell ()) fun _ => .ret v, []⟩
  let cap (f : Nat × Nat → Nat × Nat) : Observer (Nat × Nat) Empty Unit Unit :=
    ⟨fun v => (Enforcer.correct (.rx ⟨0⟩) (Node.pureRoutine f) v).thenRet v, [⟨0⟩]⟩
  have hcap : ∀ f, (cap f).react = corrector ⟨0⟩ f := correct_eq .rx
  let s : Publisher (Nat × Nat) (Observer (Nat × Nat) Empty Unit Unit) :=
    ⟨none, (0, 0), (0, 0), [⟨0, cap capFirst⟩, ⟨1, cap capSecond⟩, ⟨2, note⟩], [], false, 3⟩
  obtain ⟨es, w, hadvance, hs⟩ : ∃ es w, Thread.advance nofun 24 w₁ ⟨.run (capPair ⟨0⟩), []⟩ =
      some (w, ⟨.run ((Node.rx ⟨0⟩).set (15, 15) fun _ => .ret (0, 0)), []⟩, es) ∧
      w.publisher? ⟨0⟩ = some s := by
    refine ⟨_, _, rfl, ?_⟩
    rfl
  have hl : Lineup ⟨0⟩ [capFirst, capSecond] [0, 1] (· = note) s := by
    refine ⟨?_, ?_, ?_, nofun⟩
    · intro i hi
      rcases List.mem_pair.1 hi with rfl | rfl
      · exact ⟨_, List.mem_cons_self, rfl, capFirst, List.mem_cons_self, hcap capFirst⟩
      · exact ⟨_, List.mem_cons_of_mem _ List.mem_cons_self, rfl, capSecond,
          List.mem_cons_of_mem _ List.mem_cons_self, hcap capSecond⟩
    · intro f hf
      rcases List.mem_pair.1 hf with rfl | rfl
      · exact ⟨_, List.mem_cons_self, List.mem_cons_self, hcap capFirst⟩
      · exact ⟨_, List.mem_cons_of_mem _ List.mem_cons_self,
          List.mem_cons_of_mem _ List.mem_cons_self, hcap capSecond⟩
    · intro r hr hid
      simp only [s, List.mem_cons, List.not_mem_nil, or_false] at hr
      rcases hr with rfl | rfl | rfl
      · exact absurd List.mem_cons_self hid
      · exact absurd (List.mem_cons_of_mem _ List.mem_cons_self) hid
      · rfl
  have hfs : Compatible [capFirst, capSecond] := by
    constructor
    · intro f hf v
      rcases List.mem_pair.1 hf with rfl | rfl <;> simp [capFirst, capSecond]
    · intro f hf g hg v
      rcases List.mem_pair.1 hf with rfl | rfl <;> rcases List.mem_pair.1 hg with rfl | rfl <;> rfl
  have hby : Bystanders nofun ⟨0⟩ [0, 1] (· = note) fun _ _ => True := by
    refine ⟨fun _ _ _ _ _ _ => trivial, ?_⟩
    rintro n w s o v - hs - rfl
    have hnote : CalmRun nofun w (.start (note.react v)) _ w ⟨.run (.ret v), []⟩ :=
      .single rfl trivial
    exact ⟨_, w, v, s, n, hnote, hs, ⟨rfl, rfl, fun _ hr _ => hr, fun _ hr => hr, fun _ => Or.inl⟩,
      trivial, Nat.le_refl _⟩
  have hmake : CalmRun nofun w₀ (.start (.atom (.newPublisher none (0, 0)) capPair)) [] w₁
      ⟨.run (capPair ⟨0⟩), []⟩ := .single rfl trivial
  have hcalm : CalmRun nofun w₁ ⟨.run (capPair ⟨0⟩), []⟩ es w _ := .of_advance hadvance
  obtain ⟨es', w', s', hrun, hs', hcur⟩ :=
    compatible_enforcers_agree .rx h₀ hcalm ⟨nofun, rfl⟩ hs hl hfs hby (n := 0) trivial
  exact ⟨_, w', s', hmake.trans (hcalm.trans hrun), hs', hcur⟩

end ReactiveCells
