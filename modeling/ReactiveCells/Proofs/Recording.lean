import ReactiveCells.Recorder
import ReactiveCells.Proofs.Confluence
import ReactiveCells.Proofs.Keeping
import ReactiveCells.Proofs.Lapses
import ReactiveCells.Proofs.Listening

/-!
# Recording — what a recorder has when nothing is being delivered

A publisher commits nothing but news, so what a tower on it delivers is what it shows of the values
committed, without those equal to the one before (`delivered`), whether there are gates in the
tower or not.

A recorder that is attached while nothing is being delivered is queued, called with the value held
and registered before anything else happens: no other publisher takes part, and nothing is
committed (`Recorder.Joined`). From then on it is a listener that nobody but its own subscription
can take away. So as long as that is not disposed, a recorder has all that its tower delivers
whenever a call of a client has come back.

Main statements: `Run.news`, `Node.Shows.attaches` and `Recorder.Attached.stream`.
-/

namespace ReactiveCells

variable {V P σ ε : Type} [BEq V] {body : P → Prog V P σ ε} {starts : Prog V P σ ε → Prop}
  {T : Terms V P σ ε} {S : Scope} {w w' : World V P σ ε} {t t' : Thread V P σ ε}
  {es : List (Event V ε)} {n : Node (Routine V P σ ε) .reactive} {p : PublisherRef}
  {s : Publisher V (Observer V P σ ε)} {g : V → V} {u : V}

/-! ## What is committed is news -/

section News

variable [LawfulBEq V]

/-- A move commits nothing, and then the value held stays, or one value that differs from it. -/
theorem View.Move.news {x x' : View V P σ ε} {ls : List (Signal V)} (hm : Move p x ls x') :
    (commits ls = [] ∧ x'.state.current = x.state.current) ∨
      (commits ls = [x'.state.current] ∧ x.state.current ≠ x'.state.current) := by
  have hquiet : (∀ v, .committed v ∉ ls) → commits ls = [] ∧ x'.state.current = x.state.current :=
    fun h => ⟨commits_eq_nil h, hm.current_eq h⟩
  cases hm with
  | @commit s s' due f v hf hc =>
      have hcur : s'.current = v := (Publisher.timeline_commit hc).2
      exact Or.inr ⟨congrArg (fun v => [v]) hcur.symm,
        hcur.symm ▸ ne_of_beq_false (Publisher.ne_of_commit hc)⟩
  | _ => exact Or.inl (hquiet (by simp))

/-- What a publisher commits ends with the value it holds, and no value is equal to the one before,
that held at first included. -/
theorem Run.news {ok : Thread V P σ ε → Prop} (h : Run body starts ok w t es w' t')
    (hs : w.publisher? p = some s) :
    ∃ s', w'.publisher? p = some s' ∧
      (s.current :: commits (signals p es)).getLast? = some s'.current ∧
      unrepeated (s.current :: commits (signals p es)) = s.current :: commits (signals p es) := by
  induction h with
  | refl => exact ⟨s, hs, rfl, rfl⟩
  | @step es es' _ _ _ _ _ hstep _ ih =>
      obtain ⟨s₁, hs₁, hlast, hnews⟩ := ih
      obtain ⟨s', hs', hv⟩ := (Thread.moves_iff.2 hstep).view hs₁
      have hcases : (commits (signals p es') = [] ∧ s'.current = s₁.current) ∨
          (commits (signals p es') = [s'.current] ∧ s₁.current ≠ s'.current) := hv.news
      refine ⟨s', hs', ?_⟩
      rw [signals_append, commits_append, ← List.cons_append]
      rcases hcases with ⟨hnone, hcur⟩ | ⟨hone, hne⟩
      · rw [hnone, List.append_nil]
        exact ⟨hlast.trans (congrArg some hcur.symm), hnews⟩
      · have hnew : (s.current :: commits (signals p es)).getLast? ≠ some s'.current := fun he =>
          hne (Option.some.inj (hlast.symm.trans he))
        rw [hone, unrepeated_concat_new hnew, hnews, List.getLast?_concat]
        exact ⟨rfl, rfl⟩
  | next _ _ _ _ ih => exact ih

/-- A publisher that commits nothing holds what it held. -/
theorem Run.current_eq {ok : Thread V P σ ε → Prop} (h : Run body starts ok w t es w' t')
    (hs : w.publisher? p = some s) (hquiet : commits (signals p es) = []) :
    ∃ s', w'.publisher? p = some s' ∧ s'.current = s.current := by
  obtain ⟨s', hs', hlast, -⟩ := h.news hs
  rw [hquiet] at hlast
  exact ⟨s', hs', (Option.some.inj hlast).symm⟩

end News

/-- What a tower that shows `g` of a publisher delivers to whoever subscribes while it shows `x`:
from then on, what it shows of the values that its publisher commits, without those equal to the one
before. -/
def delivered (p : PublisherRef) (g : V → V) (x : V) (es : List (Event V ε)) : List V :=
  unrepeated (x :: (commits (signals p es)).map g)

/-! ## Attaching an observer that comes back -/

/-- A publisher at which nothing is being delivered serves a new observer at once. -/
theorem Run.serves (o : Observer V P σ ε) (hs : w.publisher? p = some s)
    (hidle : s.draining = false ∧ s.pending = [])
    (hreact : ∀ w₁ : World V P σ ε, w₁.memos = w.memos → ∃ w₂, w₂.publishers = w₁.publishers ∧
      CalmRun body w₁ ⟨.run (o.react s.delivered), []⟩ [] w₂ ⟨.run (.ret u), []⟩) :
    ∃ w' v, CalmRun body ((w.enterAll s.monitors).setPublisher p (s.enqueue o))
      ⟨.drain p, s.leaving⟩
      [.message (.observerSubscribed s.nextId (s.observers.length + 1)),
        .called p s.nextId s.delivered] w' ⟨.run (.ret v), []⟩ := by
  let queued := s.enqueue o
  let call : Call V (Observer V P σ ε) := ⟨s.nextId, s.delivered, o⟩
  let served : Publisher V (Observer V P σ ε) :=
    { queued with draining := true, observers := s.observers ++ [⟨s.nextId, o⟩], pending := [] }
  have hqueued : ((w.enterAll s.monitors).setPublisher p queued).publisher? p = some queued :=
    World.publisher?_enterAll_setPublisher hs
  have hpop : Publisher.pop { queued with draining := true } =
      some (.replay call (s.observers.length + 1), served) := by
    simp [Publisher.pop, Publisher.enqueue, queued, served, call, hidle.2]
  obtain ⟨w₁, htaken, hserved, hmemos⟩ := Run.takes body s.leaving hqueued hidle.1 hpop
  have hmemos₁ : w₁.memos = w.memos := by
    rw [hmemos, World.enterAll_eq]
    rfl
  obtain ⟨w₂, hpubs, hrun⟩ := hreact w₁ hmemos₁
  have hserved₂ : w₂.publisher? p = some served :=
    (congrArg (Heap.get? · p.index) hpubs).trans hserved
  have hcalled : CalmRun body w₁ ⟨.run (.ret s.current), .deliver p [call] :: s.leaving⟩
      [.called p s.nextId s.delivered] w₁
      (Thread.over ⟨.run (o.react s.delivered), []⟩ (.observe o :: .deliver p [] :: s.leaving)) :=
    .single (Thread.moves_iff.1 .called) trivial
  have hdrained : CalmRun body w₂
      (Thread.over ⟨.run (.ret u), []⟩ (.observe o :: .deliver p [] :: s.leaving)) []
      (w₂.setPublisher p served.endDrain) ⟨.run (.ret s.current), s.leaving ++ []⟩ := by
    rw [List.append_nil]
    exact .cons (Thread.moves_iff.1 .observed) trivial
      (.single (Thread.moves_iff.1 (.drained hserved₂ rfl)) trivial)
  have hleft := leave_run body (w₂.setPublisher p served.endDrain) s.current s.monitors []
  exact ⟨_, s.current,
    (htaken.trans (hcalled.trans (hrun.over _))).trans (hdrained.trans hleft)⟩

/-- A listener whose gates are new comes back when it is called, and changes no publisher. -/
theorem Listener.comes_back [LawfulBEq V] (l : Listener V P σ ε) (hnodup : l.lists.Nodup)
    (hblank : w.Blank l.gates) {vs : List V} (hrecord : w.memos.get? l.record.index = some vs)
    (hquiet : l.observer = fun _ => pure ()) (v : V) :
    ∃ w', w'.publishers = w.publishers ∧
      CalmRun body w ⟨.run (l.react v), []⟩ [] w' ⟨.run (.ret v), []⟩ := by
  obtain ⟨root, id, gates, record, o⟩ := l
  obtain rfl : o = fun _ => pure () := hquiet
  obtain ⟨hapart, hgates⟩ := List.nodup_cons.1 hnodup
  have hbefore : w.Blank gates ∨ ∃ u, w.Kept v gates u := Or.inl hblank
  obtain ⟨w₁, hbeside, hpubs, ⟨-, hrun⟩ | ⟨-, hrun⟩⟩ := gated_run body hgates hbefore root
    (recording record fun _ => pure ()) v (fun _ => .ret v) []
  · exact ⟨w₁, hpubs, hrun⟩
  · have hget := (hbeside.memos record hapart).trans hrecord
    have hnoted := World.perform_memo hget (· ++ [Gate.through gates v])
    exact ⟨{ w₁ with memos := w₁.memos.set record.index (vs ++ [Gate.through gates v]) }, hpubs,
      hrun.trans (.single (Thread.Moves.performed hnoted).step trivial)⟩

/-! ## Recorders -/

/-- A recorder is attached by an observer that notes down what it is called with. -/
theorem Recorder.attach_eq (n : Node (Routine V P σ ε) .reactive) (k : Recorder → Prog V P σ ε) :
    Recorder.attach n.subscribe k = .atom (.newMemo []) fun (record : MemoRef) =>
      n.subscribe [] (recording record fun _ => pure ()) fun x => k ⟨record, x⟩ :=
  rfl

/-- Whoever may read the publisher below a tower may attach a recorder to the tower. -/
theorem Recorder.attach_within (hn : n.Shows p g) (hp : .read p ∈ S)
    {k : Recorder → Prog V P σ ε} (hk : ∀ r, (k r).Within T S) :
    (Recorder.attach n.subscribe k).Within T S := by
  rw [Recorder.attach_eq]
  refine .atom nofun (Set.empty_subset _) fun (record : MemoRef) => ?_
  refine hn.subscribe_within (Set.mem_union_left _ hp) (fun v R c hR hc => ?_)
    fun x => (hk ⟨record, x⟩).mono Set.subset_union_left
  have hrecord : .memo record ∈ R := hR (Set.mem_union_right _ (Set.mem_singleton _))
  exact .atom nofun (Set.singleton_subset_iff.2 hrecord) fun _ => hc.mono Set.subset_union_left

/-- A recorder as a listener that was called with some values, and that nobody but its own
subscription can take away. -/
structure Recorder.Attached (r : Recorder) (l : Listener V P σ ε) (T : Terms V P σ ε) (S : Scope)
    (w : World V P σ ε) (t : Thread V P σ ε) (past : List V) : Prop where
  record : l.record = r.recorded
  listens : l.Listens T S w t past
  enrolled : ∃ react, Enrolled l.root l.id react (some r.subscription) w t

namespace Recorder.Attached

variable {r : Recorder} {l : Listener V P σ ε} {past : List V}

/-- The shared lists of a recorder are there. -/
theorem made (h : r.Attached l T S w t past) : ∀ u ∈ l.hidden, u.Made w :=
  h.listens.secret.world.made

theorem recorded_mem (h : r.Attached l T S w t past) : .memo r.recorded ∈ l.hidden :=
  ⟨l.record, List.mem_cons_self, congrArg Use.memo h.record.symm⟩

theorem base (h : r.Attached l T S w t past) : S ⊆ w.scope l.hidden :=
  h.listens.secret.base

/-- Clients may use all that is not hidden. -/
theorem widen (h : r.Attached l T S w t past) : r.Attached l T (w.scope l.hidden) w t past :=
  ⟨h.record, h.listens.widen, h.enrolled⟩

/-- A client that starts a program leaves a recorder as it is. -/
theorem next {o : Outcome V} {c : Prog V P σ ε} (h : r.Attached l T S w t past)
    (ho : t.outcome? = some o) (hc : c.Within (l.terms T) S) :
    r.Attached l T S w (.start c) past := by
  obtain ⟨react, henrolled⟩ := h.enrolled
  exact ⟨h.record, h.listens.next ho hc, react, henrolled.same rfl rfl nofun⟩

/-- Whatever is run, a recorder stays one. -/
theorem run [LawfulBEq V] (h : r.Attached l T S w t past)
    (hbodies : ∀ c, (body c).Within (l.terms T) S)
    (hstarts : ∀ c, starts c → c.Within (l.terms T) S)
    (hrun : Run body starts Thread.Calm w t es w' t') :
    r.Attached l T S w' t' (past ++ received l.id (signals l.root es)) := by
  obtain ⟨react, henrolled⟩ := h.enrolled
  exact ⟨h.record, h.listens.run hbodies hstarts hrun, react, henrolled.run hrun⟩

/-- When a call has come back a recorder has what came through. -/
theorem recorded [LawfulBEq V] {o : Outcome V} (h : r.Attached l T S w t past)
    (ho : t.outcome? = some o) :
    w.memos.get? r.recorded.index = some (l.tape past) := by
  obtain ⟨vs, hvs, -, -, hsettled⟩ := h.listens.records
  rw [← h.record, hvs, hsettled (Thread.settled_of_outcome ho)]

/-- Whenever a call of a client has come back, a recorder that was not detached has what its tower
delivers. -/
theorem stream [LawfulBEq V] {o : Outcome V} (h : r.Attached l T S w t [s.current])
    (hcalm : Calmly body w t) (hset : t.Settled l.root) (hs : w.publisher? l.root = some s)
    (hbodies : ∀ c, (body c).Within (l.terms T) S)
    (hstarts : ∀ c, starts c → c.Within (l.terms T) S)
    (hrun : Run body starts Thread.Calm w t es w' t') (ho : t'.outcome? = some o)
    (hkept : w'.subscriptions.get? r.subscription.index ≠ some none) :
    w'.memos.get? r.recorded.index = some (delivered l.root l.shows (l.shows s.current) es) := by
  obtain ⟨react, henrolled⟩ := h.enrolled
  have hreceived := henrolled.received_eq hcalm hset hrun (Thread.settled_of_outcome ho) hkept
  obtain ⟨-, -, -, hnews⟩ := hrun.news hs
  have hrecorded := (h.run hbodies hstarts hrun).recorded ho
  rw [hreceived, List.singleton_append, Listener.tape_of_news hnews] at hrecorded
  exact hrecorded

end Recorder.Attached

/-! ## Attaching a recorder -/

/-- What has come about when a recorder was attached while nothing was being delivered: it has a new
record, and was queued and called with one value. -/
structure Recorder.Joined (r : Recorder) (l : Listener V P σ ε) (T : Terms V P σ ε) (v u : V)
    (w : World V P σ ε) (es : List (Event V ε)) (w' : World V P σ ε) : Prop where
  fresh : r.recorded = ⟨w.memos.size⟩
  called : signals l.root es = [.queued l.id, .called l.id v]
  alone : ∀ q, q ≠ l.root → signals q es = []
  attached : r.Attached l T (w.scope ∅) w' ⟨.run (.ret u), []⟩ [v]

/-- Nobody knew of a new record. -/
theorem Recorder.Joined.not_mem_hidden {r : Recorder} {l : Listener V P σ ε} {v : V}
    {hidden : Scope} (h : r.Joined l T v u w es w') (hmade : ∀ x ∈ hidden, x.Made w) :
    .memo r.recorded ∉ hidden := by
  intro hmem
  have hold := hmade _ hmem
  rw [h.fresh] at hold
  exact Nat.lt_irrefl w.memos.size hold

/-- To attach a recorder commits nothing. -/
theorem Recorder.Joined.quiet {r : Recorder} {l : Listener V P σ ε} {v : V}
    (h : r.Joined l T v u w es w') (q : PublisherRef) : commits (signals q es) = [] := by
  by_cases hq : q = l.root
  · subst hq
    rw [h.called]
    rfl
  · rw [h.alone q hq]
    rfl

omit [BEq V] in
/-- A publisher at which nothing is being delivered has delivered the value it holds. -/
theorem Regular.delivered_eq (h : Regular p s w t) (hset : t.Settled p) :
    s.delivered = s.current := by
  have hlast : s.timeline.getLast? = some s.current := h.sound.current
  rw [Publisher.timeline_eq, Publisher.changes_of_empty (h.intact.idle hset).2] at hlast
  exact Option.some.inj hlast

/-- A listener that has put down nothing yet is queued, called with the value held and registered,
whatever is to come then. -/
theorem Listener.enrolls [LawfulBEq V] (l : Listener V P σ ε) (hid : l.id = s.nextId)
    (hquiet : l.observer = fun _ => pure ()) (hs : w.publisher? l.root = some s)
    (hnodup : l.lists.Nodup) (hblank : w.Blank l.gates)
    (hrecord : w.memos.get? l.record.index = some [])
    (hcalm : Calmly body w ⟨.run (.attach l.root [] l.react fun _ => .ret u), []⟩) :
    ∃ es w' x, (∀ k, CalmRun body w ⟨.run (.attach l.root [] l.react k), []⟩ es w'
        (.start (k x))) ∧
      (signals l.root es = [.queued l.id, .called l.id s.current] ∧
        ∀ q, q ≠ l.root → signals q es = []) ∧
      Enrolled l.root l.id l.react (some x) w' (.start (.ret u)) := by
  obtain ⟨p, id, gates, record, o⟩ := l
  obtain rfl : id = s.nextId := hid
  let l : Listener V P σ ε := ⟨p, s.nextId, gates, record, o⟩
  have hset : Thread.Settled p (⟨.run (.attach p [] l.react fun _ => .ret u), []⟩ :
      Thread V P σ ε) := ⟨nofun, rfl⟩
  have hreg := hcalm.regular hs
  have hback : ∀ w₁ : World V P σ ε, w₁.memos = w.memos → ∃ w₂, w₂.publishers = w₁.publishers ∧
      CalmRun body w₁ ⟨.run (l.react s.delivered), []⟩ [] w₂ ⟨.run (.ret s.delivered), []⟩ := by
    intro w₁ hmemos
    have hblank₁ : w₁.Blank gates := hblank.same fun g _ => by rw [hmemos]
    have hrecord₁ : w₁.memos.get? record.index = some [] := by
      rw [hmemos]
      exact hrecord
    exact l.comes_back hnodup hblank₁ hrecord₁ hquiet s.delivered
  obtain ⟨w₁, v, hserve⟩ := Run.serves ⟨l.react, []⟩ hs (hreg.intact.idle hset) hback
  rw [hreg.delivered_eq hset] at hserve
  have hqueue : ∀ k, Thread.Moves body w ⟨.run (.attach p [] l.react k), []⟩
      [.queued p s.nextId] _ ⟨.drain p, s.leaving ++ [.register p s.nextId k]⟩ := fun _ =>
    .attached hs
  have hregister : ∀ k, Thread.Moves body w₁ ⟨.run (.ret v), [.register p s.nextId k]⟩ [] _
      (.start (k ⟨w₁.subscriptions.size⟩)) := fun _ => .registered
  have hqueued : Enrolled p s.nextId l.react none _ ⟨.drain p, s.leaving⟩ :=
    .enqueue hcalm.reachable.numbered hs ⟨l.react, []⟩ fun fr hfr => Or.inl hfr
  have henrolled : Enrolled p s.nextId l.react (some ⟨w₁.subscriptions.size⟩)
      (w₁.newSubscription (some (.detach p s.nextId))).2 (.start (.ret u)) :=
    (hqueued.run hserve).newSubscription nofun
  have hrun : ∀ k, CalmRun body w ⟨.run (.attach p [] l.react k), []⟩
      [.queued p s.nextId, .message (.observerSubscribed s.nextId (s.observers.length + 1)),
        .called p s.nextId s.current] (w₁.newSubscription (some (.detach p s.nextId))).2
      (.start (k ⟨w₁.subscriptions.size⟩)) := fun k =>
    .cons (hqueue k).step trivial
      ((hserve.over [.register p s.nextId k]).trans (.single (hregister k).step trivial))
  refine ⟨_, _, ⟨w₁.subscriptions.size⟩, hrun, ⟨?_, ?_⟩, henrolled⟩
  · simp
  · intro q hq
    simp [hq.symm]

/-- New gates are laid in front of a recorder whose record is there, and it is enrolled. -/
theorem Node.Shows.serves [LawfulBEq V] (hn : n.Shows p g) (hs : w.publisher? p = some s)
    {record : MemoRef} (hrecord : w.memos.get? record.index = some [])
    (hcalm : Calmly body w
      ⟨.run (n.subscribe [] (recording record fun _ => pure ()) fun _ => .ret u), []⟩) :
    ∃ es w' x, (∀ k, CalmRun body w
        ⟨.run (n.subscribe [] (recording record fun _ => pure ()) k), []⟩ es w' (.start (k x))) ∧
      (signals p es = [.queued s.nextId, .called s.nextId s.current] ∧
        ∀ q, q ≠ p → signals q es = []) ∧
      ∃ react, Enrolled p s.nextId react (some x) w' (.start (.ret u)) := by
  obtain ⟨gates, w₁, hlaid, -, hlay⟩ := hn.subscribes body w [] (recording record fun _ => pure ())
  let l : Listener V P σ ε := ⟨p, s.nextId, gates, record, fun _ => pure ()⟩
  have hs₁ : w₁.publisher? p = some s := by
    rw [hlaid.same]
    exact hs
  have hnodup : l.lists.Nodup := by
    refine List.nodup_cons.2 ⟨fun hmem => ?_, hlaid.nodup⟩
    obtain ⟨g, hg, he⟩ := List.mem_map.1 hmem
    have hlt : record.index < w.memos.size := (List.getElem?_eq_some_iff.1 hrecord).1
    have hge := hlaid.fresh g hg
    rw [he] at hge
    exact Nat.lt_irrefl _ (Nat.lt_of_lt_of_le hlt hge)
  obtain ⟨es, w', x, hrun, hsignals, henrolled⟩ := l.enrolls rfl rfl hs₁ hnodup hlaid.blank
    (hlaid.kept _ _ hrecord) (hcalm.run (hlay (fun _ => .ret u) []))
  exact ⟨es, w', x, fun k => (hlay k []).trans (hrun k), hsignals, l.react, henrolled⟩

/-- A recorder that is attached while nothing is being delivered is called with the value held, and
nothing else happens. -/
theorem Node.Shows.attaches [LawfulBEq V] (hn : n.Shows p g)
    (hcalm : Calmly body w ⟨.run (.ret u), []⟩) (hs : w.publisher? p = some s)
    (hw : w.Within T.plain (fun _ _ => False) ∅)
    (hbodies : ∀ c, (body c).Within T.plain (w.scope ∅)) :
    ∃ (r : Recorder) (l : Listener V P σ ε) (es : List (Event V ε)) (w' : World V P σ ε),
      (∀ k, CalmRun body w (.start (Recorder.attach n.subscribe k)) es w' (.start (k r))) ∧
      (l.root = p ∧ l.shows = g) ∧ r.Joined l T s.current u w es w' := by
  let l : Listener V P σ ε := ⟨p, s.nextId, [], ⟨w.memos.size⟩, fun _ => pure ()⟩
  let w₀ : World V P σ ε := { w with memos := w.memos.alloc [] }
  have hrecord : w₀.memos.get? l.record.index = some [] := Heap.get?_alloc_self _ _
  have hnew : w.perform (.newMemo []) = some (l.record, w₀, []) := rfl
  have hgrow : w.Grows w₀ := World.grows_perform hnew
  have hmade : ∀ k, CalmRun body w (.start (Recorder.attach n.subscribe k)) [] w₀
      ⟨.run (n.subscribe [] (recording l.record fun _ => pure ()) fun x => k ⟨l.record, x⟩), []⟩ :=
    fun k => .single (Thread.Moves.performed hnew).step trivial
  have hcalm₀ : Calmly body w₀
      ⟨.run (n.subscribe [] (recording l.record fun _ => pure ()) fun _ => .ret u), []⟩ := by
    exact (hcalm.start rfl (Recorder.attach n.subscribe fun _ => .ret u)).run (hmade _)
  obtain ⟨es, w', x, hrun, ⟨hsignals, hothers⟩, hreact⟩ := hn.serves (w := w₀) hs hrecord hcalm₀
  -- nobody knows of the record yet
  have hfresh : ∀ u ∈ l.hidden, u.Made w₀ ∧ ¬ u.Made w := by
    rintro _ ⟨m, hm, rfl⟩
    obtain rfl := List.mem_singleton.1 hm
    exact ⟨(List.getElem?_eq_some_iff.1 hrecord).1, Nat.lt_irrefl w.memos.size⟩
  have hlaying : l.Laying body T (w.scope ∅) g ⟨[], fun _ => .ret u⟩ n w₀
      ⟨.run (n.subscribe [] (recording l.record fun _ => pure ()) fun _ => .ret u), []⟩ := by
    refine ⟨rfl, ⟨g, hn, rfl⟩, List.nodup_singleton _, ?_, ?_, fun _ v => .ret v, nofun,
      fun _ => .ret u, nofun, hrecord, ⟨s, hs, rfl⟩, hcalm₀.reachable⟩
    · exact hw.hide hgrow (fun u hu => (hfresh u hu).1) (fun u hu => (hfresh u hu).2) rfl
        (fun q s hs r hr => ⟨s, hs, hr⟩) rfl
    · exact hgrow.scope_subset fun u hu => Or.inr (hfresh u hu).2
  obtain ⟨gates, ⟨n', -, -, hstill⟩ | ⟨-, hshows, hlistens⟩⟩ :=
    hlaying.run (fun c => (hbodies c).allow _) (fun _ hno => hno.elim) (hrun fun _ => .ret u)
  · exact nomatch hstill.outcome_eq
  · have hone : received l.id (signals p es) = [s.current] := by
      rw [hsignals]
      simp [received, List.filterMap_cons, Signal.handedTo?, l]
    rw [hone] at hlistens
    exact ⟨⟨l.record, x⟩, { l with gates }, es, w', fun k => (hmade k).trans (hrun _),
      ⟨rfl, hshows⟩, rfl, hsignals, hothers, rfl, hlistens, hreact⟩

end ReactiveCells
