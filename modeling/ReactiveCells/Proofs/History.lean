import ReactiveCells.Proofs.Life

/-!
# Histories — what was lost on the way

A panic that reaches a drain throws away whatever is still queued. No event tells of that, so what
became of a publisher cannot be read off the events alone. A path keeps every move that was made,
with the state it was made in: there one sees which panics ended a drain (`Thread.Breaks`) and what
was queued at that moment.

The states also tell what the calls of a run ask of a publisher (`Moment.asks?`): a write of a value
other than the one held asks for a commit, a subscription for a number, a disposal for a removal.

Main statements: `Path.run` and `Run.path` (paths are the runs of any client), `Path.asked` (what
happens to a publisher, besides the calls of observers, is what was asked for), `Moves.kept` (only a
panic that ends a drain takes calls away) and `Path.follow` (induction over a path, with every
publisher as it should be).
-/

namespace ReactiveCells

variable {V P σ ε : Type}

/-- A move that was made: the state it was made in, and its events. -/
structure Moment (V P σ ε : Type) where
  world : World V P σ ε
  thread : Thread V P σ ε
  events : List (Event V ε)

/-- Whether a panic is about to end a drain of a publisher. -/
def Thread.Breaks (p : PublisherRef) : Thread V P σ ε → Prop
  | ⟨.unwind _, .deliver q _ :: _⟩ => q = p
  | _ => False

instance (p : PublisherRef) (t : Thread V P σ ε) : Decidable (t.Breaks p) := by
  unfold Thread.Breaks
  split <;> infer_instance

theorem Thread.breaks_iff {p : PublisherRef} {t : Thread V P σ ε} :
    t.Breaks p ↔ ∃ text calls st, t = ⟨.unwind text, .deliver p calls :: st⟩ := by
  constructor
  · intro h
    unfold Thread.Breaks at h
    split at h
    · subst h
      exact ⟨_, _, _, rfl⟩
    · exact h.elim
  · rintro ⟨text, calls, st, rfl⟩
    exact rfl

/-- Whether the move is a panic. -/
def Moment.Panics (m : Moment V P σ ε) : Prop :=
  ∃ text, m.thread.focus = .run (.panic text)

/-- The events of a number of moves, the latest move first. -/
def told (past : List (Moment V P σ ε)) : List (Event V ε) :=
  past.reverse.flatMap (·.events)

@[simp] theorem told_cons (m : Moment V P σ ε) (past : List (Moment V P σ ε)) :
    told (m :: past) = told past ++ m.events := by
  simp [told]

variable [BEq V]

/-- What leads from one state to another, whatever clients do, with all moves made on the way, the
latest first. -/
inductive Path (body : P → Prog V P σ ε) (w₀ : World V P σ ε) (t₀ : Thread V P σ ε) :
    List (Moment V P σ ε) → World V P σ ε → Thread V P σ ε → Prop where
  | refl : Path body w₀ t₀ [] w₀ t₀
  | step {past : List (Moment V P σ ε)} {es : List (Event V ε)} {w w' : World V P σ ε}
      {t t' : Thread V P σ ε} :
      Path body w₀ t₀ past w t → Thread.Moves body w t es w' t' →
      Path body w₀ t₀ (⟨w, t, es⟩ :: past) w' t'
  /-- The thread has ended and the client starts a program. -/
  | next {past : List (Moment V P σ ε)} {w : World V P σ ε} {t : Thread V P σ ε} {o : Outcome V}
      (c : Prog V P σ ε) :
      Path body w₀ t₀ past w t → t.outcome? = some o → Path body w₀ t₀ past w (.start c)

section Path

variable {body : P → Prog V P σ ε} {starts : Prog V P σ ε → Prop} {ok : Thread V P σ ε → Prop}
  {w₀ w w' : World V P σ ε} {t₀ t t' : Thread V P σ ε} {es : List (Event V ε)}
  {past : List (Moment V P σ ε)} {p : PublisherRef} {s : Publisher V (Observer V P σ ε)}

/-- Without a panic under way, only a panic puts one under way. -/
theorem Thread.Moves.calm (hm : Moves body w t es w' t') (h : t.Calm)
    (hquiet : ¬ Moment.Panics ⟨w, t, es⟩) : t'.Calm := by
  cases hm with
  | panicked => exact absurd ⟨_, rfl⟩ hquiet
  | caught | expelled | abandoned | passed => exact h.elim
  | _ => trivial

/-- A path on which nothing panics is a run without panics of some client. -/
theorem Path.run (h : Path body w₀ t₀ past w t) (h₀ : t₀.Calm)
    (hquiet : ∀ m ∈ past, ¬ m.Panics) :
    Run body (fun _ => True) Thread.Calm w₀ t₀ (told past) w t ∧ t.Calm := by
  induction h with
  | refl => exact ⟨.refl, h₀⟩
  | step _ hm ih =>
      obtain ⟨hmove, hbefore⟩ := List.forall_mem_cons.1 hquiet
      obtain ⟨hrun, hcalm⟩ := ih hbefore
      have hcalm' := hm.calm hcalm hmove
      rw [told_cons]
      exact ⟨.step hrun hm.step hcalm', hcalm'⟩
  | next c _ hend ih => exact ⟨.next (ih hquiet).1 hend trivial trivial, trivial⟩

/-- Every run has taken a path, and what holds of its threads holds after every move of the path. -/
theorem Run.path (h : Run body starts ok w₀ t₀ es w t) :
    ∃ past, Path body w₀ t₀ past w t ∧ told past = es ∧
      ∀ m ∈ past, ∃ w' t', Thread.Moves body m.world m.thread m.events w' t' ∧ ok t' := by
  induction h with
  | refl => exact ⟨[], .refl, rfl, nofun⟩
  | step _ hstep hok ih =>
      obtain ⟨past, hpath, rfl, hall⟩ := ih
      have hm := Thread.moves_iff.2 hstep
      exact ⟨_, hpath.step hm, told_cons _ _, List.forall_mem_cons.2 ⟨⟨_, _, hm, hok⟩, hall⟩⟩
  | next _ hend _ _ ih =>
      obtain ⟨past, hpath, htold, hall⟩ := ih
      exact ⟨past, hpath.next _ hend, htold, hall⟩

/-- Only a panic that ends a drain of a publisher takes calls away that are due. -/
theorem Thread.Moves.kept (hm : Moves body w t es w' t') (hwhole : ¬ t.Breaks p) :
    t'.focus.Calm ∨ (t.due p).length ≤ (t'.due p).length := by
  cases hm with
  | @abandoned text q calls s st hq =>
      -- the drain is of another publisher
      right
      exact Nat.le_of_eq (congrArg List.length (due_cons_deliver_ne hwhole _ _ _))
  | @passed text fr st hfr =>
      right
      have hnone : fr.calls? p = none := by
        cases fr <;> first | rfl | exact hfr.elim
      exact Nat.le_of_eq (congrArg List.length (due_cons_of_calls? hnone _ _))
  | expelled | panicked => exact Or.inr (Nat.le_refl _)
  | _ => exact Or.inl trivial

/-- A panic that ends a drain abandons the publisher and leaves no trace. -/
theorem Intact.abandons {s' : Publisher V (Observer V P σ ε)} (h : Intact p s w t)
    (hm : Thread.Moves body w t es w' t') (h' : Intact p s' w' t') (hbreaks : t.Breaks p) :
    s' = s.abandon ∧ es = [] := by
  obtain ⟨text, calls, st, rfl⟩ := Thread.breaks_iff.1 hbreaks
  cases hm with
  | abandoned hs =>
      obtain rfl := Option.some.inj (h.found.symm.trans hs)
      have habandoned : (w.setPublisher p s.abandon).publisher? p = some s.abandon :=
        World.publisher?_setPublisher_self h.found
      exact ⟨Option.some.inj (h'.found.symm.trans habandoned), rfl⟩
  | passed hfr => exact hfr.elim

/-- What holds of a publisher, is kept by every move and does not depend on the program that a
client starts holds for good, panics or not. -/
theorem Path.follow
    (Inv : List (Moment V P σ ε) → Publisher V (Observer V P σ ε) → World V P σ ε →
      Thread V P σ ε → Prop)
    (h₀ : Intact p s w₀ t₀) (h : Path body w₀ t₀ past w t) (start : Inv [] s w₀ t₀)
    (move : ∀ past s w t es s' w' t', Inv past s w t → Intact p s w t →
      Thread.Moves body w t es w' t' → View.Move p (t.view p s) (signals p es) (t'.view p s') →
      Intact p s' w' t' → Inv (⟨w, t, es⟩ :: past) s' w' t')
    (next : ∀ past s w t c o, Inv past s w t → t.outcome? = some o → Inv past s w (.start c)) :
    ∃ s, Intact p s w t ∧ Inv past s w t := by
  induction h with
  | refl => exact ⟨s, h₀, start⟩
  | step _ hm ih =>
      obtain ⟨s, hs, hinv⟩ := ih
      obtain ⟨s', hs', hv⟩ := hs.move hm
      exact ⟨s', hs', move _ _ _ _ _ _ _ _ hinv hs hm hv hs'⟩
  | next c _ hend ih =>
      obtain ⟨s, hs, hinv⟩ := ih
      exact ⟨s, hs.next hend c, next _ _ _ _ c _ hinv hend⟩

end Path

/-! ## What the calls ask of a publisher -/

/-- Whether a signal tells of the call of an observer. -/
def Signal.isCall : Signal V → Bool
  | .called .. => true
  | .committed _ | .queued _ | .detached _ => false

/-- Whether a publisher is there and holds a value other than `v`. -/
def World.differs (w : World V P σ ε) (p : PublisherRef) (v : V) : Bool :=
  (w.publisher? p).any fun s => !(s.current == v)

/-- What the operation about to be performed asks of a publisher. A `set` asks for a commit if its
value differs from the one held at this moment, and so does a `modify` when its function has come
to a value. -/
def Moment.asks? (p : PublisherRef) (m : Moment V P σ ε) : Option (Signal V) :=
  match m.thread with
  | ⟨.run (.publish q v _), _⟩ | ⟨.run (.ret v), .commit q :: _⟩ =>
      if q = p ∧ m.world.differs q v then some (.committed v) else none
  | ⟨.run (.attach q _ _ _), _⟩ =>
      if q = p then (m.world.publisher? p).map fun s => .queued s.nextId else none
  | ⟨.run (.dispose s _), _⟩ =>
      match m.world.subscriptions.get? s.index with
      | some (some (.detach q id)) => if q = p then some (.detached id) else none
      | _ => none
  | _ => none

/-- What was asked of a publisher in a number of moves, the latest move first. -/
def asked (p : PublisherRef) (past : List (Moment V P σ ε)) : List (Signal V) :=
  past.reverse.filterMap (Moment.asks? p)

@[simp] theorem asked_cons (p : PublisherRef) (m : Moment V P σ ε) (past : List (Moment V P σ ε)) :
    asked p (m :: past) = asked p past ++ (m.asks? p).toList := by
  rw [asked, List.reverse_cons, List.filterMap_append, List.filterMap_cons, List.filterMap_nil]
  cases m.asks? p <;> rfl

section Asked

variable {body : P → Prog V P σ ε} {w₀ w w' : World V P σ ε} {t₀ t t' : Thread V P σ ε}
  {es : List (Event V ε)} {past : List (Moment V P σ ε)} {p q : PublisherRef} {v : V}
  {s s' : Publisher V (Observer V P σ ε)}

/-- A write commits exactly if its value is not the one held. -/
theorem World.differs_eq (hs : w.publisher? p = some s) : w.differs p v = (s.commit v).isSome := by
  rw [World.differs, hs, Publisher.commit]
  cases hc : s.current == v <;> simp [hc]

/-- What a move does to a publisher, besides calling an observer, is what was asked for. -/
theorem Thread.Moves.asked (hm : Moves body w t es w' t') :
    (signals p es).filter (!·.isCall) = (Moment.asks? p ⟨w, t, es⟩).toList := by
  -- only writes, subscriptions and disposals ask for anything, and a write does unless its value is
  -- held already
  cases hm with
  | publishedSame hs hc | amendedSame hs hc => simp [Moment.asks?, World.differs_eq hs, hc]
  | published hs hc | amended hs hc =>
      simp only [Moment.asks?, World.differs_eq hs, hc]
      split <;> simp_all [Signal.isCall]
  | @attached q keeps o k r st hs =>
      by_cases hq : q = p
      · subst hq
        simp [Moment.asks?, hs, Signal.isCall]
      · simp [Moment.asks?, hq]
  | @called v q c calls st =>
      by_cases hq : q = p <;> simp [Moment.asks?, hq, Signal.isCall]
  | popped => simp [signals_report, Moment.asks?]
  | performed ha => simp [signals_perform p ha, Moment.asks?]
  | disposedAgain hsub | tornDown hsub => simp [Moment.asks?, hsub]
  | @detached s q id r k st hsub hs =>
      by_cases hq : q = p
      · subst hq
        simp [Moment.asks?, hsub, Signal.isCall]
      · simp [Moment.asks?, hsub, hq]
  | _ => rfl

/-- What happens to a publisher on a path, besides calls of observers, is what was asked for, in
the order in which it was. -/
theorem Path.asked (h : Path body w₀ t₀ past w t) :
    (signals p (told past)).filter (!·.isCall) = asked p past := by
  induction h with
  | refl => rfl
  | step _ hm ih =>
      rw [told_cons, signals_append, List.filter_append, ih, hm.asked, asked_cons]
  | next _ _ _ ih => exact ih

end Asked

end ReactiveCells
