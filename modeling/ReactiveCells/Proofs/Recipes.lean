import ReactiveCells.Proofs.Holders
import ReactiveCells.Proofs.Towers

/-!
# Recipes — what a derived value is made of

A derived value follows a tower on one side or one on either side, and its rule says what it makes
of the values shown there. A value that comes through the gates on one side ends in a sink: it is
noted down if there are two sides, and what the rule makes of the latest values is written to the
publisher of the derived value. From the first gate to that write nothing else runs, so the
derived value always holds what the rule makes of what came through last, and nothing is told but
that, if it is new (`Publisher.Tells`).

Some parts of a derived value are its own: the right to write its publisher, the bag of its
subscriptions, the shared list of latest values and those of the gates (`Recipe.Hidden`). Only the
observers on its sources reach them, and its disposal, which empties the bag.

Main statements: `sink_run` (a value is processed without a break), `react_not_within` and
`react_ne` (the observers on the sources are told apart).
-/

namespace ReactiveCells

variable {V P σ ε : Type}

/-- The sides on which a derived value may have a source. -/
inductive Side where
  | left
  | right
deriving DecidableEq

/-- What a side has after one side was given something. -/
theorem Side.of_update {α : Type} {f : Side → Option α} {s s' : Side} {x y : α}
    (h : Function.update f s (some x) s' = some y) :
    (s' = s ∧ y = x) ∨ (s' ≠ s ∧ f s' = some y) := by
  by_cases hs : s' = s
  · subst hs
    rw [Function.update_self] at h
    exact Or.inl ⟨rfl, (Option.some.inj h).symm⟩
  · rw [Function.update_of_ne hs] at h
    exact Or.inr ⟨hs, h⟩

/-- What is made of the values that sources show. A pair keeps the latest values in a shared
list. -/
inductive Rule (V : Type) where
  | image (f : V → V)
  | pair (latest : MemoRef) (g : V → V → V)

namespace Rule

/-- The sides on which there is a source. -/
def sides : Rule V → List Side
  | .image _ => [.left]
  | .pair .. => [.left, .right]

/-- What a rule makes of the values on all sides. -/
def result : Rule V → (Side → V) → V
  | .image f, vals => f (vals .left)
  | .pair _ g, vals => g (vals .left) (vals .right)

/-- The shared lists that a rule needs. -/
def notes : Rule V → List MemoRef
  | .image _ => []
  | .pair latest _ => [latest]

/-- Whether the latest values are noted down. -/
def Noted (w : World V P σ ε) (vals : Side → V) : Rule V → Prop
  | .image _ => True
  | .pair latest _ => w.memos.get? latest.index = some [vals .left, vals .right]

theorem Noted.same {w w' : World V P σ ε} {vals : Side → V} {rule : Rule V}
    (h : rule.Noted w vals)
    (hmemos : ∀ m ∈ rule.notes, w'.memos.get? m.index = w.memos.get? m.index) :
    rule.Noted w' vals := by
  cases rule with
  | image f => trivial
  | pair latest g => exact (hmemos latest (List.mem_singleton_self _)).trans h

end Rule

/-- A derived value, its rule, the publishers below its sources and what these show of them. -/
structure Recipe (V : Type) extends Derived where
  rule : Rule V
  root : Side → PublisherRef
  view : Side → V → V

/-- A source that has been subscribed to: the gates in front of the reaction, and the number of the
observer. -/
structure Feed (V : Type) where
  gates : List (Gate V)
  id : Nat

/-- Where a derived value is disposed, and what comes after. -/
inductive Derived.Disposes (d : Derived) : Prog V P σ ε → Set (Prog V P σ ε) → Prop where
  | dispose (k : Prog V P σ ε) : Disposes d (d.dispose fun _ => k) {k}

/-- The terms on which a derived value is used. -/
abbrev Derived.terms (d : Derived) (T : Terms V P σ ε) : Terms V P σ ε :=
  T.allowing d.Disposes

namespace Recipe

/-- Where a value that came through on one side ends. -/
def sink (δ : Recipe V) (s : Side) (v : V) : Act V P σ ε Unit :=
  match δ.rule, s with
  | .image f, _ => Act.publish δ.value (f v)
  | .pair latest g, .left =>
      Derived.recombine δ.value latest (fun x y => .ret (g x y)) Derived.replaceLeft v
  | .pair latest g, .right =>
      Derived.recombine δ.value latest (fun x y => .ret (g x y)) Derived.replaceRight v

/-- The reaction of the observer on a source. -/
def react [BEq V] (δ : Recipe V) (s : Side) (F : Feed V) : Routine V P σ ε := fun v =>
  (Gate.before F.gates (δ.sink s) v).thenRet v

/-- What only the observers on the sources and the disposal of a derived value reach. -/
inductive Hidden (δ : Recipe V) (feeds : Side → Option (Feed V)) : Use → Prop where
  | publish : Hidden δ feeds (.publish δ.value)
  | amend : Hidden δ feeds (.amend δ.value)
  | bag : Hidden δ feeds (.bag δ.sources)
  | note {m : MemoRef} : m ∈ δ.rule.notes → Hidden δ feeds (.memo m)
  | gate {s : Side} {F : Feed V} {g : Gate V} : feeds s = some F → g ∈ F.gates →
      Hidden δ feeds (.memo g.last)

def hidden (δ : Recipe V) (feeds : Side → Option (Feed V)) : Scope := {u | δ.Hidden feeds u}

/-- The observers on the sources. -/
def Reacts [BEq V] (δ : Recipe V) (feeds : Side → Option (Feed V)) (q : PublisherRef)
    (react : Routine V P σ ε) : Prop :=
  ∃ s F, feeds s = some F ∧ q = δ.root s ∧ react = δ.react s F

/-- Whether the subscriptions to the sources fit together: every gate has a list of its own, and
every observer a number. -/
structure Wired (δ : Recipe V) (feeds : Side → Option (Feed V)) : Prop where
  sided : ∀ {s F}, feeds s = some F → s ∈ δ.rule.sides
  view : ∀ {s F}, feeds s = some F → Gate.through F.gates = δ.view s
  nodup : ∀ {s F}, feeds s = some F → (F.gates.map (·.last)).Nodup
  notes : ∀ {s F g}, feeds s = some F → g ∈ F.gates → g.last ∉ δ.rule.notes
  apart : ∀ {s s' F F' g g'}, feeds s = some F → feeds s' = some F' → s ≠ s' → g ∈ F.gates →
    g' ∈ F'.gates → g.last ≠ g'.last
  ids : ∀ {s s' F F'}, feeds s = some F → feeds s' = some F' → s ≠ s' → δ.root s = δ.root s' →
    F.id ≠ F'.id

/-- The gates on one side are left alone by what happens on the other one. -/
theorem Wired.apart_of_ne {δ : Recipe V} {feeds : Side → Option (Feed V)} (h : δ.Wired feeds)
    {s s' : Side} {F F' : Feed V} (hF : feeds s = some F) (hF' : feeds s' = some F')
    (hne : s' ≠ s) : ∀ g ∈ F'.gates, g.last ∉ δ.rule.notes ++ F.gates.map (·.last) := by
  intro g hg hmem
  rcases List.mem_append.1 hmem with hnote | hgate
  · exact h.notes hF' hg hnote
  · obtain ⟨g', hg', he⟩ := List.mem_map.1 hgate
    exact h.apart hF hF' hne.symm hg' hg he

end Recipe

/-! ## What a sink does -/

/-- What is told of a value that is written: that it is committed, or nothing if it is held. -/
def Publisher.Tells {O : Type} (q : Publisher V O) (d : PublisherRef) (v : V)
    (es : List (Event V ε)) : Prop :=
  (es = [] ∧ q.current = v) ∨ (es = [.committed d v] ∧ q.current ≠ v)

/-- A frame that goes on with nothing. -/
inductive Frame.Idle : Frame V P σ ε → Prop where
  | leave (m : Monitor) : Idle (.leave m)
  | resume (v : V) : Idle (.resume fun _ => .ret v)

/-- A focus in which no program is run. -/
inductive Focus.Idle : Focus V P σ ε → Prop where
  | ret (v : V) : Idle (.run (.ret v))
  | drain (p : PublisherRef) : Idle (.drain p)

section Sinks

variable {T : Terms V P σ ε} {reacts : PublisherRef → Routine V P σ ε → Prop} {S : Scope}

theorem Frame.Idle.within {fr : Frame V P σ ε} (h : fr.Idle) : fr.Within T reacts S := by
  cases h with
  | leave m => trivial
  | resume v => exact fun _ => .ret v

theorem Frame.Idle.calls? {fr : Frame V P σ ε} (h : fr.Idle) (p : PublisherRef) :
    fr.calls? p = none := by
  cases h <;> rfl

theorem Focus.Idle.within {f : Focus V P σ ε} (h : f.Idle) : f.Within T S := by
  cases h with
  | ret v => exact .ret v
  | drain p => trivial

theorem Focus.Idle.calm {f : Focus V P σ ε} (h : f.Idle) : f.Calm := by
  cases h <;> trivial

theorem Frame.idle_of_mem_leaving {O : Type} {r : Publisher V O} {fr : Frame V P σ ε}
    (h : fr ∈ r.leaving) : fr.Idle := by
  obtain ⟨m, -, rfl⟩ := List.mem_map.1 h
  exact .leave m

variable [BEq V] [LawfulBEq V] (body : P → Prog V P σ ε) {w : World V P σ ε} {d : PublisherRef}
  {q : Publisher V (Observer V P σ ε)}

/-- A value that reaches the end of a modification becomes the value held. -/
theorem Thread.Moves.of_commit (hq : w.publisher? d = some q) (v : V)
    (st : List (Frame V P σ ε)) :
    ∃ es w' f, Moves body w ⟨.run (.ret v), .commit d :: st⟩ es w' ⟨f, st⟩ ∧ f.Idle ∧
      w.Beside d [] w' ∧ (∃ q', w'.publisher? d = some q' ∧ q'.current = v) ∧ q.Tells d v es := by
  cases hc : q.commit v with
  | none =>
      have hsame : q.current = v := eq_of_beq ((Publisher.commit_eq_none_iff q v).1 hc)
      exact ⟨_, w, _, .amendedSame hq hc, .ret _, .refl w, ⟨q, hq, hsame⟩, Or.inl ⟨rfl, hsame⟩⟩
  | some q' =>
      exact ⟨_, _, _, .amended hq hc, .drain d, .commit hq hc,
        ⟨q', World.publisher?_setPublisher_self hq, (Publisher.timeline_commit hc).2⟩,
        Or.inr ⟨rfl, ne_of_beq_false (Publisher.ne_of_commit hc)⟩⟩

/-- A value that is written becomes the value held. -/
theorem Thread.Moves.of_publish (hq : w.publisher? d = some q) (v : V) (k : Prog V P σ ε)
    (st : List (Frame V P σ ε)) :
    ∃ es w' f, Moves body w ⟨.run (.publish d v k), st⟩ es w'
        ⟨f, q.leaving ++ .resume (fun _ => k) :: st⟩ ∧ f.Idle ∧
      w.Beside d [] w' ∧ (∃ q', w'.publisher? d = some q' ∧ q'.current = v) ∧ q.Tells d v es := by
  have hq' := (World.publisher?_enterAll (w := w) q.monitors).trans hq
  have henter : w.Beside d [] (w.enterAll q.monitors) := .enterAll w q.monitors
  cases hc : q.commit v with
  | none =>
      have hsame : q.current = v := eq_of_beq ((Publisher.commit_eq_none_iff q v).1 hc)
      exact ⟨_, _, _, .publishedSame hq hc, .ret _, henter, ⟨q, hq', hsame⟩, Or.inl ⟨rfl, hsame⟩⟩
  | some q' =>
      exact ⟨_, _, _, .published hq hc, .drain d, henter.trans (.commit hq' hc),
        ⟨q', World.publisher?_setPublisher_self hq', (Publisher.timeline_commit hc).2⟩,
        Or.inr ⟨rfl, ne_of_beq_false (Publisher.ne_of_commit hc)⟩⟩

/-- Latest values are replaced and combined without a break. -/
theorem recombine_run (hq : w.publisher? d = some q) {latest : MemoRef} {old : List V}
    (hold : w.memos.get? latest.index = some old) {compute : V → V → Prog V P σ ε}
    {replace : V → List V → List V} {v x : V}
    (hx : Derived.combinePair compute v (replace v old) = .ret x) (k : Unit → Prog V P σ ε)
    (st : List (Frame V P σ ε)) :
    ∃ es w' f, CalmRun body w ⟨.run (Derived.recombine d latest compute replace v k), st⟩ es w'
        ⟨f, q.leaving ++ .resume (fun _ => k ()) :: st⟩ ∧ f.Idle ∧ w.Beside d [latest] w' ∧
      (∃ q', w'.publisher? d = some q' ∧ q'.current = x) ∧
      w'.memos.get? latest.index = some (replace v old) ∧ q.Tells d x es := by
  let st' : List (Frame V P σ ε) := q.leaving ++ .resume (fun _ => k ()) :: st
  let w₁ := w.enterAll q.monitors
  let w₂ : World V P σ ε := { w₁ with memos := w₁.memos.set latest.index (replace v old) }
  have hold₁ : w₁.memos.get? latest.index = some old := by
    rw [show w₁ = _ from World.enterAll_eq w q.monitors]
    exact hold
  have hnote : w₁.perform (.memo latest (replace v)) = some (old, w₂, []) :=
    World.perform_memo hold₁ (replace v)
  have hq₂ : w₂.publisher? d = some q := (World.publisher?_enterAll q.monitors).trans hq
  have henter : CalmRun body w ⟨.run (Derived.recombine d latest compute replace v k), st⟩ [] w₁
      ⟨.run (.atom (.memo latest (replace v)) fun (old : List V) =>
        (Derived.combinePair compute v (replace v old)).bind .ret), .commit d :: st'⟩ :=
    .single (Thread.Moves.amending hq).step trivial
  have hnoted : CalmRun body w₁ ⟨.run (.atom (.memo latest (replace v)) fun (old : List V) =>
        (Derived.combinePair compute v (replace v old)).bind .ret), .commit d :: st'⟩ [] w₂
      ⟨.run ((Derived.combinePair compute v (replace v old)).bind .ret), .commit d :: st'⟩ :=
    .single (Thread.Moves.performed hnote).step trivial
  rw [hx] at hnoted
  obtain ⟨es, w', f, hcommit, hidle, hbeside, hcur, htells⟩ :=
    Thread.Moves.of_commit body hq₂ x st'
  refine ⟨es, w', f, (henter.trans hnoted).trans (.single hcommit.step hidle.calm), hidle, ?_, hcur,
    ?_, htells⟩
  · have hmemo : w₁.Beside d [latest] w₂ := .memo (List.mem_singleton_self _) hnote
    have hentered : w.Beside d [latest] w₁ := .enterAll w q.monitors
    exact (hentered.trans hmemo).trans (hbeside.mono (List.nil_subset _))
  · rw [hbeside.memos latest List.not_mem_nil]
    exact Heap.get?_set_self _ _ _ _ hold₁

/-- A sink writes what the rule makes of the latest values, without a break. -/
theorem Recipe.sink_run {δ : Recipe V} {vals : Side → V} (hq : w.publisher? δ.value = some q)
    (hnoted : δ.rule.Noted w vals) {s : Side} (hs : s ∈ δ.rule.sides) (v : V)
    (k : Unit → Prog V P σ ε) (st : List (Frame V P σ ε)) :
    ∃ es w' f, CalmRun body w ⟨.run (δ.sink s v k), st⟩ es w'
        ⟨f, q.leaving ++ .resume (fun _ => k ()) :: st⟩ ∧ f.Idle ∧
      w.Beside δ.value δ.rule.notes w' ∧
      (∃ q', w'.publisher? δ.value = some q' ∧
        q'.current = δ.rule.result (Function.update vals s v)) ∧
      δ.rule.Noted w' (Function.update vals s v) ∧
      q.Tells δ.value (δ.rule.result (Function.update vals s v)) es := by
  obtain ⟨d, rule, root, view⟩ := δ
  cases rule with
  | image f =>
      obtain rfl := List.mem_singleton.1 hs
      obtain ⟨es, w', f', hpublish, hidle, hbeside, hcur, htells⟩ :=
        Thread.Moves.of_publish body hq (f v) (k ()) st
      exact ⟨es, w', f', .single hpublish.step hidle.calm, hidle, hbeside, hcur, trivial, htells⟩
  | pair latest g =>
      cases s with
      | left =>
          have hx : Derived.combinePair (fun x y => (.ret (g x y) : Prog V P σ ε)) v
              (Derived.replaceLeft v [vals .left, vals .right]) = .ret (g v (vals .right)) := rfl
          obtain ⟨es, w', f', hrun, hrest⟩ := recombine_run body hq hnoted hx k st
          exact ⟨es, w', f', hrun, hrest⟩
      | right =>
          have hx : Derived.combinePair (fun x y => (.ret (g x y) : Prog V P σ ε)) v
              (Derived.replaceRight v [vals .left, vals .right]) = .ret (g (vals .left) v) := rfl
          obtain ⟨es, w', f', hrun, hrest⟩ := recombine_run body hq hnoted hx k st
          exact ⟨es, w', f', hrun, hrest⟩

omit [BEq V] [LawfulBEq V] in
/-- A sink keeps to a scope in which the derived value may be written. -/
theorem Recipe.sink_within {δ : Recipe V} (hpublish : .publish δ.value ∈ S)
    (hamend : .amend δ.value ∈ S) (hnotes : ∀ m ∈ δ.rule.notes, .memo m ∈ S) {c : Prog V P σ ε}
    (hc : c.Within T S) (s : Side) (v : V) : (δ.sink s v fun _ => c).Within T S := by
  obtain ⟨d, rule, root, view⟩ := δ
  cases rule with
  | image f => exact .publish hpublish hc
  | pair latest g =>
      have hneeds : ∀ replace : List V → List V,
          (Atom.memo latest replace : Atom V σ ε).needs ⊆ S := fun _ =>
        Set.singleton_subset_iff.2 (hnotes latest (List.mem_singleton_self _))
      -- whatever the list of latest values, one value comes out
      have hcombine : ∀ {R : Scope} (vs : List V), ((Derived.combinePair
          (fun x y => (.ret (g x y) : Prog V P σ ε)) v vs).bind .ret).Within T R := by
        rintro R (_ | ⟨x, _ | ⟨y, rest⟩⟩) <;> exact .ret _
      cases s <;> exact .amend hamend
        (fun _ => .atom nofun (hneeds _) fun (_ : List V) => hcombine _) fun _ => hc

end Sinks

/-! ## The observers on the sources -/

section Reactions

variable [BEq V] {δ : Recipe V} {feeds : Side → Option (Feed V)} {s s' : Side} {F F' : Feed V}

namespace Recipe

/-- A reaction uses first what is hidden. -/
theorem react_head (hF : feeds s = some F) (v : V) :
    ∃ u ∈ (δ.react s F v : Prog V P σ ε).head, δ.Hidden feeds u := by
  obtain ⟨gates, id⟩ := F
  cases gates with
  | cons g gates => exact ⟨_, rfl, .gate hF List.mem_cons_self⟩
  | nil =>
      obtain ⟨d, rule, root, view⟩ := δ
      cases rule with
      | image f => exact ⟨_, rfl, .publish⟩
      | pair latest g => cases s <;> exact ⟨_, rfl, .amend⟩

/-- A reaction is no disposal. -/
theorem react_plain (v : V) (K : Set (Prog V P σ ε)) : ¬ δ.Disposes (δ.react s F v) K := by
  intro h
  generalize hc : (δ.react s F v : Prog V P σ ε) = c at h
  cases h with
  | dispose k =>
      obtain ⟨gates, id⟩ := F
      cases gates with
      | cons g gates => exact nomatch hc
      | nil =>
          obtain ⟨d, rule, root, view⟩ := δ
          cases rule with
          | image f => exact nomatch hc
          | pair latest g => cases s <;> exact nomatch hc

/-- A reaction is no program of a client. -/
theorem react_not_within {T : Terms V P σ ε} {w : World V P σ ε} (hF : feeds s = some F) (v : V) :
    ¬ (δ.react s F v).Within (δ.terms T) (w.scope (δ.hidden feeds)) := by
  intro h
  obtain ⟨u, hu, hhidden⟩ := react_head (P := P) (σ := σ) (ε := ε) hF v
  exact (h.head_subset (react_plain v) hu).2 hhidden

/-- A reaction keeps to a scope in which nothing of the derived value is hidden. -/
theorem react_within {T : Terms V P σ ε} {S : Scope} (hF : feeds s = some F)
    (hS : δ.hidden feeds ⊆ S) (v : V) : (δ.react s F v).Within T S :=
  Gate.before_within (fun _ hg => hS (.gate hF hg))
    (fun u => δ.sink_within (hS .publish) (hS .amend) (fun _ hm => hS (.note hm)) (.ret v) s u)
    (.ret v) v

/-- Reactions on different sides are different programs. -/
theorem react_ne (hw : δ.Wired feeds) (hF : feeds s = some F) (hF' : feeds s' = some F')
    (hne : s ≠ s') (v v' : V) : (δ.react s F v : Prog V P σ ε) ≠ δ.react s' F' v' := by
  intro he
  have hs := hw.sided hF
  have hs' := hw.sided hF'
  have hapart : ∀ g g', g ∈ F.gates → g' ∈ F'.gates → g.last ≠ g'.last := fun _ _ =>
    hw.apart hF hF' hne
  obtain ⟨gates, id⟩ := F
  obtain ⟨gates', id'⟩ := F'
  obtain ⟨d, rule, root, view⟩ := δ
  cases gates with
  | cons g gates =>
      cases gates' with
      | cons g' gates' =>
          have hatom := (Prog.atom.inj he).1
          exact hapart g g' List.mem_cons_self List.mem_cons_self (Atom.memo.inj hatom).1
      | nil =>
          cases rule with
          | image f => exact nomatch he
          | pair latest g => cases s' <;> exact nomatch he
  | nil =>
      cases rule with
      | image f => exact hne ((List.mem_singleton.1 hs).trans (List.mem_singleton.1 hs').symm)
      | pair latest g =>
          cases gates' with
          | cons g' gates' => cases s <;> exact nomatch he
          | nil =>
              -- replacing the left value keeps a list of one, replacing the right one does not
              have hlist : ∀ u u' : V, Derived.replaceLeft u ≠ Derived.replaceRight u' :=
                fun u u' hfun => nomatch congrFun hfun [u]
              have hfirst : ∀ {r r' : List V → List V},
                  (.memo latest r : Atom V σ ε) = .memo latest r' → r = r' :=
                fun h => (Atom.memo.inj h).2
              cases s <;> cases s'
              · exact hne rfl
              · have hmemo := (Prog.atom.inj (congrFun (Prog.amend.inj he).2.1 v)).1
                exact hlist v v' (hfirst hmemo)
              · have hmemo := (Prog.atom.inj (congrFun (Prog.amend.inj he).2.1 v)).1
                exact hlist v' v (hfirst hmemo).symm
              · exact hne rfl

end Recipe

end Reactions

end ReactiveCells
