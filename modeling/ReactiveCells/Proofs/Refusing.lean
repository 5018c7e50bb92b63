import ReactiveCells.Proofs.Distinct
import ReactiveCells.Proofs.Sequencing

/-!
# Refusing — an ordered set that refuses a list stays as it is

A list that is set is refused before the publisher of the set is touched. A modification that is
refused does reach the publisher: it writes the list that it has read. That changes nothing if
nobody has written in between, which is up to the function that the set is modified by. And it is
told from a modification that came to the same list by a note that nobody else can get at, whatever
the observers do that are called meanwhile.

Main statements: `Moves.aside` (who does not operate on a publisher leaves it alone), `Run.within`,
`set_refused`, `modify_refused` and `ordered_set_distinct`.
-/

namespace ReactiveCells

open HasElements

variable {V T P σ ε : Type}

/-! ## Who leaves a publisher alone -/

/-- Whether a thread is about to write to a publisher, to modify it, or to add or remove an
observer. -/
inductive Thread.Operates (p : PublisherRef) (w : World V P σ ε) : Thread V P σ ε → Prop where
  | publish (v : V) (k : Prog V P σ ε) (st : List (Frame V P σ ε)) :
      Operates p w ⟨.run (.publish p v k), st⟩
  | amend (f k : Routine V P σ ε) (st : List (Frame V P σ ε)) :
      Operates p w ⟨.run (.amend p f k), st⟩
  | attach (keeps : List PublisherRef) (o : Routine V P σ ε) (k : SubscriptionRef → Prog V P σ ε)
      (st : List (Frame V P σ ε)) : Operates p w ⟨.run (.attach p keeps o k), st⟩
  | detach {s : SubscriptionRef} {id : Nat} (k : Prog V P σ ε) (st : List (Frame V P σ ε)) :
      w.subscriptions.get? s.index = some (some (.detach p id)) →
      Operates p w ⟨.run (.dispose s k), st⟩

/-- Whether a waiting call is none that a publisher has to do with. -/
def Frame.Aside (p : PublisherRef) : Frame V P σ ε → Prop
  | .deliver q _ | .commit q => q ≠ p
  | .resume _ | .attempt _ | .leave _ | .observe _ | .register .. | .swapIn .. => True

/-- Whether nothing that a publisher has to do with is under way. -/
structure Thread.Aside (p : PublisherRef) (t : Thread V P σ ε) : Prop where
  focus : t.focus ≠ .drain p
  stack : ∀ fr ∈ t.stack, fr.Aside p

section Aside

variable [BEq V] {body : P → Prog V P σ ε} {p : PublisherRef} {w w' : World V P σ ε}
  {t t' : Thread V P σ ε} {es : List (Event V ε)} {s : Publisher V (Observer V P σ ε)}

omit [BEq V] in
theorem Thread.aside_start (p : PublisherRef) (c : Prog V P σ ε) : (Thread.start c).Aside p :=
  ⟨fun h => (by cases h), fun _ h => absurd h List.not_mem_nil⟩

/-- Who does not operate on a publisher leaves it alone. -/
theorem Thread.Moves.aside (hm : Moves body w t es w' t') (ht : t.Aside p)
    (hp : w.publisher? p = some s) (hno : ¬ t.Operates p w) :
    t'.Aside p ∧ w'.publisher? p = some s ∧ signals p es = [] := by
  obtain ⟨hfocus, hstack⟩ := ht
  have hrun : ∀ c : Prog V P σ ε, Focus.run c ≠ .drain p := fun c h => by cases h
  have hunwind : ∀ text, (.unwind text : Focus V P σ ε) ≠ .drain p := fun text h => by cases h
  have elsewhere : ∀ {q : PublisherRef} {r : Publisher V (Observer V P σ ε)}, q ≠ p →
      (w.setPublisher q r).publisher? p = some s := fun hq =>
    (World.publisher?_setPublisher_ne hq).trans hp
  have entered : ∀ (q : PublisherRef) (r r' : Publisher V (Observer V P σ ε)), q ≠ p →
      ((w.enterAll r.monitors).setPublisher q r').publisher? p = some s := fun q r r' hq =>
    (World.publisher?_setPublisher_ne hq).trans ((World.publisher?_enterAll _).trans hp)
  have below : ∀ {fr : Frame V P σ ε} {st : List (Frame V P σ ε)}, (∀ fr' ∈ fr :: st, fr'.Aside p) →
      ∀ fr' ∈ st, fr'.Aside p := fun h fr' hmem => h fr' (List.mem_cons_of_mem _ hmem)
  have push : ∀ {fr : Frame V P σ ε} {st : List (Frame V P σ ε)}, fr.Aside p →
      (∀ fr' ∈ st, fr'.Aside p) → ∀ fr' ∈ fr :: st, fr'.Aside p := fun hfr hst =>
    List.forall_mem_cons.2 ⟨hfr, hst⟩
  have leaves : ∀ (r : Publisher V (Observer V P σ ε)) {st : List (Frame V P σ ε)},
      (∀ fr ∈ st, fr.Aside p) → ∀ fr ∈ r.leaving ++ st, fr.Aside p := fun r _ =>
    r.forall_mem_leaving fun _ => trivial
  cases hm with
  | resumed | unharmed | left | observed | registered | swapped | caught | amendedSame =>
      exact ⟨⟨hrun _, below hstack⟩, hp, rfl⟩
  | expelled | passed => exact ⟨⟨hunwind _, below hstack⟩, hp, rfl⟩
  | panicked => exact ⟨⟨hunwind _, hstack⟩, hp, rfl⟩
  | disposedAgain | prepared => exact ⟨⟨hrun _, hstack⟩, hp, rfl⟩
  | entered | attempted => exact ⟨⟨hrun _, push trivial hstack⟩, hp, rfl⟩
  | tornDown => exact ⟨⟨hrun _, push trivial hstack⟩, hp, rfl⟩
  | held | retried => exact ⟨⟨hrun _, push trivial (push trivial hstack)⟩, hp, rfl⟩
  | contended => exact ⟨⟨hrun _, push trivial (below hstack)⟩, hp, rfl⟩
  | performed ha =>
      exact ⟨⟨hrun _, hstack⟩, World.perform_publisher? ha hp, signals_perform p ha⟩
  | @called v q c calls st =>
      have hq : q ≠ p := hstack _ List.mem_cons_self
      have hrest : (.deliver q calls : Frame V P σ ε).Aside p := hq
      refine ⟨⟨hrun _, push trivial (push hrest (below hstack))⟩, hp, ?_⟩
      simp [hq]
  | drained =>
      exact ⟨⟨hrun _, below hstack⟩, elsewhere (hstack _ List.mem_cons_self), rfl⟩
  | abandoned =>
      exact ⟨⟨hunwind _, below hstack⟩, elsewhere (hstack _ List.mem_cons_self), rfl⟩
  | @popped v q r d r' st =>
      have hq : q ≠ p := hstack _ List.mem_cons_self
      have hrest : (.deliver q d.calls : Frame V P σ ε).Aside p := hq
      exact ⟨⟨hrun _, push hrest (below hstack)⟩, elsewhere hq, signals_report p d⟩
  | @amended v q r r' st =>
      have hq : q ≠ p := hstack _ List.mem_cons_self
      refine ⟨⟨drain_ne hq, below hstack⟩, elsewhere hq, ?_⟩
      simp [hq]
  | busy => exact ⟨⟨hrun _, hstack⟩, hp, rfl⟩
  | @draining q r r' st =>
      have hq : q ≠ p := fun he => hfocus (he ▸ rfl)
      have hnew : (.deliver q [] : Frame V P σ ε).Aside p := hq
      exact ⟨⟨hrun _, push hnew hstack⟩, elsewhere hq, rfl⟩
  | @publishedSame q v k r st =>
      exact ⟨⟨hrun _, leaves r (push trivial hstack)⟩,
        (World.publisher?_enterAll _).trans hp, rfl⟩
  | @published q v k r r' st =>
      have hq : q ≠ p := fun he => hno (he ▸ .publish v k st)
      refine ⟨⟨drain_ne hq, leaves r (push trivial hstack)⟩, entered q r r' hq, ?_⟩
      simp [hq]
  | @amending q f k r st =>
      have hq : (.commit q : Frame V P σ ε).Aside p := fun he => hno (he ▸ .amend f k st)
      exact ⟨⟨hrun _, push hq (leaves r (push trivial hstack))⟩,
        (World.publisher?_enterAll _).trans hp, rfl⟩
  | @attached q keeps o k r st =>
      have hq : q ≠ p := fun he => hno (he ▸ .attach keeps o k st)
      refine ⟨⟨drain_ne hq, leaves r (push trivial hstack)⟩, entered q r _ hq, ?_⟩
      simp [hq]
  | @detached c q id r k st hsub =>
      have hq : q ≠ p := by
        rintro rfl
        exact hno (.detach k st hsub)
      refine ⟨⟨hrun _, hstack⟩, elsewhere hq, ?_⟩
      simp [hq]

/-- A run in which nobody operates on a publisher leaves it alone. -/
theorem Run.aside (h : AnyRun body w t es w' t') (ht : t.Aside p) (hp : w.publisher? p = some s)
    (hno : ∀ es w' t', AnyRun body w t es w' t' → ¬ t'.Operates p w') :
    t'.Aside p ∧ w'.publisher? p = some s ∧ signals p es = [] := by
  induction h with
  | refl => exact ⟨ht, hp, rfl⟩
  | step hrun hstep _ ih =>
      obtain ⟨ht₁, hp₁, hpast⟩ := ih
      obtain ⟨ht₂, hp₂, hnow⟩ :=
        (Thread.moves_iff.2 hstep).aside ht₁ hp₁ (hno _ _ _ hrun)
      exact ⟨ht₂, hp₂, by rw [signals_append, hpast, hnow]; rfl⟩
  | next _ _ hc _ _ => exact hc.elim

end Aside

/-! ## Runs that keep to a scope -/

section Within

variable [BEq V] {body : P → Prog V P σ ε} {R : Terms V P σ ε} {hidden S : Scope}
  {w w' : World V P σ ε} {t t' : Thread V P σ ε} {es : List (Event V ε)}

/-- Whether all that a thread runs keeps to a scope. -/
structure Thread.Within (R : Terms V P σ ε) (S : Scope) (t : Thread V P σ ε) : Prop where
  focus : t.focus.Within R S
  stack : ∀ fr ∈ t.stack, fr.Within R (fun _ _ => False) S

omit [BEq V] in
/-- Programs in sequence. -/
theorem Prog.Within.bind {c : Prog V P σ ε} {g : Routine V P σ ε} (h : c.Within R.plain S)
    (hg : ∀ v, (g v).Within R.plain S) : (c.bind g).Within R.plain S := by
  induction h with
  | ret v => exact hg v
  | panic text => exact .panic text
  | own hf _ ih => exact .own hf fun S' hS x hx => ih S' hS x hx fun v => (hg v).mono hS
  | atom hown hneeds _ ih =>
      exact .atom hown hneeds fun x => ih x fun v => (hg v).mono Set.subset_union_left
  | call _ ih => exact .call fun v => ih v hg
  | attempt hc _ _ ih => exact .attempt hc fun r => ih r hg
  | hold hc _ _ ih => exact .hold hc fun v => ih v hg
  | retry hf _ _ ih => exact .retry hf fun v => ih v hg
  | publish hp _ ih => exact .publish hp (ih hg)
  | amend hp hf _ _ ih => exact .amend hp hf fun v => ih v hg
  | attach hp ho _ _ ih => exact .attach hp ho fun r => ih r hg
  | onDispose hc _ _ ih => exact .onDispose hc fun r => ih r hg
  | dispose _ ih => exact .dispose (ih hg)
  | special h => exact h.elim

omit [BEq V] in
theorem Thread.within_start {c : Prog V P σ ε} (h : c.Within R S) :
    (Thread.start c).Within R S :=
  ⟨h, nofun⟩

omit [BEq V] in
/-- What is left of a modification once its function has given a list. -/
theorem Thread.within_committing {O : Type} {p : PublisherRef} {q : Publisher V O}
    {c : Prog V P σ ε} (hc : c.Within R S) (hp : .amend p ∈ S) :
    Thread.Within R S ⟨.run c, .commit p :: q.leaving ++ [.resume .ret]⟩ := by
  refine ⟨hc, fun fr hfr => ?_⟩
  rcases List.mem_cons.1 hfr with rfl | hfr
  · exact hp
  · rcases mem_of_mem_leaving hfr with ⟨m, rfl⟩ | hlast
    · trivial
    · rw [List.mem_singleton.1 hlast]
      exact .ret

/-- Who keeps to a scope does so in the end, and leaves hidden lists alone. -/
theorem Run.within {starts : Prog V P σ ε → Prop} {ok : Thread V P σ ε → Prop}
    (h : Run body starts ok w t es w' t') (hbody : ∀ c, (body c).Within R.plain (w.scope hidden))
    (hstarts : ∀ c, starts c → c.Within R.plain (w.scope hidden))
    (hw : w.Within R.plain (fun _ _ => False) hidden) (ht : t.Within R.plain (w.scope hidden)) :
    w.Grows w' ∧ w'.Within R.plain (fun _ _ => False) hidden ∧
      t'.Within R.plain (w'.scope hidden) ∧
      ∀ m, .memo m ∈ hidden → w'.memos.get? m.index = w.memos.get? m.index := by
  induction h with
  | refl => exact ⟨.refl w, hw, ht, fun _ _ => rfl⟩
  | @step es es' w₁ w₂ t₁ t₂ _ hstep _ ih =>
      obtain ⟨hgrow₁, hw₁, ht₁, hmemo₁⟩ := ih
      have hm := Thread.moves_iff.2 hstep
      obtain ⟨hgrow, hw₂, hstack, hfocus⟩ := hm.within (fun c => (hbody c).mono hgrow₁.scope) hw₁
        (fun _ fr hfr => ht₁.stack fr (List.mem_of_mem_head? hfr)) ht₁.focus fun _ _ _ h => h
      refine ⟨hgrow₁.trans hgrow, hw₂, ⟨?_, ?_⟩, fun m hmem => ?_⟩
      · exact hfocus.resolve_right fun ⟨_, _, _, _, _, _, hno, _⟩ => hno
      · intro fr hfr
        exact (hstack fr hfr).elim (fun hold => (ht₁.stack fr hold).mono hgrow.scope) id
      · exact (hm.hidden_memo_eq hw₁ ht₁.focus hmem fun _ _ _ _ h => h).trans (hmemo₁ m hmem)
  | next _ _ hc _ ih =>
      obtain ⟨hgrow, hw₁, -, hmemo⟩ := ih
      exact ⟨hgrow, hw₁, Thread.within_start ((hstarts _ hc).mono hgrow.scope), hmemo⟩

end Within

/-! ## Programs that use a set -/

namespace OrderedSet

section Clients

variable [HasElements V T] [BEq T] {s : OrderedSet} {R : Terms V P σ ε} {S : Scope}
  {c : Prog V P σ ε} {f : Routine V P σ ε}

theorem accept_within {m : MemoRef} (hm : .memo m ∈ S) (v next : V) :
    (s.accept m v next : Prog V P σ ε).Within R S := by
  cases hres : s.policy.resolve (elements next) with
  | ok l =>
      rw [accept_of_ok s hres]
      exact .ret _
  | error e =>
      rw [accept_of_error s hres]
      refine .atom nofun (Set.empty_subset _) fun _ => ?_
      refine .atom nofun (Set.singleton_subset_iff.2 (Or.inl hm)) fun _ => ?_
      exact .ret v

/-- Clients of a set use the set besides what is in their scope. -/
theorem within_of_client (h : c.Within (s.terms R) S) : c.Within R.plain (S ∪ s.uses) := by
  have wider : ∀ {S : Scope} {c : Prog V P σ ε} (A : Scope), c.Within R.plain (S ∪ s.uses) →
      c.Within R.plain (S ∪ s.uses ∪ A) := fun _ h => h.mono Set.subset_union_left
  have mem : ∀ {S : Scope} {u : Use}, u ∈ s.uses → u ∈ S ∪ s.uses := fun hu => Or.inr hu
  have hread : Use.read s.publisher ∈ s.uses := Or.inl rfl
  have hpublish : Use.publish s.publisher ∈ s.uses := Or.inr (Or.inl rfl)
  have hamend : Use.amend s.publisher ∈ s.uses := Or.inr (Or.inr rfl)
  induction h with
  | ret v => exact .ret v
  | panic text => exact .panic text
  | @own S f k hf _ ih =>
      have hle : ∀ S', S ∪ s.uses ⊆ S' → S ⊆ S' ∧ S' ∪ s.uses = S' := fun S' hS =>
        ⟨Set.subset_union_left.trans hS,
          Set.union_eq_left.2 (Set.subset_union_right.trans hS)⟩
      refine .own (fun S' hS => hf S' (hle S' hS).1) fun S' hS x hx => ?_
      exact (hle S' hS).2 ▸ ih S' (hle S' hS).1 x hx
  | @atom S a k hown hneeds _ ih =>
      refine .atom hown (hneeds.trans Set.subset_union_left) fun x => ?_
      rw [Set.union_right_comm]
      exact ih x
  | call _ ih => exact .call ih
  | attempt _ _ ihc ihk => exact .attempt ihc ihk
  | hold _ _ ihc ihk => exact .hold ihc ihk
  | retry _ _ ihf ihk => exact .retry ihf ihk
  | publish hp _ ih => exact .publish (Or.inl hp) ih
  | amend hp _ _ ihf ihk => exact .amend (Or.inl hp) ihf ihk
  | attach hp _ _ iho ihk => exact .attach (Or.inl hp) iho ihk
  | onDispose _ _ ihc ihk => exact .onDispose ihc ihk
  | dispose _ ih => exact .dispose ih
  | @special S c K h _ ih =>
      have hop : s.Operation c K := h
      cases hop with
      | get k =>
          exact .atom nofun (Set.singleton_subset_iff.2 (mem hread)) fun v =>
            wider _ (ih _ ⟨_, rfl⟩)
      | contains v k =>
          exact .atom nofun (Set.singleton_subset_iff.2 (mem hread)) fun v =>
            wider _ (ih _ ⟨_, rfl⟩)
      | set vs k =>
          cases hres : s.policy.resolve vs with
          | ok l =>
              rw [set_of_ok s hres]
              exact .publish (mem hpublish) (ih _ ⟨_, rfl⟩)
          | error e =>
              rw [set_of_error s hres]
              exact .atom nofun (Set.empty_subset _) fun _ => wider _ (ih _ ⟨_, rfl⟩)
      | modify f k =>
          rw [modify_eq]
          refine .atom nofun (Set.empty_subset _) fun m => ?_
          refine .amend (Or.inl (mem hamend)) (fun v => ?_) fun held => ?_
          · exact Prog.Within.bind (wider _ (ih _ (Or.inl ⟨v, rfl⟩))) fun next =>
              accept_within (Or.inr rfl) v next
          · refine .atom nofun (Set.singleton_subset_iff.2 (Or.inr rfl)) fun refused => ?_
            exact (ih _ (Or.inr ⟨_, rfl⟩)).mono (Set.subset_union_left.trans Set.subset_union_left)
      | subscribe keeps o k =>
          exact .attach (mem hread) (fun v => ih _ (Or.inl ⟨v, rfl⟩)) fun r =>
            ih _ (Or.inr ⟨r, rfl⟩)

end Clients

/-! ## Refusals -/

section Refusals

variable [BEq V] [HasElements V T] [BEq T] {s : OrderedSet} {R : Terms V P σ ε}
  {body : P → Prog V P σ ε} {w w' : World V P σ ε} {es : List (Event V ε)} {f : Routine V P σ ε}
  {q : Publisher V (Observer V P σ ε)} {vs : List T} {e : DuplicateValue} {m : MemoRef} {u : V}

theorem modify_passes (f : Routine V P σ ε) : (s.modify f).Passes body w := by
  refine .bind (.atom _) fun m w => ?_
  refine .bind (.amend _ _) fun held w => ?_
  refine .bind (.atom _) fun refused w => ?_
  cases refused with
  | nil => exact .pure _
  | cons next rest => exact .pure _

theorem set_passes (vs : List T) : (s.set vs : Act V P σ ε _).Passes body w := by
  have hresolve : (resolve s.policy vs : Act V P σ ε _).Passes body w := by
    cases hres : s.policy.resolve vs with
    | ok l =>
        have heq : (resolve s.policy vs : Act V P σ ε _) = pure (.ok l) :=
          funext fun _ => resolve_of_ok hres _
        exact heq ▸ .pure _
    | error e =>
        have heq : (resolve s.policy vs : Act V P σ ε _) =
            Act.report (.duplicateRejected e.index e.firstIndex) >>= fun _ => pure (.error e) :=
          funext fun _ => resolve_of_error hres _
        exact heq ▸ .bind (.atom _) fun _ _ => .pure _
  refine .bind hresolve fun r w => ?_
  cases r with
  | error e => exact .pure _
  | ok l => exact .bind (.publish _ _) fun _ _ => .pure _

/-- Goes on with a panic from what is accepted, and with a value from what is refused. -/
def telling {α : Type} (u : V) : Except DuplicateValue α → Prog V P σ ε
  | .ok _ => .panic ""
  | .error _ => .ret u

/-- What is accepted does not come to what is refused. -/
theorem telling_ok {α : Type} {a : α} :
    ¬ AnyRun body w ⟨.run (telling u (.ok a)), []⟩ es w' ⟨.run (.ret u), []⟩ := by
  intro h
  have hpanic : Thread.Moves body w ⟨.run (.panic ""), []⟩ [] w ⟨.unwind "", []⟩ := .panicked
  obtain ⟨es₂, -, hrest⟩ := AnyRun.rest (.single hpanic.step trivial) h rfl
  obtain ⟨st, ht, -⟩ := hrest.unwinds nofun
  exact nomatch ht

theorem telling_error {α : Type} {e : DuplicateValue}
    (h : AnyRun body w ⟨.run (telling u (.error e : Except _ α)), []⟩ es w' ⟨.run (.ret u), []⟩) :
    es = [] ∧ w' = w := by
  obtain ⟨hes, hw, -⟩ := AnyRun.unique (.refl) rfl h rfl
  exact ⟨hes, hw⟩

/-- A refused list has touched nothing. -/
theorem set_refused (h : (s.set vs).Comes body w (.error e) es w') :
    w' = w ∧ signals s.publisher es = [] := by
  let u : V := ofElements vs
  have hrun : AnyRun body w ⟨.run (s.set vs (telling u)), []⟩ es w' ⟨.run (.ret u), []⟩ :=
    h (telling u) []
  cases hres : s.policy.resolve vs with
  | error e' =>
      rw [set_of_error s hres] at hrun
      have hm : Thread.Moves body w
          ⟨.run (.atom (.report (.duplicateRejected e'.index e'.firstIndex))
            fun _ => telling u (.error e' : Except _ Unit)), []⟩
          [.message (.duplicateRejected e'.index e'.firstIndex)] w _ := .performed rfl
      obtain ⟨es₂, rfl, hrest⟩ := AnyRun.rest (.single hm.step trivial) hrun rfl
      obtain ⟨rfl, rfl⟩ := telling_error hrest
      exact ⟨rfl, rfl⟩
  | ok l =>
      rw [set_of_ok s hres] at hrun
      -- what is written is followed by the answer that the list was accepted
      have hsplit : AnyRun body w
          ⟨.run ((Prog.publish s.publisher (ofElements l) (.ret u)).bind
            fun _ => telling u (.ok () : Except _ Unit)), []⟩ es w' ⟨.run (.ret u), []⟩ := hrun
      obtain ⟨es₁, es₂, w₁, t, o, rfl, -, -, hafter⟩ := hsplit.passed (o := .returned u) rfl
      cases o with
      | returned v => exact absurd hafter telling_ok
      | panicked text =>
          obtain ⟨st, ht, -⟩ := hafter.unwinds nofun
          exact nomatch ht

/-- What is refused is noted, and the list that was read is written, which changes nothing. -/
theorem accept_refused [ReflBEq V] {next held : V}
    (hres : s.policy.resolve (elements next) = .error e) (hp : w.publisher? s.publisher = some q)
    (hm : w.memos.get? m.index = some [])
    (h : AnyRun body w ⟨.run (s.accept m q.current next), .commit s.publisher :: q.leaving ++
      [.resume .ret]⟩ es w' ⟨.run (.ret held), []⟩) :
    w'.publisher? s.publisher = some q ∧ signals s.publisher es = [] := by
  let noted : World V P σ ε := { w with memos := w.memos.set m.index [next] }
  let st : List (Frame V P σ ε) := .commit s.publisher :: q.leaving ++ [.resume .ret]
  have hreport : Thread.Moves body w ⟨.run (s.accept m q.current next), st⟩
      [.message (.duplicateRejected e.index e.firstIndex)] w
      ⟨.run (.atom (.memo m fun _ => [next]) fun _ => .ret q.current), st⟩ := by
    rw [accept_of_error s hres]
    exact .performed rfl
  have hnote : Thread.Moves body w
      ⟨.run (.atom (.memo m fun _ => [next]) fun _ => .ret q.current), st⟩ [] noted
      ⟨.run (.ret q.current), st⟩ := .performed (World.perform_memo hm _)
  have hsame : q.commit q.current = none := if_pos BEq.rfl
  have hwrite : Thread.Moves body noted ⟨.run (.ret q.current), st⟩ [] noted
      ⟨.run (.ret q.current), q.leaving ++ [.resume .ret]⟩ := .amendedSame hp hsame
  have hback : AnyRun body noted ⟨.run (.ret q.current), q.leaving ++ [.resume .ret]⟩ [] _ _ :=
    (Run.of_leaving noted q q.current .ret []).any
  obtain ⟨rfl, rfl, -⟩ := AnyRun.unique (.cons hreport.step trivial (.cons hnote.step trivial
    (.cons hwrite.step trivial hback))) rfl h rfl
  exact ⟨(World.publisher?_leaveAll _).trans hp, rfl⟩

/-- A modification has left its publisher alone, or has noted nothing. -/
theorem amend_refused [ReflBEq V] {held : V}
    (hbody : ∀ c, (body c).Within R.plain (w.scope {.memo m}))
    (hw : w.Within R.plain (fun _ _ => False) {.memo m})
    (hf : ∀ v, (f v).Within R.plain (w.scope {.memo m})) (hp : w.publisher? s.publisher = some q)
    (hm : w.memos.get? m.index = some [])
    (hidle : ∀ es w' t, AnyRun body (w.enterAll q.monitors) (.start (f q.current)) es w' t →
      ¬ t.Operates s.publisher w')
    (h : AnyRun body w (.start (.amend s.publisher (fun v => (f v).bind (s.accept m v)) .ret)) es w'
      ⟨.run (.ret held), []⟩) :
    w'.memos.get? m.index = some [] ∨
      w'.publisher? s.publisher = some q ∧ signals s.publisher es = [] := by
  have hmem : Use.memo m ∈ ({.memo m} : Scope) := rfl
  have hgrow := World.grows_enterAll (w := w) q.monitors
  have hamend : .amend s.publisher ∈ (w.enterAll q.monitors).scope {.memo m} :=
    ⟨hgrow.made (List.getElem?_eq_some_iff.1 hp).1, fun h => by cases h⟩
  have hm' : (w.enterAll q.monitors).memos.get? m.index = some [] := by
    rw [World.enterAll_eq]
    exact hm
  have hfirst : Thread.Moves body w
      (.start (.amend s.publisher (fun v => (f v).bind (s.accept m v)) .ret)) []
      (w.enterAll q.monitors) ⟨.run ((f q.current).bind (s.accept m q.current)),
        .commit s.publisher :: q.leaving ++ [.resume .ret]⟩ := .amending hp
  obtain ⟨es, rfl, hrest⟩ := AnyRun.rest (.single hfirst.step trivial) h rfl
  obtain ⟨es₁, es₂, w₁, t, o, rfl, hinside, -, hafter⟩ := hrest.passed (o := .returned held) rfl
  obtain ⟨hgrow₁, hw₁, -, hmemo₁⟩ := Run.within hinside (fun c => (hbody c).mono hgrow.scope)
    (fun _ hc => hc.elim) (hw.enterAll _) (Thread.within_start ((hf q.current).mono hgrow.scope))
  obtain ⟨-, hp₁, hsilent⟩ := hinside.aside (Thread.aside_start _ _)
    ((World.publisher?_enterAll _).trans hp) hidle
  cases o with
  | panicked text =>
      obtain ⟨st, ht, -⟩ := hafter.unwinds (by
        intro fr hfr k hk
        simp [Publisher.leaving, hk] at hfr)
      cases ht
  | returned next =>
      cases hres : s.policy.resolve (elements next) with
      | ok l =>
          -- whoever is called meanwhile cannot get at the note
          have hscope : w.scope {.memo m} ⊆ w₁.scope {.memo m} := (hgrow.trans hgrow₁).scope
          have haccept : (s.accept m q.current next).Within R.plain (w₁.scope {.memo m}) := by
            rw [accept_of_ok s hres]
            exact .ret _
          obtain ⟨-, -, -, hmemo⟩ := Run.within hafter (fun c => (hbody c).mono hscope)
            (fun _ hc => hc.elim) hw₁ (Thread.within_committing haccept (hgrow₁.scope hamend))
          exact Or.inl ((hmemo m hmem).trans ((hmemo₁ m hmem).trans hm'))
      | error e =>
          obtain ⟨hp₂, hsilent₂⟩ := accept_refused hres hp₁ ((hmemo₁ m hmem).trans hm') hafter
          exact Or.inr ⟨hp₂, (signals_append _ es₁ es₂).trans (by rw [hsilent, hsilent₂]; rfl)⟩

/-- What a modification that is refused answers is read from its note. -/
theorem noted_of_refused {held : V}
    (h : AnyRun body w ⟨.run (.atom (.memo m id) fun refused =>
      telling u (s.answer held refused)), []⟩ es w' ⟨.run (.ret u), []⟩) :
    es = [] ∧ w'.publishers = w.publishers ∧ w.memos.get? m.index ≠ some [] := by
  rcases h.first with ⟨-, -, hend⟩ | ⟨w₁, t, es₁, es₂, hstep, -, rfl, hlast⟩
  · exact nomatch (Thread.mk.inj hend).1
  · have hread : Thread.Moves body w ⟨.run (.atom (.memo m id) fun refused =>
        telling u (s.answer held refused)), []⟩ es₁ w₁ t := Thread.moves_iff.2 hstep
    cases hread with
    | @performed _ _ _ noted _ _ ha =>
        obtain ⟨vs, hvs, ha⟩ := Option.map_eq_some_iff.1 ha
        cases ha
        have hback : AnyRun body { w with memos := w.memos.set m.index noted }
            ⟨.run (telling u (s.answer held noted)), []⟩ es₂ w' ⟨.run (.ret u), []⟩ := hlast
        cases hanswer : s.answer held noted with
        | ok l =>
            rw [hanswer] at hback
            exact absurd hback telling_ok
        | error e =>
            rw [hanswer] at hback
            obtain ⟨rfl, rfl⟩ := telling_error hback
            refine ⟨rfl, rfl, fun hempty => ?_⟩
            cases hvs.symm.trans hempty
            exact nomatch hanswer

/-- A modification that is refused leaves the publisher of the set alone, if the function does. -/
theorem modify_refused [ReflBEq V] (hbody : ∀ c, (body c).Within R.plain (w.scope ∅))
    (hw : w.Within R.plain (fun _ _ => False) ∅) (hf : ∀ v, (f v).Within R.plain (w.scope ∅))
    (hp : w.publisher? s.publisher = some q)
    (hidle : ∀ es w' t, AnyRun body ({ w with memos := w.memos.alloc [] }.enterAll q.monitors)
      (.start (f q.current)) es w' t → ¬ t.Operates s.publisher w')
    (h : (s.modify f).Comes body w (.error e) es w') :
    w'.publisher? s.publisher = some q ∧ signals s.publisher es = [] := by
  let m : MemoRef := ⟨w.memos.size⟩
  let w₁ : World V P σ ε := { w with memos := w.memos.alloc [] }
  have hgrow : w.Grows w₁ :=
    World.grows_perform (show w.perform (.newMemo []) = some (m, w₁, []) from rfl)
  have hnew : ∀ u ∈ ({.memo m} : Scope), ¬ u.Made w := by
    rintro u rfl
    exact Nat.lt_irrefl _
  have hscope : w.scope ∅ ⊆ w₁.scope {.memo m} :=
    hgrow.scope_subset fun u hu => Or.inr (hnew u hu)
  have hw₁ : w₁.Within R.plain (fun _ _ => False) {.memo m} := by
    refine hw.hide hgrow ?_ hnew rfl (fun p r hr o ho => ⟨r, hr, ho⟩) rfl
    rintro u rfl
    show w.memos.size < (w.memos.alloc []).size
    rw [Heap.size_alloc]
    exact Nat.lt_succ_self _
  have hrun : AnyRun body w ⟨.run (s.modify f (telling q.current)), []⟩ es w'
    ⟨.run (.ret q.current), []⟩ := h (telling q.current) []
  rw [modify_eq] at hrun
  have hmemo : Thread.Moves body w ⟨.run (.atom (.newMemo []) fun m =>
      .amend s.publisher (fun v => (f v).bind (s.accept m v)) fun held =>
        .atom (.memo m id) fun refused => telling q.current (s.answer held refused)), []⟩ [] w₁
      ⟨.run ((Prog.amend s.publisher (fun v => (f v).bind (s.accept m v)) .ret).bind fun held =>
        .atom (.memo m id) fun refused => telling q.current (s.answer held refused)), []⟩ :=
    .performed rfl
  obtain ⟨es, rfl, hrest⟩ := AnyRun.rest (.single hmemo.step trivial) hrun rfl
  obtain ⟨es₁, es₂, w₂, t, o, rfl, hamend, ho, hafter⟩ :=
    hrest.passed (o := .returned q.current) rfl
  cases o with
  | panicked text =>
      obtain ⟨st, ht, -⟩ := hafter.unwinds nofun
      exact nomatch ht
  | returned held =>
      obtain rfl : t = ⟨.run (.ret held), []⟩ := by
        rcases Thread.outcome_cases ho with ⟨v, rfl⟩ | ⟨text, rfl⟩ <;> cases ho
        rfl
      have hnote := amend_refused (fun c => (hbody c).mono hscope) hw₁ (fun v => (hf v).mono hscope)
        hp (Heap.get?_alloc_self _ _) hidle hamend
      obtain ⟨rfl, hpubs, hnoted⟩ := noted_of_refused hafter
      obtain ⟨hp₂, hsilent⟩ := hnote.resolve_left hnoted
      refine ⟨(congrArg (Heap.get? · s.publisher.index) hpubs).trans hp₂, ?_⟩
      rw [List.append_nil]
      exact hsilent

end Refusals

end OrderedSet

/-! ## All that happens to a set -/

section Sessions

variable [BEq V] [HasElements V T] [BEq T]

/-- Whether a set was just made, and all that is around is at most a client of it. -/
structure OrderedSet.Fresh (body : P → Prog V P σ ε) (R : Terms V P σ ε) (s : OrderedSet)
    (w : World V P σ ε) : Prop where
  made : s.Made w
  world : w.Within (s.terms R) (fun _ _ => False) s.uses
  bodies : ∀ c, (body c).Within (s.terms R) (w.scope s.uses)

/-- Whether a function, applied to the list held, leaves a set alone: nobody operates on the set
until the function has ended. -/
structure OrderedSet.Spares (body : P → Prog V P σ ε) (R : Terms V P σ ε) (s : OrderedSet)
    (w : World V P σ ε) (f : Routine V P σ ε) : Prop where
  client : ∀ v, (f v).Within (s.terms R) (w.scope s.uses)
  idle : ∀ q es w' t, w.publisher? s.publisher = some q →
    AnyRun body ({ w with memos := w.memos.alloc [] }.enterAll q.monitors) (.start (f q.current))
      es w' t → ¬ t.Operates s.publisher w'

variable {body : P → Prog V P σ ε} {R : Terms V P σ ε} {s : OrderedSet} {w₀ w w' : World V P σ ε}
  {c : Prog V P σ ε} {t : Thread V P σ ε} {es es' : List (Event V ε)}

omit [BEq V] [HasElements V T] [BEq T] in
/-- Once a set is made its publisher is in the scope of everybody but its clients. -/
theorem OrderedSet.scope_union_uses (hp : s.publisher.index < w.publishers.size) :
    w.scope s.uses ∪ s.uses ⊆ w.scope ∅ := by
  refine Set.union_subset (fun u hu => ⟨hu.1, nofun⟩) ?_
  rintro u (rfl | rfl | rfl) <;> exact ⟨hp, nofun⟩

/-- What is around a set keeps to what has been allocated. -/
theorem OrderedSet.Fresh.within (h : s.Fresh body R w₀)
    (hc : c.Within (s.terms R) (w₀.scope s.uses))
    (hrun : Run body (fun c => c.Within (s.terms R) (w₀.scope s.uses)) Thread.Any w₀ (.start c) es
      w t) :
    (∀ c, (body c).Within R.plain (w.scope ∅)) ∧ w.Within R.plain (fun _ _ => False) ∅ := by
  obtain ⟨vs, l, hres, hp⟩ := h.made
  have hsize : s.publisher.index < w₀.publishers.size := (List.getElem?_eq_some_iff.1 hp).1
  have hclient : ∀ {c : Prog V P σ ε}, c.Within (s.terms R) (w₀.scope s.uses) →
      c.Within R.plain (w₀.scope ∅) := fun hc =>
    (OrderedSet.within_of_client hc).mono (OrderedSet.scope_union_uses hsize)
  have hworld : w₀.Within R.plain (fun _ _ => False) ∅ := by
    refine ⟨nofun, R.mono (fun u hu => ⟨hu.1, nofun⟩) h.world.store, ?_, ?_⟩
    · intro q r hr o ho
      exact (h.world.observers q r hr o ho).imp_left fun hin v => hclient (hin v)
    · exact fun i c hc => hclient (h.world.teardowns i c hc)
  obtain ⟨hgrow, hw, -, -⟩ := Run.within hrun (fun c => hclient (h.bodies c))
    (fun c hc => hclient hc) hworld (Thread.within_start (hclient hc))
  exact ⟨fun c => (hclient (h.bodies c)).mono hgrow.scope, hw⟩

/-- All that is around a set upholds its contract. -/
theorem OrderedSet.Fresh.upholds [PartialEquivBEq T]
    (hlist : ∀ l : List T, elements (ofElements l : V) = l) (h : s.Fresh body R w₀)
    (hc : c.Within (s.terms R) (w₀.scope s.uses))
    (hrun : Run body (fun c => c.Within (s.terms R) (w₀.scope s.uses)) Thread.Any w₀ (.start c) es
      w t) :
    (∀ c, (body c).Upholds (s.contract R) fun _ => True) ∧ w.Upholds (s.contract R) ∧
      t.Upholds (s.contract R) (fun _ => True) ∧
      ∀ id v, .called s.publisher id v ∈ es → Distinct (elements v) := by
  have hdisj : Disjoint (w₀.scope s.uses) s.uses := Set.disjoint_left.2 fun _ hu => hu.2
  have hclient : ∀ {c : Prog V P σ ε}, c.Within (s.terms R) (w₀.scope s.uses) →
      c.Upholds (s.contract R) fun _ => True := fun hc =>
    OrderedSet.upholds_of_within hlist hc hdisj
  have hbody : ∀ c, (body c).Upholds (s.contract R) fun _ => True := fun c => hclient (h.bodies c)
  exact ⟨hbody, Run.upholds hrun hbody (fun c hc => hclient hc) (h.made.upholds hlist h.world)
    (.run (hclient hc) (.nil fun _ h => h))⟩

/-- A modification comes back with a list without duplicates. -/
theorem OrderedSet.modify_distinct [PartialEquivBEq T] {f : Routine V P σ ε}
    {k : Except DuplicateValue (List T) → Prog V P σ ε} {E : V → Prop} {l : List T}
    (hbody : ∀ c, (body c).Upholds (s.contract R) fun _ => True) (hw : w.Upholds (s.contract R))
    (hf : (s.modify f k).Upholds (s.contract R) E) (h : (s.modify f).Comes body w (.ok l) es w') :
    Distinct l := by
  classical
  by_contra hno
  -- a program that ends only where the list has come back does not end
  let catching : Except DuplicateValue (List T) → Prog V P σ ε := fun r =>
    if r = .ok l then .ret (ofElements l) else .panic ""
  have hend : catching (.ok l) = .ret (ofElements l) := if_pos rfl
  have hcatching : (s.modify f catching).Upholds (s.contract R) fun _ => False := by
    refine modify_upholds (fun m v hv => upholds_of_modify hf hv) fun r hr => ?_
    have hother : catching r = .panic "" := if_neg fun he => hno (hr l he)
    rw [hother]
    trivial
  have hrun : AnyRun body w (.start (s.modify f catching)) es w' ⟨.run (catching (.ok l)), []⟩ :=
    h catching []
  rw [hend] at hrun
  obtain ⟨-, hlast, -⟩ := Run.upholds hrun hbody (fun _ hc => hc.elim) hw
    (.run hcatching (.nil fun _ h => h))
  exact hlast.returned rfl

end Sessions

open OrderedSet in
/-- A set that was just made by any policy, and any clients of it: programs, procedures, observers,
teardowns, all of which may do anything but get at the publisher of the set past the set. In every
state that they come to, the list held, the list delivered last and those queued have no value
twice, nor had any list that an observer was called with. Where a modification is at hand it comes
back, if it does not panic, with no other list either, and if it comes back refused, the publisher
is what it was, with its value, its observers and its queue, and nobody was called, provided that
its function does not operate on the set. Where a list is about to be set and this comes back
refused, nothing has changed at all. -/
theorem ordered_set_distinct [BEq V] [ReflBEq V] [HasElements V T] [BEq T] [PartialEquivBEq T]
    (hlist : ∀ l : List T, elements (ofElements l : V) = l) {body : P → Prog V P σ ε}
    {R : Terms V P σ ε} {s : OrderedSet} {w₀ w : World V P σ ε} {c : Prog V P σ ε}
    {t : Thread V P σ ε} {es : List (Event V ε)} (h : s.Fresh body R w₀)
    (hc : c.Within (s.terms R) (w₀.scope s.uses))
    (hrun : Run body (fun c => c.Within (s.terms R) (w₀.scope s.uses)) Thread.Any w₀ (.start c) es
      w t) :
    (∃ q, w.publisher? s.publisher = some q ∧
      ∀ v ∈ q.current :: q.timeline, Distinct (elements v)) ∧
    (∀ id v, .called s.publisher id v ∈ es → Distinct (elements v)) ∧
    (∀ f k st, t = ⟨.run (s.modify f k), st⟩ → (s.modify f).Passes body w ∧
      (∀ l es' w', (s.modify f).Comes body w (.ok l) es' w' → Distinct l) ∧
      (s.Spares body R w f → ∀ e es' w', (s.modify f).Comes body w (.error e) es' w' →
        w'.publisher? s.publisher = w.publisher? s.publisher ∧ signals s.publisher es' = [])) ∧
    ∀ vs k st, t = ⟨.run (s.set vs k), st⟩ → (s.set vs).Passes body w ∧
      ∀ e es' w', (s.set vs).Comes body w (.error e) es' w' →
        w' = w ∧ signals s.publisher es' = [] := by
  obtain ⟨hbody, hw, ht, hcalled⟩ := h.upholds hlist hc hrun
  obtain ⟨hwithin, hworld⟩ := h.within hc hrun
  obtain ⟨q, hq⟩ : ∃ q, w.publisher? s.publisher = some q :=
    ⟨_, List.getElem?_eq_getElem hw.made⟩
  have hkept := hw.publishers _ _ hq
  refine ⟨⟨q, hq, List.forall_mem_cons.2 ⟨hkept.current rfl, fun v hv => hkept.timeline v hv rfl⟩⟩,
    hcalled, ?_, fun vs k st _ => ⟨set_passes vs, fun e es' w' hcomes => set_refused hcomes⟩⟩
  rintro f k st rfl
  refine ⟨modify_passes f, ?_, ?_⟩
  · intro l es' w' hcomes
    cases ht with
    | run hf _ => exact modify_distinct hbody hw hf hcomes
  · intro hf e es' w' hcomes
    have hclient : ∀ v, (f v).Within R.plain (w.scope ∅) := fun v =>
      (within_of_client (hf.client v)).mono (scope_union_uses hw.made)
    rw [hq]
    exact modify_refused hwithin hworld hclient hq (hf.idle q · · · hq) hcomes

/-- Sets the list of a set and subscribes an observer that appends the list to itself. -/
def appending (s : OrderedSet) : Prog (List Nat) Empty Unit Unit :=
  Act.prog do
    let _ ← s.set [1, 2]
    let _ ← s.subscribe [] fun _ => do
      let _ ← s.modify fun v => .ret (v ++ v)
    return []

/-- Makes a set of a list without duplicates and goes on with `appending`. -/
def appendingTo (vs : List Nat) : Prog (List Nat) Empty Unit Unit :=
  OrderedSet.ofList .reject vs fun made => match made with
    | .ok s => appending s
    | .error _ => .ret []

/-- While the list is replayed to the observer the modification is refused. -/
theorem appending_refused :
    let s : OrderedSet := ⟨⟨0⟩, .reject⟩
    let w₀ : World (List Nat) Empty Unit Unit :=
      { World.new () with publishers := .alloc .empty (.new none [1]) }
    CalmRun nofun (World.new ()) (.start (appendingTo [1])) [] w₀ (.start (appending s)) ∧
    ∃ es w st q es' w',
      Run nofun (fun c => c.Within (s.terms .storeless) (w₀.scope s.uses)) Thread.Any w₀
        (.start (appending s)) es w
        ⟨.run (s.modify (fun v => .ret (v ++ v)) fun _ => .ret [1, 2]), st⟩ ∧
      w.publisher? s.publisher = some q ∧ q.current = [1, 2] ∧ q.draining = true ∧
      q.current.Nodup ∧ (∀ id v, .called s.publisher id v ∈ es → v.Nodup) ∧
      (s.modify fun v => .ret (v ++ v)).Comes nofun w (.error ⟨2, 0⟩) es' w' ∧
      w'.publisher? s.publisher = some q ∧ signals s.publisher es' = [] := by
  intro s w₀
  obtain ⟨hstart, hmade⟩ : CalmRun nofun (World.new ()) (.start (appendingTo [1])) [] w₀
      (.start (appending s)) ∧ s.Made w₀ := OrderedSet.made_ofList (by decide) _ []
  have hfresh : s.Fresh nofun .storeless w₀ := by
    refine ⟨hmade, ⟨?_, trivial, ?_, ?_⟩, nofun⟩
    · rintro u (rfl | rfl | rfl) <;> exact Nat.zero_lt_one
    · intro p r hr o ho
      have hmem : r ∈ [Publisher.new none [1]] := List.mem_of_getElem? hr
      obtain rfl := List.mem_singleton.1 hmem
      exact nomatch ho
    · exact fun i c hc => nomatch hc
  have hclient : (appending s).Within (s.terms .storeless) (w₀.scope s.uses) := by
    refine .special (.set [1, 2] _) ?_
    rintro _ ⟨r, rfl⟩
    refine .special (.subscribe [] _ _) ?_
    rintro _ (⟨v, rfl⟩ | ⟨r, rfl⟩)
    · refine .special (.modify _ _) ?_
      rintro _ (⟨v, rfl⟩ | ⟨r, rfl⟩) <;> exact .ret _
    · exact .ret _
  let o : Observer (List Nat) Empty Unit Unit :=
    ⟨fun v => s.modify (fun v => .ret (v ++ v)) fun _ => .ret v, []⟩
  let q : Publisher (List Nat) (Observer (List Nat) Empty Unit Unit) :=
    { Publisher.new none [1, 2] with observers := [⟨0, o⟩], draining := true, nextId := 1 }
  let w : World (List Nat) Empty Unit Unit := { w₀ with publishers := ⟨[q]⟩ }
  have hcalm : Run nofun (fun c => c.Within (s.terms .storeless) (w₀.scope s.uses)) Thread.Calm w₀
      (.start (appending s)) _ w
      ⟨.run (s.modify (fun v => .ret (v ++ v)) fun _ => .ret [1, 2]), _⟩ := .of_advance (n := 9) rfl
  have hrun := hcalm.mono (fun _ h => h) fun _ _ => (trivial : Thread.Any _)
  have hcomes : (s.modify fun v => .ret (v ++ v)).Comes nofun w (.error ⟨2, 0⟩)
      [.message (.duplicateRejected 2 0)] { w with memos := ⟨[[[1, 2, 1, 2]]]⟩ } := fun k st =>
    CalmRun.any (.of_advance (n := 7) rfl)
  have hspares : s.Spares nofun .storeless w fun v => .ret (v ++ v) := by
    refine ⟨fun v => .ret _, fun q es w' t _ hf hop => ?_⟩
    rcases hf.first with ⟨-, -, rfl⟩ | ⟨w₁, t₁, es₁, es₂, hstep, -⟩
    · cases hop
    · exact nomatch hstep
  obtain ⟨⟨r, hr, hheld⟩, hcalled, hmodify, -⟩ :=
    ordered_set_distinct (fun _ => rfl) hfresh hclient hrun
  obtain rfl : q = r := Option.some.inj hr
  obtain ⟨-, -, hrefused⟩ := hmodify _ _ _ rfl
  obtain ⟨hsame, hsilent⟩ := hrefused hspares _ _ _ hcomes
  refine ⟨hstart, _, w, _, q, _, _, hrun, rfl, rfl, rfl, ?_, ?_, hcomes, hsame, hsilent⟩
  · exact (distinct_iff_nodup _).1 (hheld _ List.mem_cons_self)
  · exact fun id v hv => (distinct_iff_nodup v).1 (hcalled id v hv)

end ReactiveCells
