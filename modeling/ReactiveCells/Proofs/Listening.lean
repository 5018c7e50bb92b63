import Mathlib.Data.List.Destutter
import Mathlib.Data.List.Nodup
import ReactiveCells.Proofs.Conservation
import ReactiveCells.Proofs.Holders
import ReactiveCells.Proofs.Towers

/-!
# Listening — what comes through to an observer behind gates

Whoever subscribes to a view is registered with the publisher below it, behind a row of gates, and
each gate drops what it passed on last. An observer that keeps a record of what it is called with
(`recording`) shows what comes through. However many gates there are, that is what the whole row
makes of the values that the publisher called with, without those equal to the one before.

From the call to the observer the value is on its way for a few moves, and the gates it has passed
know it while the others do not (`Passing`). In all other states they all know the last value
(`Heard`). Nobody else reaches the shared lists of the gates, since they are handed to nobody, and
the record is at most looked at (`Looking`), so every move leads from one such state to another,
whatever is run and whatever panics.

Main statements: `unrepeated_map_unrepeated` (filters in a row drop what the last one drops),
`Listens.move`, `Laying.run` and `Node.Shows.hears`.
-/

namespace ReactiveCells

variable {V P σ ε : Type}

/-! ## Values that differ from the one before -/

section Unrepeated

variable [BEq V]

/-- The values of a list without those equal to the one before. -/
def unrepeated (vs : List V) : List V :=
  vs.destutter fun u v => u != v

variable [LawfulBEq V] {vs : List V} {v : V}

/-- A value is kept exactly if it differs from the one before. -/
theorem unrepeated_concat (vs : List V) (v : V) :
    unrepeated (vs ++ [v]) = unrepeated vs ++ if vs.getLast? == some v then [] else [v] := by
  cases vs with
  | nil => rfl
  | cons a vs =>
      show ((vs ++ [v]).destutter' (fun u v => u != v) a) = vs.destutter' (fun u v => u != v) a ++ _
      induction vs generalizing a with
      | nil => by_cases h : a = v <;> simp [h]
      | cons b vs ih =>
          rw [List.getLast?_cons_cons]
          by_cases h : a = b
          · subst h
            simp [ih]
          · simp [h, ih]

theorem unrepeated_concat_same (h : vs.getLast? = some v) :
    unrepeated (vs ++ [v]) = unrepeated vs := by
  rw [unrepeated_concat, h, beq_self_eq_true, if_pos rfl, List.append_nil]

theorem unrepeated_concat_new (h : vs.getLast? ≠ some v) :
    unrepeated (vs ++ [v]) = unrepeated vs ++ [v] := by
  rw [unrepeated_concat, if_neg]
  simpa using h

/-- The last value is kept, or one equal to it. -/
theorem getLast?_unrepeated (vs : List V) : (unrepeated vs).getLast? = vs.getLast? := by
  induction vs using List.reverseRecOn with
  | nil => rfl
  | append_singleton vs v ih =>
      by_cases h : vs.getLast? = some v
      · rw [unrepeated_concat_same h, ih, h, List.getLast?_concat]
      · rw [unrepeated_concat_new h, List.getLast?_concat, List.getLast?_concat]

/-- To drop repetitions before a conversion changes nothing if they are dropped after it. -/
theorem unrepeated_map_unrepeated (f : V → V) (vs : List V) :
    unrepeated ((unrepeated vs).map f) = unrepeated (vs.map f) := by
  induction vs using List.reverseRecOn with
  | nil => rfl
  | append_singleton vs v ih =>
      have hlast : ((unrepeated vs).map f).getLast? = (vs.map f).getLast? := by
        rw [List.getLast?_map, List.getLast?_map, getLast?_unrepeated]
      by_cases h : vs.getLast? = some v
      · have hmap : (vs.map f).getLast? = some (f v) := by
          rw [List.getLast?_map, h, Option.map_some]
        rw [unrepeated_concat_same h, ih, List.map_append, List.map_singleton,
          unrepeated_concat_same hmap]
      · rw [unrepeated_concat_new h, List.map_append, List.map_append, List.map_singleton,
          unrepeated_concat, unrepeated_concat, ih, hlast]

end Unrepeated

/-! ## Listeners -/

/-- Notes a value down in a shared list before it is observed. -/
def recording (record : MemoRef) (o : V → Act V P σ ε Unit) (v : V) : Act V P σ ε Unit := do
  let _ ← Act.memo record (· ++ [v])
  o v

/-- Whether a record has all of what a publisher gave an observer to hear. It may be one value
behind while the publisher is at work. -/
def World.Records (w : World V P σ ε) (t : Thread V P σ ε) (p : PublisherRef) (record : MemoRef)
    (heard : List V) : Prop :=
  ∃ vs, w.memos.get? record.index = some vs ∧ vs <+: heard ∧ heard.length ≤ vs.length + 1 ∧
    (t.Settled p → vs = heard)

/-- A look at a shared list. -/
abbrev Prog.look (m : MemoRef) (k : List V → Prog V P σ ε) : Prog V P σ ε :=
  .atom (.memo m id) k

/-- Where a shared list is looked at, and what comes after. -/
inductive Looking (m : MemoRef) : Prog V P σ ε → Set (Prog V P σ ε) → Prop where
  | look (k : List V → Prog V P σ ε) : Looking m (.look m k) (Set.range k)

/-- Whoever may use a shared list may look at it. -/
theorem Looking.within {m : MemoRef} {T : Terms V P σ ε} {S : Scope} {c : Prog V P σ ε}
    {K : Set (Prog V P σ ε)} (h : Looking m c K) (hm : .memo m ∈ S)
    (hK : ∀ k ∈ K, k.Within T S) : c.Within T S := by
  cases h with
  | look k =>
      refine .atom nofun (Set.singleton_subset_iff.2 hm) fun (vs : List V) => ?_
      exact (hK _ (Set.mem_range_self vs)).mono Set.subset_union_left

/-- The uses of some shared lists. -/
def Scope.lists (ms : List MemoRef) : Scope := {u | ∃ m ∈ ms, u = .memo m}

/-- An observer behind a row of gates that keeps a record of what it is called with. -/
structure Listener (V P σ ε : Type) where
  root : PublisherRef
  id : Nat
  gates : List (Gate V)
  record : MemoRef
  observer : V → Act V P σ ε Unit

namespace Listener

/-- The shared lists of a listener. -/
def lists (l : Listener V P σ ε) : List MemoRef :=
  l.record :: l.gates.map (·.last)

/-- What only a listener reaches. -/
def hidden (l : Listener V P σ ε) : Scope := Scope.lists l.lists

/-- What comes through to the observer if anything does. -/
def shows (l : Listener V P σ ε) : V → V := Gate.through l.gates

/-- The terms on which the record of a listener is looked at. -/
abbrev terms (l : Listener V P σ ε) (T : Terms V P σ ε) : Terms V P σ ε :=
  T.allowing (Looking l.record)

variable [BEq V]

/-- What a listener has put down when it was called with some values: what came through, which is
everything if there is no gate. -/
def tape (l : Listener V P σ ε) (vs : List V) : List V :=
  if l.gates.isEmpty then vs else unrepeated (vs.map l.shows)

/-- The reaction that is registered. -/
def react (l : Listener V P σ ε) : Routine V P σ ε := fun v =>
  (Gate.before l.gates (recording l.record l.observer) v).thenRet v

/-- The observers that reach what is hidden. -/
def Reacts (l : Listener V P σ ε) (q : PublisherRef) (react : Routine V P σ ε) : Prop :=
  q = l.root ∧ react = l.react

/-- A listener whose gates nobody else reaches, and whose record nobody else changes. -/
structure Secret (l : Listener V P σ ε) (T : Terms V P σ ε) (S : Scope) (w : World V P σ ε)
    (t : Thread V P σ ε) : Prop where
  nodup : l.lists.Nodup
  world : w.Within (l.terms T) l.Reacts l.hidden
  base : S ⊆ w.scope l.hidden
  observer : ∀ v u, (l.observer v fun _ => .ret u).Within (l.terms T) S
  stack : ∀ fr ∈ t.stack, fr.Within (l.terms T) l.Reacts (w.scope l.hidden)
  known : ∃ s, w.publisher? l.root = some s ∧ (t.view l.root s).Knows l.id l.react

/-- What gates at the end of a row hold after the row was given some values: nothing, or what they
make of the last one. -/
structure Tuned (w : World V P σ ε) (past : List V) (front rest : List (Gate V)) : Prop where
  blank : past = [] → w.Blank rest
  kept : ∀ u, past.getLast? = some u →
    w.Kept (Gate.through (front ++ rest) u) rest (Gate.through front u)

/-- A listener that has dealt with all values it was called with. -/
structure Heard (l : Listener V P σ ε) (T : Terms V P σ ε) (past : List V) (w : World V P σ ε)
    (t : Thread V P σ ε) : Prop where
  focus : t.focus.Within (l.terms T) (w.scope l.hidden)
  tuned : Tuned w past [] l.gates
  record : w.memos.get? l.record.index = some (l.tape past)

/-- A listener that was called with some values before, and now with another one, which is past
some of its gates. -/
structure Passing (l : Listener V P σ ε) (past : List V) (u : V) (front rest : List (Gate V))
    (w : World V P σ ε) (t : Thread V P σ ε) : Prop where
  gates : l.gates = front ++ rest
  focus : t.focus = .run (Gate.before rest (recording l.record l.observer) (Gate.through front u)
    fun _ => .ret u)
  passed : w.Kept (Gate.through front u) front u
  tuned : Tuned w past front rest
  /-- A gate passes on only what differs. -/
  differs : front ≠ [] → ∀ u', past.getLast? = some u' →
    Gate.through front u' ≠ Gate.through front u
  record : w.memos.get? l.record.index = some (l.tape past)
  due : t.due l.root ≠ []

/-- A listener that was called with some values. -/
inductive Listens (l : Listener V P σ ε) (T : Terms V P σ ε) (S : Scope) (w : World V P σ ε)
    (t : Thread V P σ ε) : List V → Prop where
  | heard {past : List V} : l.Secret T S w t → l.Heard T past w t → Listens l T S w t past
  | passing {past : List V} {u : V} {front rest : List (Gate V)} : l.Secret T S w t →
      l.Passing past u front rest w t → Listens l T S w t (past ++ [u])

end Listener

section Moving

variable [BEq V] {l : Listener V P σ ε} {T : Terms V P σ ε} {S : Scope} {past : List V} {u : V}
  {front rest : List (Gate V)} {body : P → Prog V P σ ε} {w w' : World V P σ ε}
  {t t' : Thread V P σ ε} {es : List (Event V ε)} {s s' : Publisher V (Observer V P σ ε)}

/-! ## What is up to little -/

namespace Listener

omit [BEq V] in
theorem Tuned.same (h : Tuned w past front rest)
    (hmemos : ∀ g ∈ rest, w'.memos.get? g.last.index = w.memos.get? g.last.index) :
    Tuned w' past front rest :=
  ⟨fun hp => (h.blank hp).same hmemos, fun u hu => (h.kept u hu).same hmemos⟩

omit [BEq V] in
theorem last_mem_lists {g : Gate V} (h : g ∈ l.gates) : g.last ∈ l.lists :=
  List.mem_cons_of_mem _ (List.mem_map_of_mem h)

theorem tape_of_gated (h : l.gates ≠ []) (vs : List V) :
    l.tape vs = unrepeated (vs.map l.shows) := by
  rw [tape, List.isEmpty_eq_false_iff.2 h]
  rfl

theorem tape_of_free (h : l.gates = []) (vs : List V) : l.tape vs = vs := by
  rw [tape, h]
  rfl

theorem tape_nil (l : Listener V P σ ε) : l.tape [] = [] := by
  rw [tape]
  split <;> rfl

/-- A listener that is called with news only puts down what comes through, without repetitions. -/
theorem tape_of_news {vs : List V} (h : unrepeated vs = vs) :
    l.tape vs = unrepeated (vs.map l.shows) := by
  by_cases hgates : l.gates = []
  · have hshows : l.shows = fun v => v := congrArg Gate.through hgates
    rw [tape_of_free hgates, hshows, List.map_id', h]
  · exact tape_of_gated hgates _

/-- A reaction uses a shared list first. -/
theorem react_head (v : V) : ∃ m ∈ l.lists, .memo m ∈ (l.react v).head := by
  obtain ⟨root, id, gates, record, o⟩ := l
  cases gates with
  | nil => exact ⟨record, List.mem_cons_self, rfl⟩
  | cons g gates => exact ⟨g.last, last_mem_lists List.mem_cons_self, rfl⟩

/-- A reaction does not just look at the record. -/
theorem react_plain (hnodup : l.lists.Nodup) (v : V) (K : Set (Prog V P σ ε)) :
    ¬ Looking l.record (l.react v) K := by
  intro h
  obtain ⟨root, id, gates, record, o⟩ := l
  generalize hc : Listener.react ⟨root, id, gates, record, o⟩ v = c at h
  cases h with
  | look k =>
      cases gates with
      | nil => exact nomatch congrFun (Atom.memo.inj (Prog.atom.inj hc).1).2 []
      | cons g gates =>
          refine (List.nodup_cons.1 hnodup).1 ?_
          exact (Atom.memo.inj (Prog.atom.inj hc).1).1 ▸ List.mem_map_of_mem List.mem_cons_self

/-- A reaction is no program of a client. -/
theorem react_not_within (hnodup : l.lists.Nodup) (v : V) :
    ¬ (l.react v).Within (l.terms T) (w.scope l.hidden) := by
  intro h
  obtain ⟨m, hm, hhead⟩ := l.react_head v
  exact (h.head_subset (react_plain hnodup v) hhead).2 ⟨m, hm, rfl⟩

/-- No client attaches a reaction. -/
theorem not_attaches (hnodup : l.lists.Nodup) (v : V)
    (hf : t.focus.Within (l.terms T) (w.scope l.hidden)) (keeps : List PublisherRef)
    (k : SubscriptionRef → Prog V P σ ε) : t.focus ≠ .run (.attach l.root keeps l.react k) := by
  intro he
  rw [he] at hf
  cases hf with
  | attach _ ho _ => exact react_not_within hnodup v (ho v)
  | special hno => exact nomatch hno

end Listener

/-! ## What moves do -/

/-- An operation on a shared list changes that list. -/
theorem Thread.Moves.of_memo {m : MemoRef} {f : List V → List V} {vs : List V}
    {k : List V → Prog V P σ ε} {st : List (Frame V P σ ε)}
    (hm : Thread.Moves body w ⟨.run (.atom (.memo m f) k), st⟩ es w' t')
    (hget : w.memos.get? m.index = some vs) :
    es = [] ∧ w' = { w with memos := w.memos.set m.index (f vs) } ∧ t' = ⟨.run (k vs), st⟩ := by
  cases hm with
  | performed ha =>
      cases (World.perform_memo hget f).symm.trans ha
      exact ⟨rfl, rfl, rfl⟩

namespace Listener

/-- Nobody else changes a shared list of a listener. -/
theorem Secret.memo_eq (h : l.Secret T S w t) (hf : t.focus.Within (l.terms T) (w.scope l.hidden))
    (hplain : ∀ c K, t.focus = .run c → ¬ Looking l.record c K)
    (hm : Thread.Moves body w t es w' t') {m : MemoRef} (hmem : m ∈ l.lists) :
    w'.memos.get? m.index = w.memos.get? m.index :=
  hm.hidden_memo_eq h.world hf ⟨m, hmem, rfl⟩ fun _ _ K hc => hplain _ K hc

/-- A move of somebody else leaves a listener alone, or calls it. -/
theorem Secret.move (h : l.Secret T S w t) (hbodies : ∀ c, (body c).Within (l.terms T) S)
    (hf : t.focus.Within (l.terms T) (w.scope l.hidden))
    (hplain : ∀ c K, t.focus = .run c → ¬ Looking l.record c K)
    (hm : Thread.Moves body w t es w' t') :
    l.Secret T S w' t' ∧
      (t'.focus.Within (l.terms T) (w'.scope l.hidden) ∨ Thread.Calls l.Reacts t t') := by
  obtain ⟨hgrow, hworld, hstack, hfocus⟩ := hm.within (fun c => (hbodies c).mono h.base) h.world
    (fun _ fr hfr => h.stack fr (List.mem_of_mem_head? hfr)) hf hplain
  obtain ⟨s, hs, hknown⟩ := h.known
  obtain ⟨s', hs', -⟩ := hm.view hs
  refine ⟨⟨h.nodup, hworld, h.base.trans hgrow.scope, h.observer, ?_, s', hs', ?_⟩, hfocus⟩
  · intro fr hfr
    rcases hstack fr hfr with hold | hnew
    · exact (h.stack fr hold).mono hgrow.scope
    · exact hnew
  · exact hknown.move hm hs hs' (not_attaches h.nodup s.current hf)

/-- What is done with the shared lists of a listener leaves the rest alone. -/
theorem Secret.memo {f : Focus V P σ ε} {st : List (Frame V P σ ε)}
    (h : l.Secret T S w ⟨f, st⟩) {m : MemoRef} {vs : List V}
    (hget : w.memos.get? m.index = some vs) (vs' : List V) (f' : Focus V P σ ε) :
    l.Secret T S { w with memos := w.memos.set m.index vs' } ⟨f', st⟩ := by
  have hperform := World.perform_memo hget fun _ => vs'
  have hgrow := World.grows_perform hperform
  obtain ⟨s, hs, hknown⟩ := h.known
  refine ⟨h.nodup, h.world.performMemo hperform, h.base.trans hgrow.scope, h.observer, ?_,
    s, hs, ⟨hknown.issued, hknown.registrations, hknown.calls⟩⟩
  exact fun fr hfr => (h.stack fr hfr).mono hgrow.scope

omit [BEq V] in
/-- A thread either looks at a record now or does something else. -/
theorem looking_or (r : MemoRef) (t : Thread V P σ ε) :
    (∃ k : List V → Prog V P σ ε, t.focus = .run (.look r k)) ∨
      ∀ c K, t.focus = .run c → ¬ Looking r c K := by
  by_cases hlook : ∃ k : List V → Prog V P σ ε, t.focus = .run (.look r k)
  · exact Or.inl hlook
  · refine Or.inr fun c K hc hK => ?_
    cases hK with
    | look k => exact hlook ⟨k, hc⟩

/-- To look at the record changes nothing. -/
theorem Heard.looked {k : List V → Prog V P σ ε} {st : List (Frame V P σ ε)}
    (h : l.Heard T past w ⟨.run (.look l.record k), st⟩)
    (hsecret : l.Secret T S w ⟨.run (.look l.record k), st⟩)
    (hm : Thread.Moves body w ⟨.run (.look l.record k), st⟩ es w' t') :
    es = [] ∧ l.Secret T S w' t' ∧ l.Heard T past w' t' := by
  obtain ⟨rfl, rfl, rfl⟩ := hm.of_memo h.record
  have hset := Heap.get?_set_self _ _ (l.tape past) _ h.record
  have hsame : ∀ m : MemoRef, (w.memos.set l.record.index (l.tape past)).get? m.index =
      w.memos.get? m.index := by
    intro m
    by_cases hm : l.record.index = m.index
    · rw [← hm]
      exact hset.trans h.record.symm
    · exact Heap.get?_set_ne _ _ _ _ hm
  have hfocus : (k (l.tape past)).Within (l.terms T) (w.scope l.hidden) := by
    have hf := h.focus
    generalize hc : Prog.look l.record k = c at hf
    cases hf with
    | special hK hin =>
        cases hK with
        | look k' =>
            cases hc
            exact hin _ (Set.mem_range_self _)
    | atom _ hneeds _ =>
        cases hc
        exact absurd ⟨l.record, List.mem_cons_self, rfl⟩ (hneeds rfl).2
    | _ => exact nomatch hc
  have hsecret' := hsecret.memo h.record (l.tape past) (.run (k (l.tape past)))
  have hgrow : w.Grows { w with memos := w.memos.set l.record.index (l.tape past) } :=
    ⟨le_rfl, (Heap.size_set _ _ _).ge, le_rfl⟩
  exact ⟨rfl, hsecret', hfocus.mono hgrow.scope, h.tuned.same fun g _ => hsame g.last, hset⟩

/-- While a listener has nothing to deal with nobody gives it anything but its publisher. -/
theorem Heard.move (h : l.Heard T past w t) (hsecret : l.Secret T S w t)
    (hbodies : ∀ c, (body c).Within (l.terms T) S) (hm : Thread.Moves body w t es w' t') :
    l.Listens T S w' t' (past ++ received l.id (signals l.root es)) := by
  rcases looking_or l.record t with ⟨k, hf⟩ | hplain
  · obtain ⟨f, st⟩ := t
    obtain rfl : f = .run (.look l.record k) := hf
    obtain ⟨rfl, hsecret', h'⟩ := h.looked hsecret hm
    exact (List.append_nil past).symm ▸ .heard hsecret' h'
  obtain ⟨hsecret', hfocus⟩ := hsecret.move hbodies h.focus hplain hm
  have hmemo := fun m hmem => hsecret.memo_eq h.focus hplain hm (m := m) hmem
  have htuned := h.tuned.same fun g hg => hmemo g.last (last_mem_lists hg)
  have hrecord := (hmemo l.record List.mem_cons_self).trans h.record
  obtain ⟨s, hs, hknown⟩ := hsecret.known
  rcases hfocus with hfocus | ⟨v, q, c, calls, st, rfl, ⟨rfl, hreact⟩, hf⟩
  · have hnone : received l.id (signals l.root es) = [] := by
      refine received_eq_nil fun v hv => ?_
      obtain ⟨s', -, hmove⟩ := hm.view hs
      have hf : t'.focus = .run (l.react v) := hknown.called hmove hv
      rw [hf] at hfocus
      exact react_not_within hsecret.nodup v hfocus
    rw [hnone, List.append_nil]
    exact .heard hsecret' ⟨hfocus, htuned, hrecord⟩
  · have hcall : c ∈ View.calls (Thread.view l.root s
        (⟨.run (.ret v), .deliver l.root (c :: calls) :: st⟩ : Thread V P σ ε)) := by
      rw [View.calls, Thread.view, Thread.due_cons_deliver_self]
      exact List.mem_cons_self
    have hid : c.id = l.id := (hknown.calls c hcall).2 hreact
    rw [hreact] at hf
    cases hm with
    | called =>
        have hone : received l.id
            (signals l.root [(.called l.root c.id c.value : Event V ε)]) = [c.value] := by
          simp [received, Signal.handedTo?, hid]
        have hdue : Thread.due l.root
            ⟨.run (c.observer.react c.value), .observe c.observer :: .deliver l.root calls :: st⟩ ≠
              [] := by
          rw [Thread.due_cons_of_calls? rfl, Thread.due_cons_deliver_self]
          exact List.cons_ne_nil _ _
        have hpassing : l.Passing past c.value [] l.gates w
            ⟨.run (c.observer.react c.value), .observe c.observer :: .deliver l.root calls :: st⟩ :=
          ⟨rfl, hf, rfl, htuned, fun hne => absurd rfl hne, hrecord, hdue⟩
        rw [hone]
        exact .passing hsecret' hpassing

end Listener

/-! ## Through the gates -/

namespace Listener

omit [BEq V] in
/-- Every gate has a shared list of its own. -/
theorem apart {g : Gate V} (h : l.lists.Nodup) (hgates : l.gates = front ++ g :: rest) :
    l.record ≠ g.last ∧ ∀ g' ∈ front ++ rest, g'.last ≠ g.last := by
  rw [lists, hgates, List.map_append, List.map_cons, List.nodup_cons, List.nodup_middle,
    ← List.map_append, List.nodup_cons] at h
  obtain ⟨hrecord, hgate, -⟩ := h
  refine ⟨?_, ?_⟩
  · intro he
    exact hrecord (he ▸ List.mem_append_right _ List.mem_cons_self)
  · intro g' hg' he
    exact hgate (he ▸ List.mem_map_of_mem hg')

omit [BEq V] in
/-- A row that holds what it makes of the last value is tuned. -/
theorem Tuned.of_kept (h : w.Kept (Gate.through front u) front u) :
    Tuned w (past ++ [u]) [] front := by
  refine ⟨fun he => absurd he (List.append_ne_nil_of_right_ne_nil _ nofun), ?_⟩
  intro v hv
  obtain rfl := Option.some.inj ((List.getLast?_concat ..).symm.trans hv)
  exact h

omit [BEq V] in
/-- What the next gate holds when a value comes to it. -/
theorem Tuned.seen {g : Gate V} (h : Tuned w past front (g :: rest)) :
    ∃ seen, w.memos.get? g.last.index = some seen ∧
      ((past = [] ∧ seen = []) ∨
        ∃ u', past.getLast? = some u' ∧ seen = [g.shows (Gate.through front u')]) := by
  cases hlast : past.getLast? with
  | none =>
      have hpast := List.getLast?_eq_none_iff.1 hlast
      exact ⟨[], h.blank hpast g List.mem_cons_self, Or.inl ⟨hpast, rfl⟩⟩
  | some u' => exact ⟨_, (h.kept u' hlast).1, Or.inr ⟨u', rfl, rfl⟩⟩

variable [LawfulBEq V]

section Gate

variable {g : Gate V}

/-- A value that a gate drops has been dealt with. -/
theorem Passing.dropped (h : l.Passing past u front (g :: rest) w t) (hnodup : l.lists.Nodup)
    {u' : V} (hlast : past.getLast? = some u')
    (hsame : g.shows (Gate.through front u') = g.shows (Gate.through front u))
    (hset : w'.memos.get? g.last.index = some [g.shows (Gate.through front u)])
    (hmemos : ∀ m, m ≠ g.last → w'.memos.get? m.index = w.memos.get? m.index)
    (hf : t'.focus = .run (.ret u)) : l.Heard T (past ++ [u]) w' t' := by
  obtain ⟨hrecord, hothers⟩ := apart hnodup h.gates
  have hfront := h.passed.same fun g' hg' => hmemos _ (hothers g' (List.mem_append_left _ hg'))
  have hrest := (h.tuned.kept u' hlast).2.same fun g' hg' =>
    hmemos _ (hothers g' (List.mem_append_right _ hg'))
  have hout : Gate.through (front ++ g :: rest) u' = Gate.through (front ++ g :: rest) u := by
    rw [Gate.through_append, Gate.through_append]
    exact congrArg (Gate.through rest) hsame
  have hshows : (past.map l.shows).getLast? = some (l.shows u) := by
    rw [List.getLast?_map, hlast, Option.map_some, shows, h.gates, hout]
  have hgated : l.gates ≠ [] := h.gates ▸ List.append_ne_nil_of_right_ne_nil _ nofun
  refine ⟨?_, ?_, ?_⟩
  · rw [hf]
    exact .ret u
  · rw [hout, hsame] at hrest
    rw [h.gates]
    exact .of_kept (hfront.append ⟨hset, hrest⟩)
  · rw [tape_of_gated hgated, List.map_append, List.map_singleton, unrepeated_concat_same hshows,
      hmemos _ hrecord, ← tape_of_gated hgated]
    exact h.record

omit [LawfulBEq V] in
/-- A value that a gate passes on is past that gate, too. -/
theorem Passing.passed_on (h : l.Passing past u front (g :: rest) w t) (hnodup : l.lists.Nodup)
    (hnew : ∀ u', past.getLast? = some u' →
      g.shows (Gate.through front u') ≠ g.shows (Gate.through front u))
    (hset : w'.memos.get? g.last.index = some [g.shows (Gate.through front u)])
    (hmemos : ∀ m, m ≠ g.last → w'.memos.get? m.index = w.memos.get? m.index)
    (hf : t'.focus = .run (Gate.before rest (recording l.record l.observer)
      (g.shows (Gate.through front u)) fun _ => .ret u))
    (hdue : t'.due l.root = t.due l.root) : l.Passing past u (front ++ [g]) rest w' t' := by
  obtain ⟨hrecord, hothers⟩ := apart hnodup h.gates
  have hfront := h.passed.same fun g' hg' => hmemos _ (hothers g' (List.mem_append_left _ hg'))
  have hrest : ∀ g' ∈ rest, w'.memos.get? g'.last.index = w.memos.get? g'.last.index :=
    fun g' hg' => hmemos _ (hothers g' (List.mem_append_right _ hg'))
  have hthrough : ∀ v, Gate.through (front ++ [g]) v = g.shows (Gate.through front v) :=
    fun v => Gate.through_append front [g] v
  refine ⟨?_, ?_, ?_, ⟨?_, ?_⟩, ?_, ?_, ?_⟩
  · rw [h.gates, List.append_assoc, List.singleton_append]
  · rw [hf, hthrough]
  · rw [hthrough]
    exact hfront.append ⟨hset, rfl⟩
  · intro hpast g' hg'
    exact (hrest g' hg').trans (h.tuned.blank hpast g' (List.mem_cons_of_mem _ hg'))
  · intro u' hu'
    rw [hthrough, List.append_assoc, List.singleton_append]
    exact (h.tuned.kept u' hu').2.same hrest
  · intro _ u' hu'
    rw [hthrough, hthrough]
    exact hnew u' hu'
  · rw [hmemos _ hrecord]
    exact h.record
  · rw [hdue]
    exact h.due

/-- A gate drops a value of which it has passed on the same before, and else passes it on. -/
theorem Passing.passes (h : l.Passing past u front (g :: rest) w t)
    (hsecret : l.Secret T S w t) (hm : Thread.Moves body w t es w' t') :
    es = [] ∧ l.Listens T S w' t' (past ++ [u]) := by
  obtain ⟨f, st⟩ := t
  obtain rfl := h.focus
  obtain ⟨seen, hget, hseen⟩ := h.tuned.seen
  have hpass : g.pass (Gate.through front u) seen = [g.shows (Gate.through front u)] :=
    Gate.pass_eq (hseen.imp (·.2) fun ⟨_, _, he⟩ => ⟨_, he⟩) _
  have hset := Heap.get?_set_self _ _ [g.shows (Gate.through front u)] _ hget
  have hmemos : ∀ m : MemoRef, m ≠ g.last →
      (w.memos.set g.last.index [g.shows (Gate.through front u)]).get? m.index =
        w.memos.get? m.index := by
    intro m hm
    refine Heap.get?_set_ne _ _ _ _ fun he => hm ?_
    exact (congrArg MemoRef.mk he).symm
  rw [Gate.before_cons] at hm
  obtain ⟨rfl, hw, rfl⟩ := hm.of_memo hget
  rw [hpass] at hw
  subst hw
  refine ⟨rfl, ?_⟩
  have hsecret' := hsecret.memo hget [g.shows (Gate.through front u)]
  -- the gate has passed on one value last, and what it shows now is that value or news
  by_cases hany : seen.any (· == g.shows (Gate.through front u)) = true
  · rw [if_pos hany]
    rcases hseen with ⟨-, rfl⟩ | ⟨u', hlast, rfl⟩
    · exact nomatch hany
    · have hsame : g.shows (Gate.through front u') = g.shows (Gate.through front u) := by
        simpa using hany
      exact .heard (hsecret' _) (h.dropped hsecret.nodup hlast hsame hset hmemos rfl)
  · rw [if_neg hany]
    have hnew : ∀ u', past.getLast? = some u' →
        g.shows (Gate.through front u') ≠ g.shows (Gate.through front u) := by
      rintro u' hlast he
      rcases hseen with ⟨rfl, -⟩ | ⟨u'', hlast', rfl⟩
      · exact nomatch hlast
      · obtain rfl := Option.some.inj (hlast.symm.trans hlast')
        exact hany (by simpa using he)
    exact .passing (hsecret' _) (h.passed_on hsecret.nodup hnew hset hmemos rfl rfl)

end Gate

/-- A value that is past all gates differs from what came through before, or there are no gates. -/
theorem Passing.tape_concat (h : l.Passing past u front [] w t)
    (hgates : l.gates = front) (hshows : l.shows u = Gate.through front u) :
    l.tape (past ++ [u]) = l.tape past ++ [Gate.through front u] := by
  cases front with
  | nil =>
      rw [tape_of_free hgates, tape_of_free hgates]
      rfl
  | cons g front =>
      have hgated : l.gates ≠ [] := hgates ▸ List.cons_ne_nil _ _
      have hnew : (past.map l.shows).getLast? ≠ some (l.shows u) := by
        intro he
        rw [List.getLast?_map] at he
        obtain ⟨u', hu', heq⟩ := Option.map_eq_some_iff.1 he
        rw [shows, hgates] at heq
        exact h.differs (List.cons_ne_nil _ _) u' hu' heq
      rw [tape_of_gated hgated, tape_of_gated hgated, List.map_append, List.map_singleton,
        unrepeated_concat_new hnew, hshows]

/-- A value that is past all gates is observed. -/
theorem Passing.arrives (h : l.Passing past u front [] w t) (hsecret : l.Secret T S w t)
    (hm : Thread.Moves body w t es w' t') : es = [] ∧ l.Listens T S w' t' (past ++ [u]) := by
  obtain ⟨f, st⟩ := t
  obtain rfl : f = .run (.atom (.memo l.record (· ++ [Gate.through front u])) fun _ =>
      l.observer (Gate.through front u) fun _ => .ret u) := h.focus
  obtain ⟨rfl, rfl, rfl⟩ := hm.of_memo h.record
  have hgates : l.gates = front := h.gates.trans (List.append_nil front)
  have hshows : l.shows u = Gate.through front u := congrArg (Gate.through · u) hgates
  have hsecret' := hsecret.memo h.record (l.tape past ++ [Gate.through front u])
    (.run (l.observer (Gate.through front u) fun _ => .ret u))
  refine ⟨rfl, .heard hsecret' ⟨(hsecret.observer _ u).mono hsecret'.base, ?_, ?_⟩⟩
  · rw [hgates]
    refine Tuned.of_kept (h.passed.same fun g hg => Heap.get?_set_ne _ _ _ _ ?_)
    intro he
    have hlast : l.record = g.last := congrArg MemoRef.mk he
    exact (List.nodup_cons.1 hsecret.nodup).1 (hlast ▸ List.mem_map_of_mem (hgates ▸ hg))
  · rw [h.tape_concat hgates hshows]
    exact Heap.get?_set_self _ _ _ _ h.record

/-- Every move leads a listener from values it was called with to values it was called with. -/
theorem Listens.move (h : l.Listens T S w t past) (hbodies : ∀ c, (body c).Within (l.terms T) S)
    (hm : Thread.Moves body w t es w' t') :
    l.Listens T S w' t' (past ++ received l.id (signals l.root es)) := by
  cases h with
  | heard hsecret h => exact h.move hsecret hbodies hm
  | @passing past u front rest hsecret h =>
      have hend : es = [] ∧ l.Listens T S w' t' (past ++ [u]) := by
        cases rest with
        | nil => exact h.arrives hsecret hm
        | cons g rest => exact h.passes hsecret hm
      obtain ⟨rfl, hend⟩ := hend
      exact (List.append_nil (past ++ [u])).symm ▸ hend

omit [LawfulBEq V] in
/-- A client that starts a program leaves a listener as it is. -/
theorem Listens.next {o : Outcome V} {c : Prog V P σ ε} (h : l.Listens T S w t past)
    (ho : t.outcome? = some o) (hc : c.Within (l.terms T) S) :
    l.Listens T S w (.start c) past := by
  cases h with
  | heard hsecret h =>
      obtain ⟨s, hs, hknown⟩ := hsecret.known
      have hsecret' : l.Secret T S w (.start c) :=
        ⟨hsecret.nodup, hsecret.world, hsecret.base, hsecret.observer, nofun, s, hs,
          hknown.same rfl nofun⟩
      exact .heard hsecret' ⟨hc.mono hsecret.base, h.tuned, h.record⟩
  | passing _ h => exact absurd (Thread.settled_of_outcome ho).due h.due

omit [LawfulBEq V] in
theorem Listens.secret (h : l.Listens T S w t past) : l.Secret T S w t := by
  cases h with
  | heard h _ => exact h
  | passing h _ => exact h

omit [LawfulBEq V] in
/-- Clients may use all that is not hidden. -/
theorem Listens.widen (h : l.Listens T S w t past) :
    l.Listens T (w.scope l.hidden) w t past := by
  have hsecret : l.Secret T (w.scope l.hidden) w t :=
    ⟨h.secret.nodup, h.secret.world, subset_rfl,
      fun v u => (h.secret.observer v u).mono h.secret.base, h.secret.stack, h.secret.known⟩
  cases h with
  | heard _ h => exact .heard hsecret h
  | passing _ h => exact .passing hsecret h

/-- In whatever is run a listener puts down what it is called with. -/
theorem Listens.run {starts : Prog V P σ ε → Prop} {ok : Thread V P σ ε → Prop}
    (h : l.Listens T S w t past) (hbodies : ∀ c, (body c).Within (l.terms T) S)
    (hstarts : ∀ c, starts c → c.Within (l.terms T) S) (hrun : Run body starts ok w t es w' t') :
    l.Listens T S w' t' (past ++ received l.id (signals l.root es)) := by
  induction hrun with
  | refl => exact (List.append_nil past).symm ▸ h
  | step _ hstep _ ih =>
      rw [signals_append, received_append, ← List.append_assoc]
      exact ih.move hbodies (Thread.moves_iff.2 hstep)
  | next _ ho hc _ ih => exact ih.next ho (hstarts _ hc)

/-- A value that comes to a listener adds to what it has put down, or not. -/
theorem tape_concat_prefix (vs : List V) (v : V) :
    l.tape vs <+: l.tape (vs ++ [v]) ∧ (l.tape (vs ++ [v])).length ≤ (l.tape vs).length + 1 := by
  by_cases hgates : l.gates = []
  · rw [tape_of_free hgates, tape_of_free hgates, List.length_append]
    exact ⟨List.prefix_append _ _, Nat.le_refl _⟩
  · rw [tape_of_gated hgates, tape_of_gated hgates, List.map_append, List.map_singleton,
      unrepeated_concat, List.length_append]
    refine ⟨List.prefix_append _ _, ?_⟩
    split <;> simp

/-- The record of a listener has all that came through, but the value on its way at most. -/
theorem Listens.records (h : l.Listens T S w t past) :
    w.Records t l.root l.record (l.tape past) := by
  cases h with
  | heard _ h => exact ⟨_, h.record, List.prefix_refl _, Nat.le_succ _, fun _ => rfl⟩
  | @passing past u _ _ _ h =>
      obtain ⟨hpre, hlen⟩ := l.tape_concat_prefix past u
      exact ⟨_, h.record, hpre, hlen, fun hset => absurd hset.due h.due⟩

end Listener

end Moving

/-! ## Subscribing -/

/-- What goes on after a subscription, which keeps some publishers. -/
structure Request (V P σ ε : Type) where
  keeps : List PublisherRef
  next : SubscriptionRef → Prog V P σ ε

/-- A listener for which gates are being laid, the last one first: `n` is yet to be subscribed to,
and `g` is what the whole tower shows. -/
structure Listener.Laying [BEq V] (body : P → Prog V P σ ε) (l : Listener V P σ ε)
    (T : Terms V P σ ε) (S : Scope) (g : V → V) (r : Request V P σ ε)
    (n : Node (Routine V P σ ε) .reactive) (w : World V P σ ε) (t : Thread V P σ ε) : Prop where
  focus : t.focus = .run (n.subscribe r.keeps
    (Gate.before l.gates (recording l.record l.observer)) r.next)
  shows : ∃ g', n.Shows l.root g' ∧ l.shows ∘ g' = g
  nodup : l.lists.Nodup
  world : w.Within (l.terms T) (fun _ _ => False) l.hidden
  base : S ⊆ w.scope l.hidden
  observer : ∀ v u, (l.observer v fun _ => .ret u).Within (l.terms T) S
  stack : ∀ fr ∈ t.stack, fr.Within (l.terms T) (fun _ _ => False) (w.scope l.hidden)
  next : ∀ x, (r.next x).Within (l.terms T) S
  blank : w.Blank l.gates
  record : w.memos.get? l.record.index = some []
  found : ∃ s, w.publisher? l.root = some s ∧ l.id = s.nextId
  reachable : Reachable body w t

section Laying

variable [BEq V] {l : Listener V P σ ε} {T : Terms V P σ ε} {S : Scope} {g : V → V}
  {r : Request V P σ ε} {n root : Node (Routine V P σ ε) .reactive} {body : P → Prog V P σ ε}
  {w w' : World V P σ ε} {t t' : Thread V P σ ε} {es : List (Event V ε)}
  {starts : Prog V P σ ε → Prop}

namespace Listener

/-- A listener with one more gate in front, which is new. -/
def lay (l : Listener V P σ ε) (w : World V P σ ε) (f : V → V) : Listener V P σ ε :=
  { l with gates := ⟨⟨w.memos.size⟩, f⟩ :: l.gates }

/-- Laying a gate is a move. -/
theorem Laying.gate {st : List (Frame V P σ ε)} {f g' : V → V}
    (h : l.Laying body T S g r n w ⟨.run (.atom (.newMemo []) fun (last : MemoRef) =>
      root.subscribe r.keeps (Node.converting last (Node.pureRoutine f)
        (Gate.before l.gates (recording l.record l.observer))) r.next), st⟩)
    (hroot : root.Shows l.root g') (hg : l.shows ∘ f ∘ g' = g)
    (hm : Thread.Moves body w ⟨.run (.atom (.newMemo []) fun (last : MemoRef) =>
      root.subscribe r.keeps (Node.converting last (Node.pureRoutine f)
        (Gate.before l.gates (recording l.record l.observer))) r.next), st⟩ es w' t') :
    es = [] ∧ (l.lay w f).Laying body T S g r root w' t' := by
  have hreach : Reachable body w' t' := by
    obtain ⟨store, c, es₀, hrun⟩ := h.reachable
    exact ⟨store, c, _, .step hrun hm.step trivial⟩
  have hgrow : w.Grows w' := hm.grows
  -- all shared lists of the listener were there before
  have hold : ∀ m ∈ l.lists, m.index < w.memos.size := fun m hm => h.world.made _ ⟨m, hm, rfl⟩
  have hperm : (l.lay w f).lists.Perm (⟨w.memos.size⟩ :: l.lists) := .swap _ _ _
  have hlists : ∀ m ∈ (l.lay w f).lists, m = ⟨w.memos.size⟩ ∨ m ∈ l.lists := fun m hm =>
    List.mem_cons.1 (hperm.mem_iff.1 hm)
  have hnew : ∀ u ∈ (l.lay w f).hidden, u ∈ l.hidden ∨ ¬ u.Made w := by
    rintro u ⟨m, hm, rfl⟩
    rcases hlists m hm with rfl | hm
    · exact Or.inr (Nat.lt_irrefl _)
    · exact Or.inl ⟨m, hm, rfl⟩
  have hscope := hgrow.scope_subset hnew
  cases hm with
  | performed ha =>
      cases ha
      have hkept : ∀ i vs, w.memos.get? i = some vs → (w.memos.alloc []).get? i = some vs :=
        fun i vs hi => Heap.get?_alloc_of_some _ _ _ _ hi
      refine ⟨rfl, rfl, ⟨g', hroot, hg⟩, ?_, ?_, h.base.trans hscope, h.observer, ?_, h.next, ?_,
        hkept _ _ h.record, h.found, hreach⟩
      · refine hperm.nodup_iff.2 (List.nodup_cons.2 ⟨fun hmem => ?_, h.nodup⟩)
        exact Nat.lt_irrefl _ (hold _ hmem)
      · refine h.world.conceal hgrow (fun _ _ hno => hno) ?_ hnew rfl ?_ rfl
        · rintro u ⟨m, hm, rfl⟩
          show m.index < (w.memos.alloc []).size
          rw [Heap.size_alloc]
          rcases hlists m hm with rfl | hm
          · exact Nat.lt_succ_self _
          · exact Nat.lt_succ_of_lt (hold m hm)
        · exact fun q s hs x hx => ⟨s, hs, hx⟩
      · exact fun fr hfr => (h.stack fr hfr).mono hscope
      · intro x hx
        rcases List.mem_cons.1 hx with rfl | hx
        · exact Heap.get?_alloc_self _ _
        · exact hkept _ _ (h.blank x hx)

/-- The publisher of a listener that is queued knows it by its number. -/
theorem Laying.known {st : List (Frame V P σ ε)}
    (h : l.Laying body T S g r n w ⟨.run (.attach l.root r.keeps l.react r.next), st⟩)
    {s : Publisher V (Observer V P σ ε)} (hs : w.publisher? l.root = some s)
    (hid : l.id = s.nextId) :
    (Thread.view l.root (s.enqueue ⟨l.react, r.keeps⟩)
      ⟨.drain l.root, s.leaving ++ .register l.root s.nextId r.next :: st⟩).Knows l.id l.react := by
  have hplain : ∀ o : Observer V P σ ε,
      o.Within (l.terms T) (fun _ _ => False) (w.scope l.hidden) l.root → o.react ≠ l.react := by
    intro o ho he
    rcases ho with hin | hno
    · exact react_not_within h.nodup s.current (he ▸ hin s.current)
    · exact hno
  have hcalls : (Thread.view l.root (s.enqueue ⟨l.react, r.keeps⟩)
      (⟨.drain l.root, s.leaving ++ .register l.root s.nextId r.next :: st⟩ :
        Thread V P σ ε)).calls =
      (Thread.view l.root s ⟨.run (.attach l.root r.keeps l.react r.next), st⟩).calls := by
    rw [View.calls, Thread.view, Thread.due_leaving, Thread.due_cons_of_calls? rfl]
    rfl
  rw [hid]
  refine .enqueue h.reachable hs rfl (fun x hx => hplain _ (h.world.observers _ s hs x hx)) ?_ hcalls
  intro c hc
  obtain ⟨calls, hfr, hmem⟩ := Thread.mem_stack_of_mem_calls hc
  exact hplain _ (h.stack _ hfr c hmem)

/-- Once its gates are laid a listener is queued, and from then on it is one. -/
theorem Laying.attach {st : List (Frame V P σ ε)}
    (h : l.Laying body T S g r n w ⟨.run (.attach l.root r.keeps l.react r.next), st⟩)
    (hm : Thread.Moves body w ⟨.run (.attach l.root r.keeps l.react r.next), st⟩ es w' t') :
    received l.id (signals l.root es) = [] ∧ l.Listens T S w' t' [] := by
  have hgrow : w.Grows w' := hm.grows
  obtain ⟨s, hs, hid⟩ := h.found
  cases hm with
  | @attached _ _ _ _ s' _ hs' =>
      obtain rfl := Option.some.inj (hs.symm.trans hs')
      have hnone : received l.id (signals l.root [(.queued l.root s.nextId : Event V ε)]) = [] := by
        simp [received, Signal.handedTo?]
      have hthere := (World.publisher?_enterAll (w := w) (p := l.root) s.monitors).trans hs
      have hworld : w.Within (l.terms T) l.Reacts l.hidden :=
        h.world.conceal (.refl w) (fun _ _ hno => hno.elim) h.world.made (fun _ hu => Or.inl hu) rfl
          (fun q s hs x hx => ⟨s, hs, hx⟩) rfl
      have hmemos : ((w.enterAll s.monitors).setPublisher l.root
          (s.enqueue ⟨l.react, r.keeps⟩)).memos = w.memos := by
        rw [World.enterAll_eq]
        rfl
      refine ⟨hnone, .heard ⟨h.nodup, hworld.enqueue hs (Or.inr ⟨rfl, rfl⟩),
        h.base.trans hgrow.scope, h.observer, ?_, _, World.publisher?_setPublisher_self hthere,
        h.known hs hid⟩ ⟨trivial, ⟨fun _ => ?_, fun _ hlast => by cases hlast⟩, ?_⟩⟩
      · intro fr hfr
        rcases mem_of_mem_leaving hfr with ⟨m, rfl⟩ | hfr
        · trivial
        · rcases List.mem_cons.1 hfr with rfl | hold
          · exact fun x => (h.next x).mono (h.base.trans hgrow.scope)
          · exact ((h.stack fr hold).mono hgrow.scope).imp fun _ _ hno => hno.elim
      · exact h.blank.same fun g _ => by rw [hmemos]
      · rw [hmemos, l.tape_nil]
        exact h.record

/-- A move lays one more gate, or queues the listener. -/
theorem Laying.move (h : l.Laying body T S g r n w t) (hm : Thread.Moves body w t es w' t') :
    received l.id (signals l.root es) = [] ∧
      ((∃ f n', (l.lay w f).Laying body T S g r n' w' t') ∨
        ¬ n.Filters ∧ l.shows = g ∧ l.Listens T S w' t' []) := by
  obtain ⟨f, st⟩ := t
  obtain rfl := h.focus
  obtain ⟨g', hn, hg⟩ := h.shows
  rcases hn.subscribe_cases r.keeps (Gate.before l.gates (recording l.record l.observer)) r.next
    with ⟨hnone, rfl, heq⟩ | ⟨root, f, g₁, hroot, rfl, heq⟩
  · rw [heq] at h hm
    obtain ⟨hquiet, hlistens⟩ := h.attach hm
    exact ⟨hquiet, Or.inr ⟨hnone, hg, hlistens⟩⟩
  · rw [heq] at h hm
    obtain ⟨rfl, hlaid⟩ := h.gate hroot hg hm
    exact ⟨rfl, Or.inl ⟨f, root, hlaid⟩⟩

/-- A thread that subscribes has not ended. -/
theorem Laying.outcome_eq (h : l.Laying body T S g r n w t) : t.outcome? = none := by
  obtain ⟨f, st⟩ := t
  obtain rfl := h.focus
  obtain ⟨g', hn, -⟩ := h.shows
  rcases hn.subscribe_cases r.keeps (Gate.before l.gates (recording l.record l.observer)) r.next
    with ⟨-, -, heq⟩ | ⟨root, f, g₁, -, -, heq⟩
  · rw [heq]
    rfl
  · rw [heq]
    rfl

/-- In whatever is run after a subscription the listener is on its way to be one, or is one. It has
a gate if the tower has one. -/
theorem Laying.run [LawfulBEq V] {ok : Thread V P σ ε → Prop} (h : l.Laying body T S g r n w t)
    (hbodies : ∀ c, (body c).Within (l.terms T) S)
    (hstarts : ∀ c, starts c → c.Within (l.terms T) S) (hrun : Run body starts ok w t es w' t') :
    ∃ gates, (∃ n', (gates ≠ [] ∨ n' = n) ∧ received l.id (signals l.root es) = [] ∧
        ({ l with gates } : Listener V P σ ε).Laying body T S g r n' w' t') ∨
      ((gates ≠ [] ∨ ¬ n.Filters) ∧ ({ l with gates } : Listener V P σ ε).shows = g ∧
        ({ l with gates } : Listener V P σ ε).Listens T S w' t'
          (received l.id (signals l.root es))) := by
  induction hrun with
  | refl => exact ⟨l.gates, Or.inl ⟨n, Or.inr rfl, rfl, h⟩⟩
  | step _ hstep _ ih =>
      have hm := Thread.moves_iff.2 hstep
      rw [signals_append, received_append]
      obtain ⟨gates, ⟨n', hgates, hnone, hlaying⟩ | ⟨hgates, hshows, hlistens⟩⟩ := ih
      · rw [hnone]
        obtain ⟨hquiet, ⟨f, n'', hlaying'⟩ | ⟨hfree, hshows, hlistens⟩⟩ := hlaying.move hm
        · exact ⟨_, Or.inl ⟨n'', Or.inl (List.cons_ne_nil _ _), hquiet, hlaying'⟩⟩
        · refine ⟨gates, Or.inr ⟨hgates.imp_right ?_, hshows, ?_⟩⟩
          · rintro rfl
            exact hfree
          · have hquiet' : received l.id (signals l.root _) = [] := hquiet
            rw [hquiet']
            exact hlistens
      · exact ⟨gates, Or.inr ⟨hgates, hshows, hlistens.move hbodies hm⟩⟩
  | next _ ho hc _ ih =>
      obtain ⟨gates, ⟨n', -, -, hlaying⟩ | ⟨hgates, hshows, hlistens⟩⟩ := ih
      · exact nomatch hlaying.outcome_eq.symm.trans ho
      · exact ⟨gates, Or.inr ⟨hgates, hshows, hlistens.next ho (hstarts _ hc)⟩⟩

end Listener

/-- Whether nobody in a world knows of a shared list, which is empty, but those who are about to
have an observer that puts down there what it is called with. -/
structure World.Unshared (w : World V P σ ε) (body : P → Prog V P σ ε) (T : Terms V P σ ε)
    (record : MemoRef) (st : List (Frame V P σ ε)) (o : V → Act V P σ ε Unit)
    (r : Request V P σ ε) : Prop where
  empty : w.memos.get? record.index = some []
  world : w.Within T.plain (fun _ _ => False) (.lists [record])
  bodies : ∀ c, (body c).Within T.plain (w.scope (.lists [record]))
  stack : ∀ fr ∈ st, fr.Within T.plain (fun _ _ => False) (w.scope (.lists [record]))
  observer : ∀ v u, (o v fun _ => .ret u).Within T.plain (w.scope (.lists [record]))
  next : ∀ x, (r.next x).Within T.plain (w.scope (.lists [record]))

/-- Whoever subscribes to a tower of views and facades is called with what the tower shows of the
values that its publisher calls with, without those equal to the one before. -/
theorem Node.Shows.hears [LawfulBEq V] {p : PublisherRef} {record : MemoRef}
    {o : V → Act V P σ ε Unit} {st : List (Frame V P σ ε)} {s : Publisher V (Observer V P σ ε)}
    (hn : n.Shows p g) (hfilters : n.Filters) (hs : w.publisher? p = some s)
    (hw : w.Unshared body T record st o r)
    (hstarts : ∀ c, starts c → c.Within T.plain (w.scope (.lists [record])))
    (hreach : Reachable body w ⟨.run (n.subscribe r.keeps (recording record o) r.next), st⟩)
    (hrun : Run body starts Thread.Any w
      ⟨.run (n.subscribe r.keeps (recording record o) r.next), st⟩ es w' t') :
    w'.Records t' p record (unrepeated ((received s.nextId (signals p es)).map g)) := by
  let l : Listener V P σ ε := ⟨p, s.nextId, [], record, o⟩
  have hlaying : l.Laying body T (w.scope (.lists [record])) g r n w
      ⟨.run (n.subscribe r.keeps (recording record o) r.next), st⟩ :=
    ⟨rfl, ⟨g, hn, rfl⟩, List.nodup_singleton _, hw.world.allow _, Set.Subset.refl _,
      fun v u => (hw.observer v u).allow _, fun fr hfr => (hw.stack fr hfr).allow,
      fun x => (hw.next x).allow _, nofun, hw.empty, ⟨s, hs, rfl⟩, hreach⟩
  obtain ⟨gates, ⟨n', -, hnone, hlaying'⟩ | ⟨hgates, rfl, hlistens⟩⟩ :=
    hlaying.run (fun c => (hw.bodies c).allow _) (fun c hc => (hstarts c hc).allow _) hrun
  · have hnone' : received s.nextId (signals p es) = [] := hnone
    rw [hnone']
    exact ⟨[], hlaying'.record, List.prefix_refl _, Nat.zero_le _, fun _ => rfl⟩
  · have hgated : gates ≠ [] := hgates.resolve_right fun hfree => hfree hfilters
    have hrecords := hlistens.records
    rw [Listener.tape_of_gated hgated] at hrecords
    exact hrecords

end Laying

end ReactiveCells
