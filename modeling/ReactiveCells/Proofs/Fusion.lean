import ReactiveCells.Proofs.Listening

/-!
# Fusion — a chain of views is one view

A view on a view on a root converts twice, and keeps nothing itself. With functions that do nothing
but compute it does what one view on the root does with the composed functions, whether or not they
are inverse to each other: the operations are the same programs.

Subscriptions are not the same programs, since each view lays a gate of its own. They come to the
same all the same: a chain and the single view both are towers that show the composed conversion of
what the root shows, and the observer of a tower is called with what the tower shows, without values
equal to the one before.

Main statements: `fuses_chain` (the operations of a chain) and `view_chain_fuses`.
-/

namespace ReactiveCells

variable {V P σ ε : Type}

/-- The converter with functions that do nothing but compute. -/
def Converter.pure (c : Converter (V → V)) : Converter (Routine V P σ ε) :=
  ⟨Node.pureRoutine c.forward, Node.pureRoutine c.backward⟩

/-- One converter for many, the first of which is next to the root. -/
def Converter.fused : List (Converter (V → V)) → Converter (V → V)
  | [] => ⟨id, id⟩
  | c :: cs => ⟨(fused cs).forward ∘ c.forward, c.backward ∘ (fused cs).backward⟩

namespace Node

variable {k : Kind} {root n n' n'' : Node (Routine V P σ ε) k} {p : PublisherRef} {g : V → V}

/-- A view on a view, and so on, on a root. The first converter is next to the root. -/
def chain (root : Node (Routine V P σ ε) k) : List (Converter (V → V)) → Node (Routine V P σ ε) k
  | [] => root
  | c :: cs => (root.view c.pure).chain cs

/-- Whether two nodes have the same lock, and all their operations but subscriptions are the same
programs. -/
structure Fuses (n n' : Node (Routine V P σ ε) k) : Prop where
  get : n.get = n'.get
  set : n.set = n'.set
  modify : n.modify = n'.modify
  comparing : ∀ h, n.comparing h = n'.comparing h
  exchanging : ∀ h, n.exchanging h = n'.exchanging h
  lock : n.lock? = n'.lock?

theorem Fuses.trans (h : n.Fuses n') (h' : n'.Fuses n'') : n.Fuses n'' where
  get := h.get.trans h'.get
  set := h.set.trans h'.set
  modify := h.modify.trans h'.modify
  comparing e := (h.comparing e).trans (h'.comparing e)
  exchanging e := (h.exchanging e).trans (h'.exchanging e)
  lock := h.lock.trans h'.lock

/-- A view that does not convert does what its root does. -/
theorem fuses_view_id (n : Node (Routine V P σ ε) k) :
    n.Fuses (n.view (Converter.pure ⟨id, id⟩)) where
  get := rfl
  set := rfl
  modify := by
    funext f
    have hwithin : Converter.within (Converter.pure ⟨id, id⟩) f = f := by
      funext v
      exact Prog.bind_ret (f v)
    show n.modify f = n.modify (Converter.within (Converter.pure ⟨id, id⟩) f)
    rw [hwithin]
  comparing _ := rfl
  exchanging _ := rfl
  lock := rfl

/-- Two views do what one does with the composed functions. -/
theorem fuses_view_view (n : Node (Routine V P σ ε) k) (c d : Converter (V → V)) :
    ((n.view c.pure).view d.pure).Fuses
      (n.view (Converter.pure ⟨d.forward ∘ c.forward, c.backward ∘ d.backward⟩)) where
  get := get_view_view ..
  set := set_view_view ..
  modify := funext fun _ => modify_view_view ..
  comparing _ := rfl
  exchanging _ := rfl
  lock := rfl

/-- A chain of views does what one view does with all the functions composed. -/
theorem fuses_chain (root : Node (Routine V P σ ε) k) (cs : List (Converter (V → V))) :
    (root.chain cs).Fuses (root.view (Converter.fused cs).pure) := by
  induction cs generalizing root with
  | nil => exact fuses_view_id root
  | cons c cs ih => exact (ih (root.view c.pure)).trans (fuses_view_view root c (.fused cs))

/-- A chain of views on a tower is a tower. -/
theorem Shows.chain {root : Node (Routine V P σ ε) .reactive} (h : root.Shows p g)
    (cs : List (Converter (V → V))) :
    (root.chain cs).Shows p ((Converter.fused cs).forward ∘ g) := by
  induction cs generalizing root g with
  | nil => exact h
  | cons c cs ih => exact ih (.view c.forward _ h)

theorem Filters.chain (h : root.Filters) (cs : List (Converter (V → V))) :
    (root.chain cs).Filters := by
  induction cs generalizing root with
  | nil => exact h
  | cons c cs ih =>
      have hview : (root.view c.pure).Filters := trivial
      exact ih hview

end Node

/-- A chain of views on one root is a single view with the composed converter. All operations do the
same to the root and yield the same, and the lock is that of the root. An observer of the chain is
called with the composed conversion of what the root delivers, without values equal to the one
before, and so is one of the single view. -/
theorem view_chain_fuses [BEq V] [LawfulBEq V] (cs : List (Converter (V → V))) :
    (∀ {k} (root : Node (Routine V P σ ε) k),
      (root.chain cs).Fuses (root.view (Converter.fused cs).pure) ∧
      (root.chain cs).lock? = root.lock?) ∧
    (cs ≠ [] → ∀ (root : Node (Routine V P σ ε) .reactive) {p : PublisherRef} {g : V → V},
      root.Shows p g → ∀ n, n = root.chain cs ∨ n = root.view (Converter.fused cs).pure →
      ∀ {body : P → Prog V P σ ε} {T : Terms V P σ ε} {starts : Prog V P σ ε → Prop}
        {record : MemoRef} {o : V → Act V P σ ε Unit} {r : Request V P σ ε}
        {w w' : World V P σ ε} {st : List (Frame V P σ ε)} {t' : Thread V P σ ε}
        {es : List (Event V ε)} {s : Publisher V (Observer V P σ ε)},
      w.publisher? p = some s → w.Unshared body T record st o r →
      (∀ c, starts c → c.Within T.plain (w.scope (.lists [record]))) →
      Reachable body w ⟨.run (n.subscribe r.keeps (recording record o) r.next), st⟩ →
      Run body starts Thread.Any w
        ⟨.run (n.subscribe r.keeps (recording record o) r.next), st⟩ es w' t' →
      -- what the root delivers, of which a view or a facade has dropped repetitions already
      ∀ delivered, delivered = (received s.nextId (signals p es)).map g ∨
          delivered = unrepeated ((received s.nextId (signals p es)).map g) →
        w'.Records t' p record (unrepeated (delivered.map (Converter.fused cs).forward))) := by
  refine ⟨fun root => ⟨Node.fuses_chain root cs, (Node.fuses_chain root cs).lock⟩, ?_⟩
  intro hcs root p g hroot n hn body T starts record o r w w' st t' es s hs hw hstarts hreach hrun
    delivered hdelivered
  have hshows : n.Shows p ((Converter.fused cs).forward ∘ g) := by
    rcases hn with rfl | rfl
    · exact hroot.chain cs
    · exact .view _ _ hroot
  have hfilters : n.Filters := by
    rcases hn with rfl | rfl
    · obtain ⟨c, cs, rfl⟩ := List.exists_cons_of_ne_nil hcs
      have hview : (root.view c.pure).Filters := trivial
      exact hview.chain cs
    · trivial
  have hall : unrepeated (delivered.map (Converter.fused cs).forward) =
      unrepeated ((received s.nextId (signals p es)).map ((Converter.fused cs).forward ∘ g)) := by
    rw [← List.map_map]
    rcases hdelivered with rfl | rfl
    · rfl
    · exact unrepeated_map_unrepeated _ _
  rw [hall]
  exact hshows.hears hfilters hs hw hstarts hreach hrun

/-! ## The parity of a half -/

/-- Halves, and takes the parity of that. -/
def halfParity : List (Converter (Nat → Nat)) :=
  [⟨(· / 2), (2 * ·)⟩, ⟨(· % 2), id⟩]

/-- Goes on by writing 2, 3, 6 and 4 to the box. -/
def counting : Request Nat Empty Unit Unit :=
  ⟨[], fun _ => .publish ⟨0⟩ 2 (.publish ⟨0⟩ 3 (.publish ⟨0⟩ 6 (.publish ⟨0⟩ 4 (.ret 0))))⟩

/-- Subscribes to a node, and goes on. -/
def hearing (n : Node (Routine Nat Empty Unit Unit) .reactive) : Prog Nat Empty Unit Unit :=
  n.subscribe counting.keeps (recording ⟨0⟩ fun _ => pure ()) counting.next

/-- Makes a box that holds 1 and a shared list, subscribes to a node, and goes on. -/
def listening (n : Node (Routine Nat Empty Unit Unit) .reactive) : Prog Nat Empty Unit Unit :=
  .atom (.newPublisher none 1) fun _ => .atom (.newMemo []) fun _ => hearing n

/-- Where there is nothing but the box and the shared list nobody knows of the list. -/
theorem counting_unshared {w : World Nat Empty Unit Unit}
    (hpubs : w.publishers = ⟨[.new none 1]⟩) (hmemos : w.memos = ⟨[[]]⟩)
    (hsubs : w.subscriptions = ⟨[]⟩) :
    w.Unshared Empty.elim .storeless ⟨0⟩ [] (fun _ => pure ()) counting := by
  have hwrite : .publish ⟨0⟩ ∈ w.scope (.lists [⟨0⟩]) := by
    refine ⟨?_, ?_⟩
    · show 0 < w.publishers.size
      rw [hpubs]
      exact Nat.one_pos
    · rintro ⟨m, -, he⟩
      cases he
  refine ⟨?_, ⟨?_, trivial, ?_, ?_⟩, fun c => c.elim, fun _ hfr => absurd hfr List.not_mem_nil,
    fun _ u => .ret u, fun _ => ?_⟩
  · rw [hmemos]
    rfl
  · rintro u ⟨m, hm, rfl⟩
    show m.index < w.memos.size
    rw [List.mem_singleton.1 hm, hmemos]
    exact Nat.one_pos
  · intro q s hs x hx
    rw [World.publisher?, hpubs] at hs
    obtain rfl := List.mem_singleton.1 (List.mem_of_getElem? hs)
    exact absurd hx List.not_mem_nil
  · intro i c hc
    rw [hsubs] at hc
    exact absurd (List.mem_of_getElem? hc) List.not_mem_nil
  · exact .publish hwrite (.publish hwrite (.publish hwrite (.publish hwrite (.ret 0))))

/-- When the box goes from 1 to 2, 3, 6 and 4, the parity of the half goes from 0 to 1 and back, for
the observer of two views as for that of the single one. -/
theorem view_chain_fuses_halfParity :
    ∃ (w : World Nat Empty Unit Unit) (es : List (Event Nat Unit)) (w' : World Nat Empty Unit Unit)
      (es₂ : List (Event Nat Unit)) (w₂ : World Nat Empty Unit Unit),
      CalmRun Empty.elim w (.start (hearing ((Node.rx ⟨0⟩).chain halfParity))) es w'
        ⟨.run (.ret 0), []⟩ ∧
      CalmRun Empty.elim w (.start (hearing ((Node.rx ⟨0⟩).view (Converter.fused halfParity).pure)))
        es₂ w₂ ⟨.run (.ret 0), []⟩ ∧
      w'.memos.get? 0 = some [0, 1, 0] ∧ w₂.memos.get? 0 = some [0, 1, 0] ∧
      unrepeated ((received 0 (signals ⟨0⟩ es)).map (Converter.fused halfParity).forward) =
        [0, 1, 0] ∧
      unrepeated ((received 0 (signals ⟨0⟩ es₂)).map (Converter.fused halfParity).forward) =
        [0, 1, 0] := by
  obtain ⟨w, es₀, es, w', es₂, w₂, hmade, hmade₂, hpubs, hmemos, hsubs, hchain, hheard, hview,
      hheard₂⟩ :
      ∃ (w : World Nat Empty Unit Unit) (es₀ es : List (Event Nat Unit))
        (w' : World Nat Empty Unit Unit) (es₂ : List (Event Nat Unit))
        (w₂ : World Nat Empty Unit Unit),
      Thread.advance Empty.elim 2 (World.new ())
          (.start (listening ((Node.rx ⟨0⟩).chain halfParity))) =
        some (w, .start (hearing ((Node.rx ⟨0⟩).chain halfParity)), es₀) ∧
      Thread.advance Empty.elim 2 (World.new ())
          (.start (listening ((Node.rx ⟨0⟩).view (Converter.fused halfParity).pure))) =
        some (w, .start (hearing ((Node.rx ⟨0⟩).view (Converter.fused halfParity).pure)), es₀) ∧
      w.publishers = ⟨[.new none 1]⟩ ∧ w.memos = ⟨[[]]⟩ ∧ w.subscriptions = ⟨[]⟩ ∧
      Thread.advance Empty.elim 49 w (.start (hearing ((Node.rx ⟨0⟩).chain halfParity))) =
        some (w', ⟨.run (.ret 0), []⟩, es) ∧
      w'.memos.get? 0 = some [0, 1, 0] ∧
      Thread.advance Empty.elim 44 w
          (.start (hearing ((Node.rx ⟨0⟩).view (Converter.fused halfParity).pure))) =
        some (w₂, ⟨.run (.ret 0), []⟩, es₂) ∧
      w₂.memos.get? 0 = some [0, 1, 0] :=
    ⟨_, _, _, _, _, _, rfl, rfl, rfl, rfl, rfl, rfl, rfl, rfl, rfl⟩
  have hbox : w.publisher? ⟨0⟩ = some (.new none 1) := congrArg (Heap.get? · 0) hpubs
  have hunshared := counting_unshared hpubs hmemos hsubs
  obtain ⟨-, hfuse⟩ := view_chain_fuses (P := Empty) (σ := Unit) (ε := Unit) halfParity
  -- what the list of either observer holds in the end is what the theorem says
  have hall : ∀ n, n = (Node.rx ⟨0⟩).chain halfParity ∨
        n = (Node.rx ⟨0⟩).view (Converter.fused halfParity).pure →
      Thread.advance Empty.elim 2 (World.new ()) (.start (listening n)) =
        some (w, .start (hearing n), es₀) →
      ∀ {es : List (Event Nat Unit)} {w' : World Nat Empty Unit Unit},
      CalmRun Empty.elim w (.start (hearing n)) es w' ⟨.run (.ret 0), []⟩ →
      w'.memos.get? 0 = some [0, 1, 0] →
      unrepeated ((received 0 (signals ⟨0⟩ es)).map (Converter.fused halfParity).forward) =
        [0, 1, 0] := by
    intro n hn hmade es w' hrun hheard
    have hstarted : Run Empty.elim (fun _ => True) Thread.Calm (World.new ())
        (.start (listening n)) es₀ w (.start (hearing n)) := Run.of_advance hmade
    have hreach : Reachable Empty.elim w (.start (hearing n)) :=
      ⟨(), _, es₀, hstarted.mono (fun _ h => h) fun _ _ => trivial⟩
    have hany : Run Empty.elim (fun _ => False) Thread.Any w (.start (hearing n)) es w'
        ⟨.run (.ret 0), []⟩ := hrun.mono (fun _ h => h) fun _ _ => trivial
    obtain ⟨vs, hvs, -, -, hvs_eq⟩ := hfuse (List.cons_ne_nil _ _) (.rx ⟨0⟩) .rx n hn hbox hunshared
      (fun _ (h : False) => h.elim) hreach hany (received 0 (signals ⟨0⟩ es))
      (Or.inl (List.map_id _).symm)
    obtain rfl := Option.some.inj (hheard.symm.trans hvs)
    exact (hvs_eq (Thread.settled_start _ _)).symm
  have hrun : CalmRun Empty.elim w (.start (hearing ((Node.rx ⟨0⟩).chain halfParity))) es w'
      ⟨.run (.ret 0), []⟩ := Run.of_advance hchain
  have hrun₂ : CalmRun Empty.elim w
      (.start (hearing ((Node.rx ⟨0⟩).view (Converter.fused halfParity).pure))) es₂ w₂
      ⟨.run (.ret 0), []⟩ := Run.of_advance hview
  exact ⟨w, es, w', es₂, w₂, hrun, hrun₂, hheard, hheard₂,
    hall _ (Or.inl rfl) hmade hrun hheard, hall _ (Or.inr rfl) hmade₂ hrun₂ hheard₂⟩

end ReactiveCells
