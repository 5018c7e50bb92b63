import ReactiveCells.Proofs.Confluence
import ReactiveCells.Proofs.Toggling

/-!
# Through a breaker — a box and the closed breaker that takes its place

A program that works with a box may be given a closed breaker instead, whose copy is the box: every
write to the box becomes a write to the breaker (`Prog.through`), and nothing else changes. So
everything in the world of the box, its observers among them, has its counterpart in a world with a
breaker and a delegate (`World.behind`).

As long as a thread neither writes the box nor has to do with the delegate, the two worlds move in
step: `step_through` says so of the machine itself, so neither of them moves without the other.
-/

namespace ReactiveCells

variable {V P σ ε : Type}

/-! ## Publishers with other observers -/

/-- A queue entry with another observer. -/
def Pending.map {O O' : Type} (f : O → O') : Pending V O → Pending V O'
  | .emit v => .emit v
  | .attach r => .attach ⟨r.id, f r.observer⟩

/-- A call of another observer. -/
def Call.map {O O' : Type} (f : O → O') (c : Call V O) : Call V O' :=
  ⟨c.id, c.value, f c.observer⟩

/-- A delivery to other observers. -/
def Delivery.map {O O' : Type} (f : O → O') : Delivery V O → Delivery V O'
  | .round calls => .round (calls.map (Call.map f))
  | .replay c n => .replay (c.map f) n

namespace Publisher

variable {O O' : Type} (f : O → O') (s : Publisher V O)

/-- The same publisher with other observers. -/
def map : Publisher V O' :=
  { guard := s.guard, current := s.current, delivered := s.delivered,
    observers := s.observers.map fun r => ⟨r.id, f r.observer⟩,
    pending := s.pending.map (Pending.map f), draining := s.draining, nextId := s.nextId }

theorem length_map_observers : (s.map f).observers.length = s.observers.length :=
  List.length_map _

@[simp] theorem map_monitors : (s.map f).monitors = s.monitors := rfl

theorem map_commit [BEq V] (v : V) : (s.map f).commit v = (s.commit v).map (Publisher.map f) := by
  unfold commit
  show (if s.current == v then none else some _) = _
  split
  · rfl
  · simp [map, Pending.map]

theorem map_enqueue (o : O) : (s.enqueue o).map f = (s.map f).enqueue (f o) := by
  simp [map, enqueue, Pending.map]

theorem map_beginDrain : (s.map f).beginDrain = s.beginDrain.map (Publisher.map f) := by
  unfold beginDrain
  show (if s.draining then none else some _) = _
  split <;> rfl

theorem map_pop : (s.map f).pop = s.pop.map fun (d, s') => (d.map f, s'.map f) := by
  obtain ⟨guard, current, delivered, observers, pending, draining, nextId⟩ := s
  cases pending with
  | nil => rfl
  | cons a rest =>
      cases a with
      | emit v =>
          simp [pop, map, Pending.map, Delivery.map]
          intro r _
          rfl
      | attach r =>
          simp [pop, map, Pending.map, Delivery.map]
          rfl

theorem map_detach (id : Nat) : (s.detach id).map f = (s.map f).detach id := by
  have hpending : ∀ l : List (Pending V O), (l.filter (·.id? != some id)).map (Pending.map f) =
      (l.map (Pending.map f)).filter (·.id? != some id) := by
    intro l
    rw [List.filter_map]
    refine congrArg (List.map _) (List.filter_congr fun a _ => ?_)
    cases a <;> rfl
  simp [map, detach, hpending, List.filter_map]
  rfl

end Publisher

namespace Heap

variable {α β : Type} (f : α → β) (h : Heap α)

/-- A heap with other entries. -/
def map : Heap β := ⟨h.entries.map f⟩

@[simp] theorem get?_map (i : Nat) : (h.map f).get? i = (h.get? i).map f :=
  List.getElem?_map

@[simp] theorem size_map : (h.map f).size = h.size :=
  List.length_map f

theorem map_set (i : Nat) (a : α) : (h.set i a).map f = (h.map f).set i (f a) :=
  congrArg Heap.mk List.map_set

theorem map_alloc (a : α) : (h.alloc a).map f = (h.map f).alloc (f a) :=
  congrArg Heap.mk List.map_append

theorem set_comm {i j : Nat} (hij : i ≠ j) (a b : α) :
    (h.set i a).set j b = (h.set j b).set i a :=
  congrArg Heap.mk (List.set_comm a b hij)

/-- A new entry is not concerned by what replaces an old one. -/
theorem alloc_set {i : Nat} {b : α} (hi : h.get? i = some b) (a c : α) :
    (h.alloc a).set i c = (h.set i c).alloc a := by
  have hlt : i < h.entries.length := (List.getElem?_eq_some_iff.1 hi).1
  exact congrArg Heap.mk (List.set_append_left i c hlt)

end Heap

/-! ## Programs and worlds -/

section Through

variable (b : Breaker) (n : Node (Routine V P σ ε) .reactive)

/-- The same program with a breaker in the place of its copy. -/
def Prog.through : Prog V P σ ε → Prog V P σ ε
  | .ret v => .ret v
  | .panic text => .panic text
  | .atom a k => .atom a fun x => (k x).through
  | .call c k => .call c fun v => (k v).through
  | .attempt c k => .attempt c.through fun r => (k r).through
  | .hold m c k => .hold m c.through fun v => (k v).through
  | .retry c f k => .retry c (fun v => (f v).through) fun v => (k v).through
  | .publish p v k =>
      if p = b.copy then (b.node n).set v fun _ => k.through else .publish p v k.through
  | .amend p f k => .amend p (fun v => (f v).through) fun v => (k v).through
  | .attach p keeps o k => .attach p keeps (fun v => (o v).through) fun s => (k s).through
  | .onDispose c k => .onDispose c.through fun s => (k s).through
  | .dispose s k => .dispose s k.through

/-- The same observer with a breaker in the place of its copy. -/
def Observer.through (o : Observer V P σ ε) : Observer V P σ ε :=
  ⟨fun v => (o.react v).through b n, o.keeps⟩

def Frame.through : Frame V P σ ε → Frame V P σ ε
  | .resume k => .resume fun v => (k v).through b n
  | .attempt k => .attempt fun r => (k r).through b n
  | .leave m => .leave m
  | .deliver p calls => .deliver p (calls.map (Call.map (Observer.through b n)))
  | .observe o => .observe (o.through b n)
  | .commit p => .commit p
  | .register p id k => .register p id fun s => (k s).through b n
  | .swapIn c stamp attempts f => .swapIn c stamp attempts fun v => (f v).through b n

def Focus.through : Focus V P σ ε → Focus V P σ ε
  | .run c => .run (c.through b n)
  | .drain p => .drain p
  | .unwind text => .unwind text

def Thread.through (t : Thread V P σ ε) : Thread V P σ ε :=
  ⟨t.focus.through b n, t.stack.map (Frame.through b n)⟩

def Teardown.through : Teardown V P σ ε → Teardown V P σ ε
  | .detach p id => .detach p id
  | .run c => .run (c.through b n)

/-- The same world with a breaker in the place of its copy, in front of a delegate `d` whose state
is `q`. -/
def World.behind (d : PublisherRef) (q : Publisher V (Observer V P σ ε)) (w : World V P σ ε) :
    World V P σ ε :=
  { w with
    publishers := (w.publishers.map (Publisher.map (Observer.through b n))).set d.index q
    subscriptions := w.subscriptions.map (Option.map (Teardown.through b n)) }

variable {b n} {d p : PublisherRef} {q s : Publisher V (Observer V P σ ε)} {w : World V P σ ε}

/-- The delegate is what it is. -/
theorem World.behind_delegate {q₀ : Publisher V (Observer V P σ ε)}
    (hd : w.publisher? d = some q₀) : (w.behind b n d q).publisher? d = some q := by
  refine Heap.get?_set_self _ _ _ (q₀.map (Observer.through b n)) ?_
  rw [Heap.get?_map, show w.publishers.get? d.index = _ from hd]
  rfl

theorem World.behind_publisher? (hp : p ≠ d) :
    (w.behind b n d q).publisher? p =
      (w.publisher? p).map (Publisher.map (Observer.through b n)) := by
  have hne : d.index ≠ p.index := fun he => hp (congrArg PublisherRef.mk he).symm
  exact (Heap.get?_set_ne _ _ _ _ hne).trans (Heap.get?_map _ _ _)

/-- A world like the one of the breaker, with other publishers. -/
theorem World.behind_congr {ps ps' : Heap (Publisher V (Observer V P σ ε))}
    (h : ps = ps') :
    ({ w with
        publishers := ps
        subscriptions := w.subscriptions.map (Option.map (Teardown.through b n)) } :
      World V P σ ε) =
    { w with
      publishers := ps'
      subscriptions := w.subscriptions.map (Option.map (Teardown.through b n)) } := by
  rw [h]

theorem World.behind_setPublisher (hp : p ≠ d) :
    (w.setPublisher p s).behind b n d q =
      (w.behind b n d q).setPublisher p (s.map (Observer.through b n)) := by
  have hne : p.index ≠ d.index := fun he => hp (congrArg PublisherRef.mk he)
  -- the delegate's entry is put in last, after that of any other publisher
  refine World.behind_congr (w := w) ?_
  show ((w.publishers.set p.index s).map _).set d.index q = _
  rw [Heap.map_set, Heap.set_comm _ hne]
  rfl

theorem World.behind_setPublisher_delegate (q' : Publisher V (Observer V P σ ε)) :
    (w.behind b n d q).setPublisher d q' = w.behind b n d q' :=
  World.behind_congr (w := w) (congrArg Heap.mk (List.set_set _))

theorem World.behind_enterAll (ms : List Monitor) :
    (w.enterAll ms).behind b n d q = (w.behind b n d q).enterAll ms := by
  rw [World.enterAll_eq, World.enterAll_eq]
  rfl

theorem World.behind_newSubscription (t : Option (Teardown V P σ ε)) :
    (w.behind b n d q).newSubscription (t.map (Teardown.through b n)) =
      ((w.newSubscription t).1, (w.newSubscription t).2.behind b n d q) := by
  show (SubscriptionRef.mk _, ({ w with publishers := _, subscriptions := _ } : World V P σ ε)) = _
  rw [World.newSubscription, World.behind, ← Heap.map_alloc]
  exact congrArg₂ _ (congrArg _ (Heap.size_map _ _)) rfl

theorem World.behind_dispose (i : Nat) :
    ({ w with subscriptions := w.subscriptions.set i none } : World V P σ ε).behind b n d q =
      { w.behind b n d q with
        subscriptions := (w.behind b n d q).subscriptions.set i none } :=
  congrArg (fun ss => { w.behind b n d q with subscriptions := ss })
    (Heap.map_set (Option.map (Teardown.through b n)) w.subscriptions i none)

@[simp] theorem map_through_leaving {O : Type} (r : Publisher V O) (st : List (Frame V P σ ε)) :
    (r.leaving ++ st).map (Frame.through b n) = r.leaving ++ st.map (Frame.through b n) := by
  rw [List.map_append]
  refine congrArg (· ++ _) ?_
  rw [Publisher.leaving, List.map_map]
  rfl

end Through

/-! ## In step -/

section Step

variable [BEq V] {b : Breaker} {n : Node (Routine V P σ ε) .reactive} {d p : PublisherRef}
  {q q₀ s : Publisher V (Observer V P σ ε)} {w : World V P σ ε} {t : Thread V P σ ε}
  {S : Scope} {T : Terms V P σ ε} {st : List (Frame V P σ ε)} {body : P → Prog V P σ ε}
  {reacts : PublisherRef → Routine V P σ ε → Prop}

/-- A state of the box's world and the events that led there, seen from the breaker's. -/
def Moved.behind (b : Breaker) (n : Node (Routine V P σ ε) .reactive) (d : PublisherRef)
    (q : Publisher V (Observer V P σ ε)) (x : Moved V P σ ε) : Moved V P σ ε :=
  (x.1.behind b n d q, x.2.1.through b n, x.2.2)

omit [BEq V] in
/-- Whoever looks up a publisher other than the delegate goes on alike in both worlds, if it makes
the same of what it finds. -/
theorem World.behind_lookup (hp : p ≠ d)
    {F G : Publisher V (Observer V P σ ε) → Option (Moved V P σ ε)}
    (h : ∀ s, F (s.map (Observer.through b n)) = (G s).map (Moved.behind b n d q)) :
    ((w.behind b n d q).publisher? p >>= F) =
      (w.publisher? p >>= G).map (Moved.behind b n d q) := by
  rw [World.behind_publisher? hp]
  cases w.publisher? p with
  | none => rfl
  | some s => exact h s

/-- An operation that does not look at the delegate answers the same in both worlds. -/
theorem World.behind_perform {a : Atom V σ ε} (hneeds : a.needs ⊆ S) (hd : .read d ∉ S)
    (hfound : w.publisher? d = some q₀) :
    (w.behind b n d q).perform a =
      (w.perform a).map fun (x, w', es) => (x, w'.behind b n d q, es) := by
  have hsize : (w.behind b n d q).publishers.size = w.publishers.size :=
    (Heap.size_set _ _ _).trans (Heap.size_map _ _)
  cases a with
  | newPublisher guard v =>
      have hmapped : (w.publishers.map (Publisher.map (Observer.through b n))).get? d.index =
          some (q₀.map (Observer.through b n)) := by
        rw [Heap.get?_map, show w.publishers.get? d.index = _ from hfound]
        rfl
      have hworld : ({ w with publishers := w.publishers.alloc (.new guard v) } :
            World V P σ ε).behind b n d q =
          { w.behind b n d q with
            publishers := (w.behind b n d q).publishers.alloc (.new guard v) } := by
        refine World.behind_congr (w := w) ?_
        show ((w.publishers.alloc _).map _).set d.index q = _
        rw [Heap.map_alloc, Heap.alloc_set _ hmapped]
        rfl
      show some (PublisherRef.mk _, _, _) = some (PublisherRef.mk _, _, _)
      rw [hsize, hworld]
  | current p | observerCount p =>
      have hp : p ≠ d := by
        rintro rfl
        exact hd (hneeds rfl)
      rw [World.perform, World.behind_publisher? hp, World.perform]
      cases w.publisher? p with
      | none => rfl
      | some s => simp [Publisher.map]
  | newLock key => cases key <;> rfl
  | newDisposed =>
      show some (SubscriptionRef.mk _, _, _) = some (SubscriptionRef.mk _, _, _)
      have hnew := World.behind_newSubscription (b := b) (n := n) (d := d) (q := q) (w := w) none
      exact congrArg (fun x => some (x.1, x.2, [])) hnew
  | isDisposed s =>
      show Option.map _ ((w.subscriptions.map _).get? s.index) = _
      rw [Heap.get?_map, World.perform]
      cases w.subscriptions.get? s.index with
      | none => rfl
      | some t => cases t <;> rfl
  | exchange c expect update =>
      show Option.map _ (w.cell? c) = Option.map _ (Option.map _ (w.cell? c))
      cases w.cell? c with
      | none => rfl
      | some e =>
          simp only [Option.map_some]
          cases e.exchange expect update <;> rfl
  | load c | store c | swap c =>
      show Option.map _ (w.cell? c) = Option.map _ (Option.map _ (w.cell? c))
      cases w.cell? c <;> rfl
  | memo r f =>
      show Option.map _ (w.memos.get? r.index) = Option.map _ (Option.map _ (w.memos.get? r.index))
      cases w.memos.get? r.index <;> rfl
  | bag r f =>
      show Option.map _ (w.bags.get? r.index) = Option.map _ (Option.map _ (w.bags.get? r.index))
      cases w.bags.get? r.index <;> rfl
  | own | tell | report | newCell | isHeld | newMemo | newBag => rfl

/-- What a value does to the topmost frame it does in both worlds. -/
theorem stepReturn_through {v : V}
    (htop : ∀ fr ∈ st.head?, fr.Within T reacts S ∧ fr.calls? d = none) (hd : .amend d ∉ S) :
    Thread.stepReturn (w.behind b n d q) v (st.map (Frame.through b n)) =
      (Thread.stepReturn w v st).map (Moved.behind b n d q) := by
  cases st with
  | nil => rfl
  | cons fr st =>
      obtain ⟨hin, hcalls⟩ := htop fr rfl
      cases fr with
      | resume | attempt | leave | observe => rfl
      | deliver p calls =>
          have hp : p ≠ d := Frame.ne_of_calls? hcalls
          cases calls with
          | cons c calls => rfl
          | nil =>
              refine World.behind_lookup hp fun s => ?_
              rw [Publisher.map_pop]
              cases s.pop with
              | none =>
                  show some (_, _, _) = some (World.behind _ _ _ _ _, _, _)
                  rw [World.behind_setPublisher hp]
                  rfl
              | some x =>
                  obtain ⟨dl, s'⟩ := x
                  show some (_, _, _) = some (World.behind _ _ _ _ _, _, _)
                  rw [World.behind_setPublisher hp]
                  cases dl <;> rfl
      | commit p =>
          have hp : p ≠ d := by
            rintro rfl
            exact hd hin
          refine World.behind_lookup hp fun s => ?_
          rw [Publisher.map_commit]
          cases s.commit v with
          | none => rfl
          | some s' =>
              show some (_, _, _) = some (World.behind _ _ _ _ _, _, _)
              rw [World.behind_setPublisher hp]
              rfl
      | register p id k =>
          have hnew := World.behind_newSubscription (b := b) (n := n) (d := d) (q := q) (w := w)
            (some (.detach p id))
          exact congrArg (fun x => some (x.2, (⟨.run ((k x.1).through b n),
            st.map (Frame.through b n)⟩ : Thread V P σ ε), [])) hnew
      | swapIn c stamp attempts f =>
          show (do let e ← w.cell? c; _) = Option.map _ (do let e ← w.cell? c; _)
          cases w.cell? c with
          | none => rfl
          | some e =>
              simp only [Option.bind_eq_bind, Option.bind_some]
              cases e.swapIn stamp v <;> rfl

omit [BEq V] in
/-- What a panic does to the topmost frame it does in both worlds. -/
theorem stepUnwind_through {text : String} (htop : ∀ fr ∈ st.head?, fr.calls? d = none) :
    Thread.stepUnwind (w.behind b n d q) text (st.map (Frame.through b n)) =
      (Thread.stepUnwind w text st).map (Moved.behind b n d q) := by
  cases st with
  | nil => rfl
  | cons fr st =>
      have hcalls := htop fr rfl
      cases fr with
      | deliver p calls =>
          have hp : p ≠ d := Frame.ne_of_calls? hcalls
          refine World.behind_lookup hp fun s => ?_
          show some (_, _, _) = some (World.behind _ _ _ _ _, _, _)
          rw [World.behind_setPublisher hp]
          rfl
      | _ => rfl

omit [BEq V] in
theorem stepDrain_through (hp : p ≠ d) :
    Thread.stepDrain (w.behind b n d q) p (st.map (Frame.through b n)) =
      (Thread.stepDrain w p st).map (Moved.behind b n d q) := by
  refine World.behind_lookup hp fun s => ?_
  rw [Publisher.map_beginDrain]
  cases s.beginDrain with
  | none => rfl
  | some s' =>
      show some (_, _, _) = some (World.behind _ _ _ _ _, _, _)
      rw [World.behind_setPublisher hp]
      rfl

/-- What a program begins with it does in both worlds, unless it writes the copy or disposes a
subscription of the delegate. -/
theorem stepRun_through {c : Prog V P σ ε} (hin : c.Within T.plain S) (hread : .read d ∉ S)
    (hpublish : .publish d ∉ S) (hamend : .amend d ∉ S) (hfound : w.publisher? d = some q₀)
    (hcopy : ∀ v k, c ≠ .publish b.copy v k)
    (hkeep : ∀ x k, c = .dispose x k → ∀ id, ¬ w.Detaches d id x.index)
    (htop : (Focus.run c).Reaches → ∀ fr ∈ st.head?,
      fr.Within T.plain reacts S ∧ fr.calls? d = none) :
    Thread.stepRun (fun a => (body a).through b n) (w.behind b n d q)
        (st.map (Frame.through b n)) (c.through b n) =
      (Thread.stepRun body w st c).map (Moved.behind b n d q) := by
  cases hin with
  | ret v => exact stepReturn_through (htop trivial) hamend
  | panic | call | attempt | hold => rfl
  | @own S f k =>
      rfl
  | @atom S a k hown hneeds hk =>
      have hperf := World.behind_perform (b := b) (n := n) (q := q) hneeds hread hfound
      show (do let (x, w', es) ← (w.behind b n d q).perform a; _) = _
      rw [hperf, Thread.stepRun]
      cases w.perform a with
      | none => rfl
      | some x => rfl
  | @retry S c f k =>
      show (do let e ← w.cell? c; _) = Option.map _ (do let e ← w.cell? c; _)
      cases w.cell? c <;> rfl
  | @publish S p v k hmem =>
      have hp : p ≠ d := fun he => hpublish (he ▸ hmem)
      -- the copy is the one publisher that is written differently
      have hne : p ≠ b.copy := fun he => hcopy v k (congrArg (Prog.publish · v k) he)
      rw [Prog.through, if_neg hne]
      refine World.behind_lookup hp fun s => ?_
      rw [Publisher.map_commit, Publisher.map_monitors, ← World.behind_enterAll]
      cases s.commit v with
      | none =>
          refine congrArg (fun l => some (_, Thread.mk _ l, _)) ?_
          exact (map_through_leaving s (.resume (fun _ => k) :: st)).symm
      | some s' =>
          show some (_, Thread.mk _ _, _) = some (World.behind _ _ _ _ _, Thread.mk _ _, _)
          rw [World.behind_setPublisher hp]
          refine congrArg (fun l => some (_, Thread.mk _ l, _)) ?_
          exact (map_through_leaving s (.resume (fun _ => k) :: st)).symm
  | @amend S p f k hmem =>
      have hp : p ≠ d := fun he => hamend (he ▸ hmem)
      refine World.behind_lookup hp fun s => ?_
      rw [Publisher.map_monitors, ← World.behind_enterAll]
      refine congrArg (fun l => some (_, Thread.mk _ (.commit p :: l), _)) ?_
      exact (map_through_leaving s (.resume k :: st)).symm
  | @attach S p keeps o k hmem =>
      have hp : p ≠ d := fun he => hread (he ▸ hmem)
      refine World.behind_lookup hp fun s => ?_
      rw [Publisher.map_monitors, ← World.behind_enterAll]
      show some (World.setPublisher _ p (Publisher.enqueue _ (Observer.through b n ⟨o, keeps⟩)),
        Thread.mk _ _, _) = some (World.behind _ _ _ _ _, Thread.mk _ _, _)
      rw [World.behind_setPublisher hp, Publisher.map_enqueue]
      refine congrArg (fun l => some (_, Thread.mk _ l, _)) ?_
      exact (map_through_leaving s (.register p s.nextId k :: st)).symm
  | @onDispose S c k =>
      have hnew := World.behind_newSubscription (b := b) (n := n) (d := d) (q := q) (w := w)
        (some (.run c))
      exact congrArg (fun x => some (x.2, (⟨.run ((k x.1).through b n),
        st.map (Frame.through b n)⟩ : Thread V P σ ε), [])) hnew
  | @dispose S x k =>
      have hsubs : (w.behind b n d q).subscriptions.get? x.index =
          (w.subscriptions.get? x.index).map (Option.map (Teardown.through b n)) :=
        Heap.get?_map _ _ _
      show (do let t ← (w.behind b n d q).subscriptions.get? x.index; _) = _
      rw [hsubs, Thread.stepRun]
      cases hx : w.subscriptions.get? x.index with
      | none => rfl
      | some td =>
          simp only [Option.map_some, Option.bind_eq_bind, Option.bind_some]
          rw [← World.behind_dispose]
          cases td with
          | none => rfl
          | some td =>
              cases td with
              | run c => rfl
              | detach p id =>
                  have hp : p ≠ d := by
                    rintro rfl
                    exact hkeep x k rfl id hx
                  show (do let s ← (w.behind b n d q).publisher? p; _) = _
                  rw [World.behind_publisher? hp]
                  cases hs : w.publisher? p with
                  | none =>
                      simp only [Option.map_none, hs]
                      rfl
                  | some s =>
                      simp only [Option.map_some, hs]
                      show some (World.setPublisher _ p _, _, _) =
                        some (World.behind _ _ _ _ _, _, _)
                      rw [World.behind_setPublisher hp, ← Publisher.map_detach,
                        Publisher.length_map_observers]
                      rfl
  | special h => exact h.elim

/-- As long as a thread neither writes the box nor has to do with the delegate, the two worlds move
in step. -/
theorem step_through (hin : t.focus.Within T.plain S) (hset : t.Settled d) (hread : .read d ∉ S)
    (hpublish : .publish d ∉ S) (hamend : .amend d ∉ S) (hfound : w.publisher? d = some q₀)
    (hcopy : ∀ v k, t.focus ≠ .run (.publish b.copy v k))
    (hkeep : ∀ x k, t.focus = .run (.dispose x k) → ∀ id, ¬ w.Detaches d id x.index)
    (htop : t.focus.Reaches → ∀ fr ∈ t.stack.head?, fr.Within T.plain reacts S) :
    Thread.step (fun a => (body a).through b n) (w.behind b n d q) (t.through b n) =
      (Thread.step body w t).map (Moved.behind b n d q) := by
  have hcalls : ∀ fr ∈ t.stack.head?, fr.calls? d = none := fun fr hfr =>
    List.filterMap_eq_nil_iff.1 hset.due fr (List.mem_of_mem_head? hfr)
  obtain ⟨f, st⟩ := t
  cases f with
  | run c =>
      exact stepRun_through hin hread hpublish hamend hfound
        (fun v k hc => hcopy v k (congrArg _ hc)) (fun x k hc => hkeep x k (congrArg _ hc))
        fun hreach fr hfr => ⟨htop hreach fr hfr, hcalls fr hfr⟩
  | drain p => exact stepDrain_through fun he => hset.focus (congrArg _ he)
  | unwind text => exact stepUnwind_through hcalls

end Step

end ReactiveCells
