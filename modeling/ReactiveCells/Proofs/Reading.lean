import ReactiveCells.Node
import ReactiveCells.Proofs.Run

/-!
# Reading — operations that only look

The value of a publisher is read in one move. The handle of a guarded publisher enters the lock
before that and leaves it afterwards, so what is left is what was found, and nothing is told of it.

Main statement: `IsBox.reads`.
-/

namespace ReactiveCells

variable {V P σ ε : Type} [BEq V] {body : P → Prog V P σ ε} {w : World V P σ ε}
  {m : Act V P σ ε V} {v : V} {p : PublisherRef} {s : Publisher V (Observer V P σ ε)}

/-- Whether an operation yields a value and leaves everything as it is. -/
def Act.Reads (body : P → Prog V P σ ε) (w : World V P σ ε) (m : Act V P σ ε V) (v : V) : Prop :=
  ∀ k st, CalmRun body w ⟨.run (m k), st⟩ [] w ⟨.run (k v), st⟩

theorem Act.Reads.current (hs : w.publisher? p = some s) :
    (Act.current p).Reads body w s.current :=
  fun _ _ => .single (Thread.Moves.performed (World.perform_current hs)).step trivial

/-- What reads inside a monitor reads. -/
theorem Act.Reads.hold {monitor : Monitor} (h : m.Reads body (w.enter monitor) v) :
    (Act.hold monitor m).Reads body w v := by
  intro k st
  have hinside := h .ret (.leave monitor :: .resume k :: st)
  have hleft : Thread.Moves body (w.enter monitor)
      ⟨.run (.ret v), .leave monitor :: .resume k :: st⟩ [] _ ⟨.run (.ret v), .resume k :: st⟩ :=
    .left
  rw [World.leave_enter] at hleft
  exact .cons Thread.Moves.held.step trivial
    (hinside.trans (.cons hleft.step trivial (.single Thread.Moves.resumed.step trivial)))

/-- A function of what is read. -/
theorem Act.Reads.map (h : m.Reads body w v) (g : V → V) : (g <$> m).Reads body w (g v) :=
  fun k st => h (fun v => k (g v)) st

/-- The handle of a publisher reads the value held. -/
theorem Node.IsBox.reads {b : Node (Routine V P σ ε) .reactive} (hb : b.IsBox p)
    (hs : w.publisher? p = some s) : b.get.Reads body w s.current := by
  cases hb with
  | rx => exact .current hs
  | rxGuarded l =>
      have hinside : (w.enter (.lock l)).publisher? p = some s := hs
      exact .hold (.current hinside)

end ReactiveCells
