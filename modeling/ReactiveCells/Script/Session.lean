import ReactiveCells.Machine
import ReactiveCells.Script.Perform

/-!
# Sessions — running a script from its first step to its last

The steps of a script run one after another in one world. A step that panics leaves the world as
the panic left it, and the next step runs on. The report of a step is its answer and what was
logged on the way.
-/

namespace ReactiveCells.Script

/-- An entry of the log of a step. -/
inductive LogEntry where
  | observed (name : String) (v : Value)
  | tapped (tag : String) (v : Value)
  | nested (name : String) (answer : Answer)
  | message (level : Level) (text : String)

/-- Something that a step leaves in its report. -/
inductive Trail where
  | logged (entry : LogEntry)
  | answered (answer : Answer)

/-- What came of a step. -/
structure Report where
  answer : Answer
  log : List LogEntry

/-- The world of a script. -/
abbrev ScriptWorld := World Value Procedure Store Note

/-- A step of a script that is being performed. -/
abbrev ScriptThread := Thread Value Procedure Store Note

/-- Whether a publisher is not gone: a name, a step, a delivery in progress or the observer of
another publisher keeps it. -/
def isAlive (w : ScriptWorld) (t : ScriptThread) (p : PublisherRef) : Bool :=
  (w.survivors (w.store.kept ++ t.keeps)).contains p

/-- The log entry of a message. -/
def LogEntry.ofMessage (m : Message) : LogEntry :=
  .message m.level m.text

/-- What an event of a run leaves in the report, seen from the state it happened in. Messages are
logged only on request, and a publisher that is gone reports nothing. -/
def Trail.ofEvent? (traced : Bool) (w : ScriptWorld) (t : ScriptThread) :
    Event Value Note → Option Trail
  | .note (.observed name v) => some (.logged (.observed name v))
  | .note (.tapped tag v) => some (.logged (.tapped tag v))
  | .note (.nested name a) => some (.logged (.nested name a))
  | .note (.finished a) => some (.answered a)
  | .message m => if traced then some (.logged (.ofMessage m)) else none
  | .detached p id observers =>
      if traced && isAlive w t p then
        some (.logged (.ofMessage (.observerUnsubscribed id observers)))
      else none
  | .committed .. | .queued .. | .called .. | .disposed _ => none

/-- The log entry on a trail. -/
def Trail.entry? : Trail → Option LogEntry
  | .logged entry => some entry
  | .answered _ => none

/-- The answer on a trail. -/
def Trail.answer? : Trail → Option Answer
  | .logged _ => none
  | .answered a => some a

/-- The program of a step of the script itself. Whatever a panic left in use before is given up. -/
def stepProgram (s : Step) : Code := Act.prog do
  let _ ← Act.own fun s => { s with inUse := [] }
  Act.tell (.finished (← performStep none s))
  return default

/-- How many moves of the machine a step may take. -/
def moveLimit : Nat := 1000000000000

/-- The answer to a step that takes too many moves. -/
def exhausted : Answer := .panicked "budget exceeded"

/-- Runs one step. -/
def runStep (traced : Bool) (w : ScriptWorld) (s : Step) : Report × ScriptWorld :=
  let (w', t, past) :=
    Thread.run Procedure.body (Trail.ofEvent? traced) moveLimit w (.start (stepProgram s)) []
  let answer :=
    match t.outcome? with
    | some (.panicked text) => .panicked text
    | some (.returned _) => (past.findSome? Trail.answer?).getD exhausted
    | none => exhausted
  ({ answer, log := past.reverse.filterMap Trail.entry? }, w')

/-- Runs steps in order. -/
def runFrom (traced : Bool) (w : ScriptWorld) : List Step → List Report
  | [] => []
  | s :: rest =>
      let (report, w') := runStep traced w s
      report :: runFrom traced w' rest

/-- Runs a script. -/
def runScript (traced : Bool) (steps : List Step) : List Report :=
  runFrom traced (World.new Store.empty) steps

/-- Resolves a list of values by a policy. -/
def resolveValues (policy : DuplicatePolicy) (vs : List Value) :
    Except DuplicateValue (List Value) :=
  policy.resolve vs

end ReactiveCells.Script
