import ReactiveCells.Breaker
import ReactiveCells.Cell
import ReactiveCells.Derived
import ReactiveCells.Duplicates
import ReactiveCells.Enforcer
import ReactiveCells.Heap
import ReactiveCells.Lock.Monitor
import ReactiveCells.Lock.Ordered
import ReactiveCells.Lock.Taking
import ReactiveCells.Machine
import ReactiveCells.Message
import ReactiveCells.Node
import ReactiveCells.OrderedSet
import ReactiveCells.Program
import ReactiveCells.Publisher
import ReactiveCells.Recorder
import ReactiveCells.Registry
import ReactiveCells.Retention
import ReactiveCells.Script.Computation
import ReactiveCells.Script.Describe
import ReactiveCells.Script.Perform
import ReactiveCells.Script.Session
import ReactiveCells.Script.Step
import ReactiveCells.Script.Store
import ReactiveCells.Script.Value
import ReactiveCells.World
import ReactiveCells.Proofs.Run
import ReactiveCells.Proofs.View
import ReactiveCells.Proofs.Discipline
import ReactiveCells.Proofs.Conservation
import ReactiveCells.Proofs.Reading
import ReactiveCells.Proofs.Delivery
import ReactiveCells.Proofs.Enforcement
import ReactiveCells.Proofs.Compatible
import ReactiveCells.Proofs.Confluence
import ReactiveCells.Proofs.Client
import ReactiveCells.Proofs.Mirroring
import ReactiveCells.Proofs.Scope
import ReactiveCells.Proofs.Soon
import ReactiveCells.Proofs.Holders
import ReactiveCells.Proofs.Toggling
import ReactiveCells.Proofs.Isolation
import ReactiveCells.Proofs.Closing
import ReactiveCells.Proofs.Through
import ReactiveCells.Proofs.WriteBack
import ReactiveCells.Proofs.Towers
import ReactiveCells.Proofs.Recipes
import ReactiveCells.Proofs.Following
import ReactiveCells.Proofs.Connecting
import ReactiveCells.Proofs.Settling
import ReactiveCells.Proofs.History
import ReactiveCells.Proofs.Returning
import ReactiveCells.Proofs.Lapses
import ReactiveCells.Proofs.Handles
import ReactiveCells.Proofs.Facade
import ReactiveCells.Proofs.Tasks
import ReactiveCells.Proofs.Twins
import ReactiveCells.Proofs.Lockstep
import ReactiveCells.Proofs.Bijection
import ReactiveCells.Proofs.Crowd
import ReactiveCells.Proofs.Deadlock
import ReactiveCells.Proofs.Handover
import ReactiveCells.Proofs.Contention
import ReactiveCells.Proofs.Listening
import ReactiveCells.Proofs.Fusion
import ReactiveCells.Proofs.Comparing
import ReactiveCells.Proofs.Sequencing
import ReactiveCells.Proofs.Holding
import ReactiveCells.Proofs.Kinds
import ReactiveCells.Proofs.Contracts
import ReactiveCells.Proofs.Distinct
import ReactiveCells.Proofs.Refusing
import ReactiveCells.Proofs.Canonical
import ReactiveCells.Proofs.Occurrences
import ReactiveCells.Proofs.Retrying
import ReactiveCells.Proofs.Disposal
import ReactiveCells.Proofs.Recovering
import ReactiveCells.Proofs.Unharmed
import ReactiveCells.Proofs.Sheltering
import ReactiveCells.Proofs.Keeping
import ReactiveCells.Proofs.Echoing
import ReactiveCells.Proofs.Recording
import ReactiveCells.Proofs.Agreeing
import ReactiveCells.Proofs.Representation
import ReactiveCells.Proofs.Teardowns
import ReactiveCells.Proofs.Combining
