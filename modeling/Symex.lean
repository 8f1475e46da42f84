import Symex.Arithmetic
import Symex.AvlMap
import Symex.Expr.Form
import Symex.Program.Builder
import Symex.Program.Script
import Symex.Program.Validation
import Symex.Solver.Enumeration
import Symex.Solver.Front
import Symex.Text
import Symex.Located
import Symex.ExecError.Form
import Symex.Host
import Symex.Memory.Object
import Symex.Memory.Pool
import Symex.Memory.Contents
import Symex.Memory.AddressSpace
import Symex.Memory.Form
import Symex.Random
import Symex.ProcessTree
import Symex.Searcher
import Symex.Watchdog
import Symex.TestCase.Form
import Symex.Config
import Symex.Seed
import Symex.Ieee
import Symex.State.Merge
import Symex.State.Form
import Symex.Executor.Fork
import Symex.Executor.Allocation
import Symex.Executor.Input
import Symex.Executor.Step
import Symex.Executor.Form
import Symex.Solver.Form
import Symex.Host.Form
import Symex.Searcher.Form
import Symex.Smt.Form
import Symex.Proofs.Denotation
import Symex.Proofs.AddedConstraints
import Symex.Proofs.Enumeration
import Symex.Proofs.SearchTrees
import Symex.Proofs.BalancedTrees
import Symex.Proofs.ByteArrays
import Symex.Proofs.Forks
import Symex.Proofs.Pools
import Symex.Proofs.Accesses
import Symex.Proofs.Calls.Pointers
import Symex.Proofs.Feasibility.Runs
import Symex.Proofs.Smt.Scopes
import Symex.Proofs.Smt.Translation
import Symex.Proofs.Smt.Declarations
import Symex.Proofs.Lineage.Replays
import Symex.Proofs.Integrity.Lookups
import Symex.Proofs.Integrity.Shapes
import Symex.Proofs.Integrity.Calls
import Symex.Proofs.Integrity.Instructions
import Symex.Proofs.Integrity.Sessions
import Symex.Proofs.Integrity.Starts
import Symex.Proofs.Integrity.Runs
import Symex.Proofs.Lineage.Ledger
import Symex.Proofs.Lineage.Journals
import Symex.Proofs.Lineage.Allocations
import Symex.Proofs.FoldedTerms
import Symex.Proofs.PartialEvaluation
import Symex.Proofs.Merging.States
import Symex.Proofs.Answers
import Symex.Proofs.Seeding.Requests
import Symex.Proofs.Seeding.Arms
import Symex.Proofs.Heap.Reallocations
import Symex.Proofs.Heap.Sharing
import Symex.Proofs.Walks
import Symex.Proofs.Calls.HostWrites
import Symex.Proofs.Threads.Operations
import Symex.Proofs.Threads.Turns
import Symex.Proofs.Descent.Runs
import Symex.Proofs.Guidance.Runs
import Symex.Proofs.Smt.Framing
import Symex.Proofs.KnownBytes
import Symex.Proofs.RemadeTerms
import Symex.Proofs.NestedAdditions
import Symex.Proofs.ArrayDependence
import Symex.Proofs.Lineage.Searches
import Symex.Proofs.Lineage.Switches
