import ClauseLearning.CommandLine
import ClauseLearning.Files.Memory
import ClauseLearning.Instances
import ClauseLearning.Proofs.Trail.WellFormed
import ClauseLearning.Proofs.Trail.Truth
import ClauseLearning.Proofs.Trail.Reasons
import ClauseLearning.Proofs.Trail.Levels
import ClauseLearning.Proofs.Trail.Changes
import ClauseLearning.Proofs.Trail.Undoing
import ClauseLearning.Proofs.Propagation.Closure
import ClauseLearning.Proofs.Propagation.Scan
import ClauseLearning.Proofs.Propagation.Watches
import ClauseLearning.Proofs.Propagation.Guards
import ClauseLearning.Proofs.Propagation.Lists
import ClauseLearning.Proofs.Propagation.Upkeep
import ClauseLearning.Proofs.Propagation.Compaction
import ClauseLearning.Proofs.Propagation.Entries
import ClauseLearning.Proofs.Propagation.Calls
import ClauseLearning.Proofs.Propagation.Visits
import ClauseLearning.Proofs.Propagation.Watching
import ClauseLearning.Proofs.Propagation.Resuming
import ClauseLearning.Proofs.Conflict.Resolution
import ClauseLearning.Proofs.Conflict.Backjump
import ClauseLearning.Proofs.Engine.LearnedStore
import ClauseLearning.Proofs.Engine.Session
import ClauseLearning.Proofs.Engine.Transitions
import ClauseLearning.Proofs.Engine.Invariant
import ClauseLearning.Proofs.Engine.Termination
import ClauseLearning.Proofs.Engine.Growth
import ClauseLearning.Proofs.Engine.Irredundance
import ClauseLearning.Proofs.Engine.WatchInvariant
import ClauseLearning.Proofs.Engine.WatchLists
import ClauseLearning.Proofs.Engine.Policies
import ClauseLearning.Proofs.Engine.Correctness
import ClauseLearning.Proofs.Engine.FirstModel
import ClauseLearning.Proofs.Engine.Fixpoints
import ClauseLearning.Proofs.Engine.Conflicts
import ClauseLearning.Proofs.Engine.Implications
import ClauseLearning.Proofs.Engine.ImplicationPoints
import ClauseLearning.Proofs.Engine.ResolutionLoop
import ClauseLearning.Proofs.Engine.Faults
import ClauseLearning.Proofs.Engine.History
import ClauseLearning.Proofs.Engine.Replay
import ClauseLearning.Proofs.Engine.Counters
import ClauseLearning.Proofs.Dimacs.Acceptance
import ClauseLearning.Proofs.Search.Exhaustive
import ClauseLearning.Proofs.Logic.Grammar
import ClauseLearning.Proofs.Logic.Flattening
import ClauseLearning.Proofs.Logic.Clauses
import ClauseLearning.Proofs.Logic.Pigeonhole
import ClauseLearning.Proofs.Logic.Reassociation
import ClauseLearning.Proofs.Files.Collecting
import ClauseLearning.Proofs.Grading.Reports
