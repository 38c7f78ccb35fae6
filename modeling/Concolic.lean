import Concolic.Main
import Concolic.Proofs.Search
import Concolic.Proofs.Dominance
import Concolic.Proofs.History
import Concolic.Proofs.Sweep
import Concolic.Proofs.Routes
import Concolic.Proofs.Closing
import Concolic.Proofs.Arrival
import Concolic.Proofs.Merging
import Concolic.Proofs.Recording
import Concolic.Proofs.Provenance
import Concolic.Proofs.Pruning
import Concolic.Proofs.Layers
import Concolic.Proofs.Frontier
import Concolic.Proofs.Persistence
import Concolic.Proofs.Repetition
import Concolic.Proofs.Reordering
import Concolic.Proofs.CleanDecisions
import Concolic.Proofs.Refusal
import Concolic.Atlas.Strict
import Concolic.Proofs.Lookups
import Concolic.Proofs.DominatorTree
import Concolic.Proofs.Limits
import Concolic.Proofs.Thresholds
import Concolic.Proofs.Legibility
import Concolic.Proofs.Likeness
import Concolic.Proofs.Forks
import Concolic.Proofs.SampleProgram
import Concolic.Proofs.Siblings
import Concolic.Logbook
import Concolic.Proofs.Bookkeeping
import Concolic.FlowGraph.Moments
import Concolic.FlowGraph.WordSweep
import Concolic.Proofs.Moments
import Concolic.Proofs.Settlement
import Concolic.Proofs.Judging
import Concolic.Gazetteer
