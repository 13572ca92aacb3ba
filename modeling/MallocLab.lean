import MallocLab.Representation
import MallocLab.HeapGrowth
import MallocLab.Allocation
import MallocLab.RequestArithmetic
import MallocLab.Reallocation
import MallocLab.Traversal
import MallocLab.Runs
import MallocLab.HeapSoundness
import MallocLab.Failure
import MallocLab.NullRealloc
import MallocLab.LiveBlocks
import MallocLab.DataPreservation
import MallocLab.Determinism
import MallocLab.RepeatedFrees
import MallocLab.BreakFrame
import MallocLab.RequestSizes
import MallocLab.FirstFit
import MallocLab.HeapExtension
import MallocLab.MergedFrees
import MallocLab.OverlapDetection
import MallocLab.DataCheck
import MallocLab.TraceBookkeeping
import MallocLab.HeapExtents
import MallocLab.Replays
import MallocLab.TraceAgreement
import MallocLab.Packing
import MallocLab.Utilization
import MallocLab.Repl
import MallocLab.ReplHoldings
import MallocLab.ReplInvariant
import MallocLab.ReplCommands
import MallocLab.ReplRealloc
import MallocLab.ReplSoundness
import MallocLab.ListRefinement
import MallocLab.TagRoundTrip
import MallocLab.NegativeSizes
import MallocLab.WellFormedTraces
import MallocLab.MemoryBudget
import MallocLab.PayloadStore
import MallocLab.TraceVerdict
import MallocLab.AffordableTraces
import MallocLab.GrownBlocks
import MallocLab.MdriverMain
import MallocLab.TraceReports
import MallocLab.TraceScripts
import MallocLab.PrintedTraces
import MallocLab.CoalescingTrace
import MallocLab.TraceBalancing
import MallocLab.BalancedTraces
import MallocLab.BalancedHeaps
import MallocLab.RandomTraces
import MallocLab.GuaranteedUtilization
import MallocLab.ReplText
import MallocLab.ReplLines
import MallocLab.TypedSessions
import MallocLab.ReplDisplay
import MallocLab.ReplSessions
