import ProjectArchive.Library.Exec
import ProjectArchive.Library.SnoopLine
import ProjectArchive.Library.SnoopInvariants
import ProjectArchive.Library.SnoopSharing
import ProjectArchive.Library.SnoopPrivate
import ProjectArchive.Library.Loop
import ProjectArchive.Library.Sweep
import ProjectArchive.Library.DepthFirst
import ProjectArchive.Library.Skipping
import ProjectArchive.Library.LinkedList
import ProjectArchive.Library.ProgramOrder
import ProjectArchive.Library.MergeSort
import ProjectArchive.Library.Block
import ProjectArchive.Library.Lru
import ProjectArchive.Library.Gshare
import ProjectArchive.Library.AtomicMemory
import ProjectArchive.Library.DirectMapped
import ProjectArchive.Library.Paging
import ProjectArchive.Library.OneWay
import ProjectArchive.Coherence.Message
import ProjectArchive.Coherence.Bus
import ProjectArchive.Coherence.Protocol
import ProjectArchive.Coherence.Table
import ProjectArchive.Coherence.MI
import ProjectArchive.Coherence.MSI
import ProjectArchive.Coherence.MESI
import ProjectArchive.Coherence.MOSI
import ProjectArchive.Coherence.MOESIF
import ProjectArchive.Coherence.Simulator
import ProjectArchive.Coherence.History
import ProjectArchive.Coherence.Tick
import ProjectArchive.Coherence.Refinement
import ProjectArchive.Coherence.Stage
import ProjectArchive.Coherence.Invariant
import ProjectArchive.Coherence.Transaction
import ProjectArchive.Coherence.Weight
import ProjectArchive.Coherence.Cycle
import ProjectArchive.Coherence.Run
import ProjectArchive.Coherence.Compatibility
import ProjectArchive.Coherence.Routing
import ProjectArchive.Coherence.Correspondence
import ProjectArchive.Coherence.Moves
import ProjectArchive.Coherence.Statistics
import ProjectArchive.Coherence.PrivateLines
import ProjectArchive.Coherence.CacheSteps
import ProjectArchive.Coherence.Consistency
import ProjectArchive.Coherence.Waiting
import ProjectArchive.Queens.Util
import ProjectArchive.Queens.BackTrackSearch
import ProjectArchive.Queens.Existence
import ProjectArchive.Queens.BtFc
import ProjectArchive.Queens.Explored
import ProjectArchive.Queens.Dvo
import ProjectArchive.Queens.Ranking
import ProjectArchive.Queens.Rounds
import ProjectArchive.CacheSim.Refinement
import ProjectArchive.CacheSim.Inclusion
import ProjectArchive.CacheSim.StackInvariant
import ProjectArchive.CacheSim.WriteBacks
import ProjectArchive.CacheSim.Competitive
import ProjectArchive.CacheSim.OneWay
import ProjectArchive.Scheduler.ReadyQueue
import ProjectArchive.Scheduler.Student
import ProjectArchive.Scheduler.Places
import ProjectArchive.Scheduler.Handlers
import ProjectArchive.Scheduler.RoundRobin
import ProjectArchive.Scheduler.Preemption
import ProjectArchive.Scheduler.LongestFirst
import ProjectArchive.Scheduler.Timers
import ProjectArchive.Scheduler.Signals
import ProjectArchive.Scheduler.StudentLock
import ProjectArchive.Scheduler.OsSim
import ProjectArchive.Scheduler.Events
import ProjectArchive.Scheduler.Outline
import ProjectArchive.Scheduler.Follows
import ProjectArchive.Scheduler.Process
import ProjectArchive.Scheduler.Created
import ProjectArchive.Scheduler.Requests
import ProjectArchive.Scheduler.Exit
import ProjectArchive.Scheduler.Awake
import ProjectArchive.Scheduler.Deadlock
import ProjectArchive.Tomasulo.Data
import ProjectArchive.Tomasulo.Stages
import ProjectArchive.Tomasulo.Run
import ProjectArchive.Tomasulo.Rounds
import ProjectArchive.Tomasulo.Books
import ProjectArchive.Tomasulo.Passes
import ProjectArchive.Tomasulo.Ledger
import ProjectArchive.Tomasulo.Steps
import ProjectArchive.Tomasulo.Marks
import ProjectArchive.Tomasulo.Renaming
import ProjectArchive.Tomasulo.SortedQueue
import ProjectArchive.Tomasulo.Comparator
import ProjectArchive.Tomasulo.MemoryOrder
import ProjectArchive.Tomasulo.Units
import ProjectArchive.Tomasulo.WorkConserving
import ProjectArchive.Tomasulo.UnitRecords
import ProjectArchive.Tomasulo.Times
import ProjectArchive.Tomasulo.Progress
import ProjectArchive.Tomasulo.BranchStall
import ProjectArchive.Tomasulo.Termination
import ProjectArchive.Tomasulo.Latency
import ProjectArchive.Tomasulo.Bounds
import ProjectArchive.Tomasulo.Counters
import ProjectArchive.Tomasulo.Values
import ProjectArchive.Tomasulo.Predictor
import ProjectArchive.Tomasulo.Statistics
import ProjectArchive.Tomasulo.Timeline
import ProjectArchive.Tomasulo.Table
import ProjectArchive.Tomasulo.Makespan
import ProjectArchive.Tomasulo.Meaning
