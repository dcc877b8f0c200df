import XMPGym.Lib.Transition
import XMPGym.Lib.DeadlineQueue
import XMPGym.EmulAx
import XMPGym.EmulQueue
import XMPGym.Offload
import XMPGym.Handshake
import XMPGym.StartUp
import XMPGym.Lib.Handles
import XMPGym.Lib.InOrder
import XMPGym.Fiber
import XMPGym.Dispatch
import XMPGym.Requests
import XMPGym.Board
import XMPGym.Records
import XMPGym.RequestExecutors
import XMPGym.ClosedLoop
import XMPGym.ThreePhaseOrder
import XMPGym.Sampling
import XMPGym.SerialLoop
import XMPGym.Filler
import XMPGym.FailedOffload
import XMPGym.StaleHandles
import XMPGym.Abandoned
import XMPGym.Allocators
import XMPGym.BlockingLoop
import XMPGym.Phases
import XMPGym.SwitchToFill
import XMPGym.CpuRequests
import XMPGym.FurcHash
import XMPGym.GpcoreCompress
import XMPGym.OfferedLoad
import XMPGym.PhaseStamps
import XMPGym.StageChain
import XMPGym.SubmitRetries
import XMPGym.Stats
import XMPGym.GatherScatter
import XMPGym.DecompAndScatter
import XMPGym.Lib.Links
import XMPGym.PostingLists
import XMPGym.Lib.SortedInter
import XMPGym.SimpleRanker
import XMPGym.MurmurHash
import XMPGym.Lib.Cycle
import XMPGym.PointerChase
import XMPGym.OffloadCount
import XMPGym.Lib.WriteLog
import XMPGym.PayloadGen
import XMPGym.Lib.Pages
import XMPGym.Prefault
import XMPGym.Lib.FairRun
import XMPGym.Progress
import XMPGym.ClosedExit
import XMPGym.SerialExit
import XMPGym.OffloadProgress
import XMPGym.CoreLoop
import XMPGym.BlockingExit
import XMPGym.Scheduling
import XMPGym.Outline
import XMPGym.TwoPhase
import XMPGym.TwoPhaseResults
import XMPGym.MemfillGather
import XMPGym.TwoPhaseStamps
import XMPGym.Lib.Ownership
import XMPGym.RequestArgs
import XMPGym.Lifecycle
import XMPGym.Harness
import XMPGym.HarnessBlocks
import XMPGym.Programs
import XMPGym.ProgramHeap
