import XMPGym.OfferedLoad
import XMPGym.RequestArgs
import XMPGym.ThreePhaseComposable

/-!
# Harnesses and programs on the heap

The functions of `src/test_harness.cpp` and `src/runners.cpp`, and the programs that call them, by
the blocks of the heap that they ask for and give back.  An executor appears as the accesses that
the requests and the filler make to request arguments and to what global pointers point to, in any
order, until all requests have been completed, and as what it does behind its loop.  Contexts are
blocks.  Integer division by zero, an overflow of an `int` and a write past the array of samples on
the stack are faults too; the stack is large enough.
-/

open Ownership

namespace XMPGym.HeapUse

/-! ## Harnesses -/

/-- What a harness asks for besides the request arguments. -/
inductive Part
  | self
  | executorArgs
  | ts (k : ℕ)
  | comps
  | offReqState
  | contexts
  | offloadReqXfer
  | interleavedState
  | gpcoreArgs
  | gpcoreEntries
  deriving DecidableEq

/-- Contexts and the arguments of requests on the core are a block for each request. -/
def Part.count (totalRequests : ℕ) : Part → ℕ
  | .contexts | .gpcoreEntries => totalRequests
  | _ => 1

/-- A harness: what it asks for before and after it allocates the request arguments, and what it
frees before and after it frees them.  The rest is `kept`. -/
structure Harness where
  /-- it computes `total_requests / requests_sampling_interval` -/
  divides : Bool
  /-- behind its loop the executor averages the stamps that `off_args[0]` points to -/
  averages : Bool
  before : List Part
  after : List Part
  freedFirst : List Part
  freedLast : List Part
  kept : List Part
  nodup : (before ++ after).Nodup := by decide
  perm : (before ++ after).Perm (freedFirst ++ (freedLast ++ kept)) := by decide

def mallocParts (totalRequests : ℕ) (ps : List Part) (parts : Part → List ℕ) :
    Prog Globals (Part → List ℕ) :=
  ps.foldlM (fun parts p => do
    let bs ← collect malloc (p.count totalRequests)
    pure (Function.update parts p bs)) parts

def freeParts (ps : List Part) (parts : Part → List ℕ) : Prog Globals Unit :=
  ps.forM fun p => (parts p).forM free

/-- Behind the loop of a breakdown: `off_args[0]->ts0` and so on, and the averages, which are
divided by the number of requests. -/
def averageStamps (totalRequests : ℕ) (offArgs : Table) : Prog Globals Unit := do
  Access.perform offArgs (.args 0)
  if totalRequests = 0 then fault

/-- The executor that a harness calls. -/
def Harness.execute (h : Harness) (totalRequests : ℕ) (offArgs : Table) (accesses : List Access) :
    Prog Globals Unit := do
  accesses.forM (Access.perform offArgs)
  if h.averages then averageStamps totalRequests offArgs

/-- One call of a harness. -/
def Harness.run (h : Harness) (alloc : ℕ → Prog Globals Table) (release : Table → Prog Globals Unit)
    (requestsSamplingInterval totalRequests : ℕ) (accesses : List Access) :
    Prog Globals Unit := do
  if h.divides ∧ requestsSamplingInterval = 0 then fault
  let parts ← mallocParts totalRequests h.before fun _ => []
  let offArgs ← alloc totalRequests
  let parts ← mallocParts totalRequests h.after parts
  h.execute totalRequests offArgs accesses
  freeParts h.freedFirst parts
  release offArgs
  freeParts h.freedLast parts

/-- The `blocking_ax_request_breakdown` that is given an allocator of arguments. -/
def blockingAxRequestBreakdown : Harness where
  divides := false
  averages := true
  before := [.self, .ts 0, .ts 1, .ts 2, .ts 3, .comps]
  after := [.offReqState, .contexts]
  freedFirst := [.contexts, .comps]
  freedLast := [.ts 0, .ts 1, .ts 2, .ts 3, .self]
  kept := [.offReqState]

def gpcoreClosedLoopTest : Harness where
  divides := true
  averages := false
  before := [.self]
  after := [.offReqState, .contexts, .gpcoreArgs, .gpcoreEntries]
  freedFirst := [.contexts]
  freedLast := [.self]
  kept := [.offReqState, .gpcoreArgs, .gpcoreEntries]

def gpcoreRequestBreakdown : Harness where
  divides := false
  averages := true
  before := [.self]
  after := [.offReqState, .contexts, .ts 0, .ts 1, .ts 2, .gpcoreArgs, .gpcoreEntries]
  freedFirst := [.contexts]
  freedLast := [.self]
  kept := [.offReqState, .ts 0, .ts 1, .ts 2, .gpcoreArgs, .gpcoreEntries]

def yieldingSameInterleavedRequestBreakdown : Harness where
  divides := true
  averages := true
  before := [.self, .ts 0, .ts 1, .ts 2, .ts 3, .comps]
  after := [.offloadReqXfer, .offReqState, .interleavedState, .contexts]
  freedFirst := [.contexts, .offloadReqXfer, .comps]
  freedLast := [.self]
  kept := [.offReqState, .interleavedState, .ts 0, .ts 1, .ts 2, .ts 3]

def yieldingRequestOfferedLoad : Harness where
  divides := true
  averages := false
  before := [.self, .comps]
  after := [.offloadReqXfer, .offReqState, .contexts]
  freedFirst := [.contexts, .offloadReqXfer, .comps]
  freedLast := [.self]
  kept := [.offReqState]

def blockingRequestOfferedLoad : Harness where
  divides := true
  averages := false
  before := [.self, .comps]
  after := [.offloadReqXfer, .offReqState, .contexts]
  freedFirst := [.contexts, .offloadReqXfer, .comps]
  freedLast := [.self]
  kept := [.offReqState]

/-- `three_phase_offload_timed_breakdown` with the executor arguments of a breakdown. -/
def threePhaseOffloadTimedBreakdown : Harness where
  divides := false
  averages := true
  before := [.self, .executorArgs, .ts 0, .ts 1, .ts 2, .ts 3, .ts 4, .offReqState, .offloadReqXfer,
    .contexts, .comps]
  after := []
  freedFirst := []
  freedLast := [.ts 0, .ts 1, .ts 2, .ts 3, .ts 4, .comps, .contexts, .offloadReqXfer,
    .offReqState, .executorArgs, .self]
  kept := []

/-- `three_phase_offload_timed_breakdown` with the executor arguments of a throughput test. -/
def threePhaseOffloadTimedThroughput : Harness where
  divides := false
  averages := false
  before := [.self, .executorArgs, .offReqState, .offloadReqXfer, .contexts, .comps]
  after := []
  freedFirst := []
  freedLast := [.contexts, .offloadReqXfer, .offReqState, .comps, .executorArgs, .self]
  kept := []

/-! ## Runners -/

/-- `median_from_array`, on a sorted copy. -/
def medianFromArray : Prog Globals Unit := do
  let sorted ← malloc
  access sorted
  free sorted

/-- `print_mean_median_stdev` and `mean_median_stdev_rps`, which divide by the number of samples. -/
def printStats (size : ℕ) : Prog Globals Unit := do
  if size = 0 then fault
  medianFromArray

section runners

variable (alloc : ℕ → Prog Globals Table) (release : Table → Prog Globals Unit)

/-- The arrays of a runner, which it does not free, and its loop. -/
def runHarness (arrays : ℕ) (h : Harness) (requestsSamplingInterval totalRequests iter : ℕ)
    (accesses : ℕ → List Access) : Prog Globals Unit := do
  let _ ← collect malloc arrays
  (List.range iter).forM fun i =>
    h.run alloc release requestsSamplingInterval totalRequests (accesses i)

/-- A runner that prints what became of three arrays. -/
def runBreakdown (h : Harness) (iter totalRequests : ℕ) (accesses : ℕ → List Access) :
    Prog Globals Unit := do
  runHarness alloc release 3 h totalRequests totalRequests iter accesses
  printStats iter
  printStats iter
  printStats iter

/-- It prints two of its arrays and returns the median of one. -/
def runGpcoreRequestBrkdown (iter totalRequests : ℕ) (accesses : ℕ → List Access) :
    Prog Globals Unit := do
  runHarness alloc release 3 gpcoreRequestBreakdown totalRequests totalRequests iter accesses
  printStats iter
  printStats iter
  medianFromArray

def runBlockingOffloadRequestBrkdown : ℕ → ℕ → (ℕ → List Access) → Prog Globals Unit :=
  runBreakdown alloc release blockingAxRequestBreakdown

def runYieldingInterleavedRequestBrkdown : ℕ → ℕ → (ℕ → List Access) → Prog Globals Unit :=
  runBreakdown alloc release yieldingSameInterleavedRequestBreakdown

/-- The samples are on the stack. -/
def runGpcoreOfferedLoad (iter totalRequests : ℕ) (accesses : ℕ → List Access) :
    Prog Globals Unit := do
  runHarness alloc release 0 gpcoreClosedLoopTest totalRequests totalRequests iter accesses
  printStats iter

def runBlockingOfferedLoad (totalRequests itr : ℕ) (accesses : ℕ → List Access) :
    Prog Globals Unit := do
  runHarness alloc release 0 blockingRequestOfferedLoad totalRequests totalRequests itr accesses
  printStats itr

/-- Call number `i` of `yielding_request_offered_load`, whose executor writes a sample for each
group of requests to the array `exetime` of `iter * num_exe_time_samples_per_run` entries, from
entry `i * num_exe_time_samples_per_run` on. -/
def yieldingOfferedLoadCall (numExeTimeSamplesPerRun totalRequests iter i : ℕ)
    (accesses : List Access) : Prog Globals Unit := do
  if callSizes totalRequests numExeTimeSamplesPerRun i = none then fault
  let requestsSamplingInterval := numRequestsBeforeStamp totalRequests numExeTimeSamplesPerRun
  yieldingRequestOfferedLoad.run alloc release requestsSamplingInterval totalRequests accesses
  if iter * numExeTimeSamplesPerRun <
      i * numExeTimeSamplesPerRun + totalRequests / requestsSamplingInterval then fault

def runYieldingOfferedLoad (numExeTimeSamplesPerRun totalRequests iter : ℕ)
    (accesses : ℕ → List Access) : Prog Globals Unit := do
  if numExeTimeSamplesPerRun = 0 ∨ mulInt iter numExeTimeSamplesPerRun = none then fault
  (List.range iter).forM fun i =>
    yieldingOfferedLoadCall alloc release numExeTimeSamplesPerRun totalRequests iter i (accesses i)
  printStats (iter * numExeTimeSamplesPerRun)

/-- `run_three_phase_offload_timed`; `stats` is what the statistics point to, `prints` how many
arrays are printed. -/
def runThreePhaseOffloadTimed (h : Harness) (stats prints iter totalRequests : ℕ)
    (accesses : ℕ → List Access) : Prog Globals Unit := do
  let _ ← collect malloc 4
  let _ ← malloc
  let arrays ← collect malloc stats
  runHarness alloc release 0 h totalRequests totalRequests iter accesses
  (List.range prints).forM fun _ => printStats iter
  arrays.forM free

end runners

end XMPGym.HeapUse
