import XMPGym.Outline

/-!
# Two-phase requests

The requests that have the device compute one of their phases and compute the others themselves, or
compute all of them: decompress and hash, decompress and scatter, copy and compute, fill and gather,
and those of the emulated accelerator.  Their bodies are made of the same statements, on the buffers
`B` of a request, its completion record and its job on a device that may serve jobs in any order and
may fail.
-/

open Relation Transition

namespace XMPGym.TwoPhase

variable {B F : Type*}

/-! ## Statements -/

/-- The job of a request on the device. -/
inductive Job where
  | idle
  /-- the descriptor is in the work queue -/
  | queued
  /-- the buffers are written, the record is not -/
  | written
  deriving DecidableEq, Repr

/-- The memory that the requests share with the device.  The descriptor of a request names its own
buffers and its own record, `comps[i]`. -/
structure Mem (B : Type*) where
  buffers : ℕ → B
  /-- `comps[i].status` -/
  status : ℕ → ℕ
  jobs : ℕ → Job
  /-- whether the work queue takes another descriptor -/
  room : Bool
  clock : ℕ
  /-- `ts0[id]` and so on -/
  stamps : ℕ → ℕ → ℕ

/-- The functions of the phases, on the buffers of a request. -/
structure Kernels (B : Type*) where
  /-- what the core makes of the buffers first, if there is such a phase -/
  pre : B → B
  /-- what the device makes of the buffers -/
  ax : B → B
  /-- the same, as the core computes it -/
  axFunc : B → B
  /-- what the core makes of them then -/
  work : B → B

/-- The statements of the requests. -/
inductive Stmt where
  /-- `ts[id] = sampleCoderdtsc()` -/
  | stamp (ts : ℕ)
  /-- a local variable is set to `sampleCoderdtsc()` -/
  | read (ts : ℕ)
  /-- `ts[id]` is set to the local variable -/
  | store (ts : ℕ)
  /-- `prepare_..._desc_with_preallocated_comp`, which clears the record -/
  | prep
  /-- `if (!dsa_submit(dsa, desc)) return`,
  `if(submit_offload(comp, dst_payload) == STATUS_FAIL) return` -/
  | submit
  /-- `blocking_dsa_submit(dsa, desc)`, `blocking_iaa_submit(iaa, desc)` -/
  | blockingSubmit
  /-- `spin_on(comp)`, or the same with a pause -/
  | spin
  /-- `if(comp->status != IAX_COMP_SUCCESS) return` -/
  | check
  /-- the core's first phase -/
  | pre
  /-- the device's phase, on the core -/
  | axFunc
  /-- the core's last phase -/
  | work
  /-- a list or a chain of pointers is gone through -/
  | visit
  /-- `requests_completed ++` -/
  | completed
  /-- `fcontext_swap(arg.prev_context, NULL)` -/
  | swap
  deriving DecidableEq, Repr

/-- `ts[i]` is set to `t`. -/
def Mem.stamp (m : Mem B) (ts i t : ℕ) : Mem B :=
  { m with stamps := Function.update m.stamps ts (Function.update (m.stamps ts) i t) }

/-- A phase of request `i` on the core. -/
def Mem.compute (m : Mem B) (f : B → B) (i : ℕ) : Mem B :=
  { m with buffers := Function.update m.buffers i (f (m.buffers i)) }

/-- What a statement does in request `i`; its locals are the time stamps it has read. -/
def Stmt.instr (k : Kernels B) (i : ℕ) : Stmt → Instr (ℕ → ℕ) (Mem B)
  | .stamp ts => .op fun l m => (l, m.stamp ts i m.clock, .next)
  | .read ts => .op fun l m => (Function.update l ts m.clock, m, .next)
  | .store ts => .op fun l m => (l, m.stamp ts i (l ts), .next)
  | .prep => .op fun l m =>
      (l, { m with status := Function.update m.status i compStatusPending }, .next)
  | .submit => .op fun l m =>
      if m.room then (l, { m with jobs := Function.update m.jobs i .queued }, .next)
      else (l, m, .ret)
  | .blockingSubmit => .op fun l m =>
      if m.room then (l, { m with jobs := Function.update m.jobs i .queued }, .next)
      else (l, m, .stay)
  | .spin => .op fun l m => (l, m, if m.status i = compStatusPending then .stay else .next)
  | .check => .op fun l m => (l, m, if m.status i = compStatusCompleted then .next else .ret)
  | .pre => .op fun l m => (l, m.compute k.pre i, .next)
  | .axFunc => .op fun l m => (l, m.compute k.axFunc i, .next)
  | .work => .op fun l m => (l, m.compute k.work i, .next)
  | .visit => .op fun l m => (l, m, .next)
  | .completed => .completed
  | .swap => .swap

/-! ## The device -/

/-- What the device does on its own. -/
inductive DeviceMove (B : Type*) where
  | writes (c : ℕ)
  | completes (c : ℕ)
  /-- a job ends with an error, and with anything in the buffers of its request -/
  | fails (c st : ℕ) (b : B)
  | room (b : Bool)
  | tick

/-- A move of the device, where it is possible. -/
def Mem.move (k : Kernels B) (m : Mem B) : DeviceMove B → Option (Mem B)
  | .writes c =>
      if m.jobs c = .queued then
        some { m.compute k.ax c with jobs := Function.update m.jobs c .written }
      else none
  | .completes c =>
      if m.jobs c = .written then
        some { m with
          status := Function.update m.status c compStatusCompleted
          jobs := Function.update m.jobs c .idle }
      else none
  | .fails c st b =>
      if m.jobs c ≠ .idle ∧ st ≠ compStatusPending ∧ st ≠ compStatusCompleted then
        some { m with
          buffers := Function.update m.buffers c b
          status := Function.update m.status c st
          jobs := Function.update m.jobs c .idle }
      else none
  | .room b => some { m with room := b }
  | .tick => some { m with clock := m.clock + 1 }

/-- The device as hardware. -/
def Mem.hardware (k : Kernels B) : Hardware (Mem B) :=
  ⟨Mem.status, Mem.clock, fun m m' => ∃ x, m.move k x = some m'⟩

/-- No job is under way and no record is written. -/
structure Mem.Quiet (m : Mem B) : Prop where
  idle : ∀ c, m.jobs c = .idle
  pending : ∀ c, m.status c = compStatusPending

/-! ## The requests -/

/-- The statement of a stamp, in a request that takes stamps. -/
def stampIf (timed : Bool) (ts : ℕ) : List Stmt := if timed then [.stamp ts] else []

/-- The statements that hand a job to the device: the descriptor is filled in, and the submission
is repeated until the queue takes it. -/
def offload : List Stmt := [.prep, .blockingSubmit]

/-- The statements that try to do so once. -/
def tryOffload : List Stmt := [.prep, .submit]

/-- A request that yields while the device computes. -/
def yielding (timed : Bool) (send check : List Stmt) : List Stmt :=
  stampIf timed 0 ++ send ++ stampIf timed 1 ++ [.swap] ++ check ++ stampIf timed 2 ++ [.work] ++
    stampIf timed 3 ++ [.completed, .swap]

/-- A request that waits while the device computes. -/
def blocking (timed : Bool) (send check : List Stmt) : List Stmt :=
  stampIf timed 0 ++ send ++ stampIf timed 1 ++ [.spin] ++ check ++ stampIf timed 2 ++ [.work] ++
    stampIf timed 3 ++ [.completed, .swap]

/-- A request that the core serves by itself. -/
def cpu (timed : Bool) : List Stmt :=
  stampIf timed 0 ++ [.axFunc] ++ stampIf timed 1 ++ [.work] ++ stampIf timed 2 ++
    [.completed, .swap]

/-! ### `src/decompress_and_hash_request.cpp` -/

/-- `yielding_decompress_and_hash_request_stamped` -/
def yieldingDecompressAndHashRequestStamped : List Stmt := yielding true offload []

/-- `yielding_decompress_and_hash_request` -/
def yieldingDecompressAndHashRequest : List Stmt := yielding false offload []

/-- `blocking_decompress_and_hash_request_stamped` -/
def blockingDecompressAndHashRequestStamped : List Stmt := blocking true offload []

/-- `blocking_decompress_and_hash_request` -/
def blockingDecompressAndHashRequest : List Stmt := blocking false offload []

/-- `cpu_decompress_and_hash_stamped` -/
def cpuDecompressAndHashStamped : List Stmt := cpu true

/-- `cpu_decompress_and_hash` -/
def cpuDecompressAndHash : List Stmt := cpu false

/-! ### `src/decompress_and_scatter_request.cpp` -/

/-- `yielding_decomp_and_scatter_stamped` -/
def yieldingDecompAndScatterStamped : List Stmt := yielding true offload []

/-- `yielding_decomp_and_scatter` -/
def yieldingDecompAndScatter : List Stmt := yielding false offload []

/-- `blocking_decomp_and_scatter_request` -/
def blockingDecompAndScatterRequest : List Stmt := blocking false offload []

/-- `blocking_decomp_and_scatter_request_stamped`, which keeps its stamps in local variables until
it has counted itself. -/
def blockingDecompAndScatterRequestStamped : List Stmt :=
  [.read 0, .prep, .blockingSubmit, .read 1, .spin, .read 2, .work, .read 3, .completed, .store 0,
    .store 1, .store 2, .store 3, .swap]

/-- `cpu_decomp_and_scatter` -/
def cpuDecompAndScatter : List Stmt := cpu false

/-- `cpu_decomp_and_scatter_stamped` -/
def cpuDecompAndScatterStamped : List Stmt := cpu true

/-! ### `src/memcpy_dp_request.cpp` -/

/-- `yielding_memcpy_and_compute_stamped` -/
def yieldingMemcpyAndComputeStamped : List Stmt := yielding true offload []

/-- `yielding_memcpy_and_compute` -/
def yieldingMemcpyAndCompute : List Stmt := yielding false offload []

/-- `blocking_memcpy_and_compute_stamped` -/
def blockingMemcpyAndComputeStamped : List Stmt := blocking true offload []

/-- `blocking_memcpy_and_compute` -/
def blockingMemcpyAndCompute : List Stmt := blocking false offload [.check]

/-- `cpu_memcpy_and_compute_stamped` -/
def cpuMemcpyAndComputeStamped : List Stmt := cpu true

/-- `cpu_memcpy_and_compute` -/
def cpuMemcpyAndCompute : List Stmt := cpu false

/-! ### `src/memfill_gather.cpp` and `scan_and_gather.cpp` -/

/-- `yielding_memcpy_and_compute`, with a fill -/
def yieldingMemfillAndCompute : List Stmt := yielding false tryOffload [.check]

/-- `blocking_memcpy_and_compute_stamped`, with a fill -/
def blockingMemfillAndComputeStamped : List Stmt := blocking true tryOffload [.check]

/-- `blocking_memcpy_and_compute`, with a fill -/
def blockingMemfillAndCompute : List Stmt := blocking false tryOffload [.check]

/-- `cpu_memcpy_and_compute_stamped`, with a fill -/
def cpuMemfillAndComputeStamped : List Stmt := cpu true

/-- `cpu_memcpy_and_compute`, with a fill -/
def cpuMemfillAndCompute : List Stmt := cpu false

/-! ### `src/router_requests.cpp` -/

/-- `yielding_router_request_stamp` -/
def yieldingRouterRequestStamp : List Stmt := yielding true [.submit] []

/-- `yielding_router_request` -/
def yieldingRouterRequest : List Stmt := yielding false [.submit] []

/-- `blocking_router_request_stamp` -/
def blockingRouterRequestStamp : List Stmt := blocking true [.submit] []

/-- `blocking_router_request` -/
def blockingRouterRequest : List Stmt := blocking false [.submit] []

/-- `cpu_router_request_stamp` -/
def cpuRouterRequestStamp : List Stmt := cpu true

/-- `cpu_router_request` -/
def cpuRouterRequest : List Stmt := cpu false

/-! ### `src/walker_requests.cpp` -/

/-- `yielding_simple_ranker_request_stamped` -/
def yieldingSimpleRankerRequestStamped : List Stmt := yielding true [.submit] []

/-- `yielding_simple_ranker_request` -/
def yieldingSimpleRankerRequest : List Stmt := yielding false [.submit] []

/-- `blocking_simple_ranker_request_stamped` -/
def blockingSimpleRankerRequestStamped : List Stmt := blocking true [.submit] []

/-- `blocking_simple_ranker_request` -/
def blockingSimpleRankerRequest : List Stmt := blocking false [.submit] []

/-- `cpu_simple_ranker_request_stamped` -/
def cpuSimpleRankerRequestStamped : List Stmt := cpu true

/-- `cpu_simple_ranker_request` -/
def cpuSimpleRankerRequest : List Stmt := cpu false

/-! ### `three_phase.cpp` -/

/-- `yielding_offload_and_linear_access_stamped` -/
def yieldingOffloadAndLinearAccessStamped : List Stmt :=
  [.stamp 0, .pre, .prep, .blockingSubmit, .stamp 1, .swap, .stamp 2, .work, .stamp 3, .completed,
    .swap]

/-- `blocking_offload_and_linear_access_stamped` -/
def blockingOffloadAndLinearAccessStamped : List Stmt :=
  [.stamp 0, .pre, .prep, .blockingSubmit, .stamp 1, .spin, .stamp 2, .work, .stamp 3, .completed,
    .swap]

/-- `yielding_offload_and_serial_access_stamped` -/
def yieldingOffloadAndSerialAccessStamped : List Stmt :=
  [.stamp 0, .visit, .prep, .blockingSubmit, .stamp 1, .swap, .stamp 2, .visit, .visit, .stamp 3,
    .completed, .swap]

/-- `blocking_offload_and_serial_access_stamped`, and `blocking_offload_and_access_stamped` of
`traverse.cpp`, which stamp before they submit -/
def blockingOffloadAndSerialAccessStamped : List Stmt :=
  [.stamp 0, .visit, .stamp 1, .prep, .blockingSubmit, .spin, .stamp 2, .visit, .visit, .stamp 3,
    .completed, .swap]

/-! ### `traverse.cpp` -/

/-- `yielding_traverse_and_offload_stamped` -/
def yieldingTraverseAndOffloadStamped : List Stmt :=
  [.stamp 0, .visit, .prep, .blockingSubmit, .stamp 1, .swap, .stamp 2, .visit, .stamp 3,
    .completed, .swap]

/-- `blocking_traverse_and_offload_stamped` -/
def blockingTraverseAndOffloadStamped : List Stmt :=
  [.stamp 0, .visit, .prep, .blockingSubmit, .stamp 1, .spin, .stamp 2, .visit, .stamp 3,
    .completed, .swap]

/-! ### By how they wait -/

/-- The requests that yield and take stamps. -/
def yieldingRequestsStamped : List (List Stmt) :=
  [yieldingDecompressAndHashRequestStamped, yieldingDecompAndScatterStamped,
    yieldingMemcpyAndComputeStamped, yieldingRouterRequestStamp,
    yieldingSimpleRankerRequestStamped, yieldingOffloadAndLinearAccessStamped,
    yieldingOffloadAndSerialAccessStamped, yieldingTraverseAndOffloadStamped]

/-- The requests that yield. -/
def yieldingRequests : List (List Stmt) :=
  yieldingRequestsStamped ++
    [yieldingDecompressAndHashRequest, yieldingDecompAndScatter, yieldingMemcpyAndCompute,
      yieldingMemfillAndCompute, yieldingRouterRequest, yieldingSimpleRankerRequest]

/-- The requests that wait for the device and test how their jobs have ended. -/
def checkedRequests : List (List Stmt) :=
  [blockingMemcpyAndCompute, blockingMemfillAndComputeStamped, blockingMemfillAndCompute]

/-- The requests that wait for the device and go on however their jobs have ended. -/
def uncheckedRequests : List (List Stmt) :=
  [blockingDecompressAndHashRequestStamped, blockingDecompressAndHashRequest,
    blockingDecompAndScatterRequest, blockingDecompAndScatterRequestStamped,
    blockingMemcpyAndComputeStamped, blockingRouterRequestStamp, blockingRouterRequest,
    blockingSimpleRankerRequestStamped, blockingSimpleRankerRequest,
    blockingOffloadAndLinearAccessStamped, blockingOffloadAndSerialAccessStamped,
    blockingTraverseAndOffloadStamped]

/-- The requests that wait for the device and take stamps. -/
def blockingRequestsStamped : List (List Stmt) :=
  [blockingDecompressAndHashRequestStamped, blockingDecompAndScatterRequestStamped,
    blockingMemcpyAndComputeStamped, blockingMemfillAndComputeStamped,
    blockingRouterRequestStamp, blockingSimpleRankerRequestStamped,
    blockingOffloadAndLinearAccessStamped, blockingOffloadAndSerialAccessStamped,
    blockingTraverseAndOffloadStamped]

/-- The requests that the core serves by itself and that take stamps. -/
def cpuRequestsStamped : List (List Stmt) :=
  [cpuDecompressAndHashStamped, cpuDecompAndScatterStamped, cpuMemcpyAndComputeStamped,
    cpuMemfillAndComputeStamped, cpuRouterRequestStamp, cpuSimpleRankerRequestStamped]

/-- The requests that the core serves by itself. -/
def cpuRequests : List (List Stmt) :=
  cpuRequestsStamped ++
    [cpuDecompressAndHash, cpuDecompAndScatter, cpuMemcpyAndCompute, cpuMemfillAndCompute,
      cpuRouterRequest, cpuSimpleRankerRequest]

end XMPGym.TwoPhase
