import XMPGym.Harness
import XMPGym.Lifecycle

/-!
# The programs on the heap

The `main` functions by the calls of runners that they make, over all executions of their requests.
The work queues are left out, and so are the options that set devices, levels of logging and those
sizes that nothing is divided by.
-/

open Ownership

namespace XMPGym.HeapUse

/-! ## Requests -/

/-- The fields and the global pointers through which requests, or a filler, may touch the heap. -/
structure Touches where
  fields : List Field
  globals : List Global

/-- The requests `t` beside the filler `u`. -/
def Touches.beside (t u : Touches) : Touches := ⟨t.fields ++ u.fields, t.globals ++ u.globals⟩

/-- What `N` requests that all return do to the heap in one call of an executor. -/
structure Execution (N : ℕ) (t : Touches) where
  accesses : List Access
  within : ∀ c ∈ accesses, c.Within N t.fields t.globals

/-- Each request touches all that it may. -/
def Execution.all (N : ℕ) (t : Touches) : Execution N t where
  accesses := (List.range N).flatMap (fun i => .args i :: t.fields.map (.field i)) ++
    t.globals.map .global
  within c hc := by
    obtain hc | hc := List.mem_append.1 hc
    · obtain ⟨i, hi, hc⟩ := List.mem_flatMap.1 hc
      obtain rfl | hc := List.mem_cons.1 hc
      · exact List.mem_range.1 hi
      · obtain ⟨f, hf, rfl⟩ := List.mem_map.1 hc
        exact ⟨List.mem_range.1 hi, hf⟩
    · obtain ⟨g, hg, rfl⟩ := List.mem_map.1 hc
      exact hg

/-- An execution for each iteration of a runner. -/
abbrev Executions (N : ℕ) (t : Touches) := ℕ → Execution N t

/-- `cpu_decompress_and_hash` and `cpu_decompress_and_hash_stamped` -/
def cpuDecompressAndHash : Touches := ⟨[.input 0, .input 1, .input 2], []⟩

/-- The four `decompress_and_hash_request` functions that offload. -/
def decompressAndHashRequest : Touches := ⟨[.srcPayload, .dstPayload, .desc], []⟩

/-- `cpu_decomp_and_scatter` and `cpu_decomp_and_scatter_stamped` -/
def cpuDecompAndScatter : Touches := ⟨[.input 0, .input 1, .input 2, .input 3], []⟩

/-- The four `decomp_and_scatter` functions that offload. -/
def decompAndScatterRequest : Touches := ⟨[.srcPayload, .dstPayload, .auxPayload, .desc], []⟩

/-- The `cpu_memcpy_and_compute` functions of `memcpy_dp_request.cpp` -/
def cpuMemcpyAndCompute : Touches := ⟨[.input 0, .input 1, .input 2], [.itemBuf]⟩

/-- The `memcpy_and_compute` functions of `memcpy_dp_request.cpp` that offload. -/
def memcpyAndCompute : Touches := ⟨[.srcPayload, .dstPayload, .desc], [.itemBuf]⟩

/-- `blocking_offload_and_serial_access_stamped` and the yielding one -/
def offloadAndSerialAccess : Touches := ⟨[.srcPayload, .dstPayload, .auxPayload, .desc], []⟩

/-- `blocking_offload_and_linear_access_stamped` and the yielding one -/
def offloadAndLinearAccess : Touches := ⟨[.srcPayload, .dstPayload, .desc], []⟩

/-- `hash_interleaved` and `antagonist_interleaved`, which have their own stack only. -/
def stackInterleaved : Touches := ⟨[], []⟩

def scatterInterleaved : Touches := ⟨[], [.globDstBuf, .globIndirArr]⟩

def dotproductInterleaved : Touches := ⟨[], [.itemBuf, .userFillerBuf]⟩

/-- The stage copies the table of the compressor to `aecs`. -/
def stageFields (f : StageFn) : List Field := if f = .iaaCompress then [.aecs] else []

/-- The stage reads `glob_indir_arr`. -/
def stageGlobals (f : StageFn) : List Global := if f = .gatherAccess then [.globIndirArr] else []

/-- The requests of `three_phase_composable.cpp` touch the buffers of their stages. -/
def requestTouches : RequestFn → Touches
  | .threePhase _ preProc ax postProc =>
      ⟨[.preProcInput, .preProcOutput, .axFuncOutput, .postProcOutput, .desc] ++ stageFields ax,
        stageGlobals preProc ++ stageGlobals ax ++ stageGlobals postProc⟩
  | .twoPhase _ ax₁ ax₂ =>
      ⟨[.preProcInput, .preProcOutput, .axFuncOutput, .desc] ++ stageFields ax₂,
        stageGlobals ax₁ ++ stageGlobals ax₂⟩

/-! ## Programs -/

def runIf (c : Bool) (p : Prog Globals Unit) : Prog Globals Unit := if c then p else pure ()

/-- A block whose address goes to a global pointer. -/
def mallocGlobal (g : Global) : Prog Globals Unit := do
  let b ← malloc
  setGlobal g (some b)

section programs

variable (itr : ℕ) {totalRequests : ℕ}

/-- The executions of `decomp_and_hash.cpp`, by the calls of runners. -/
structure DecompAndHash (totalRequests : ℕ) where
  gpcore : Executions totalRequests cpuDecompressAndHash
  blocking : Executions totalRequests decompressAndHashRequest
  hashInterleaved : Executions totalRequests (decompressAndHashRequest.beside stackInterleaved)
  antagonist : Executions totalRequests (decompressAndHashRequest.beside stackInterleaved)
  gpcoreLoad : Executions totalRequests cpuDecompressAndHash
  blockingLoad : Executions totalRequests decompressAndHashRequest
  yieldingLoad : Executions totalRequests decompressAndHashRequest

/-- `main` of `decomp_and_hash.cpp`; its options have no letter that sets `no_latency`. -/
def decompAndHash (e : DecompAndHash totalRequests) (noThrpt : Bool) : Prog Globals Unit := do
  runGpcoreRequestBrkdown compressedMcReqAllocator compressedMcReqFree itr totalRequests
    fun i => (e.gpcore i).accesses
  runBlockingOffloadRequestBrkdown allocDecompAndHashOffloadArgsStamped
    freeDecompAndHashOffloadArgsStamped itr totalRequests fun i => (e.blocking i).accesses
  runYieldingInterleavedRequestBrkdown allocDecompAndHashOffloadArgsStamped
    freeDecompAndHashOffloadArgsStamped itr totalRequests fun i => (e.hashInterleaved i).accesses
  runYieldingInterleavedRequestBrkdown allocDecompAndHashOffloadArgsStamped
    freeDecompAndHashOffloadArgsStamped itr totalRequests fun i => (e.antagonist i).accesses
  runIf (!noThrpt) do
    runGpcoreOfferedLoad compressedMcReqAllocator compressedMcReqFree itr totalRequests
      fun i => (e.gpcoreLoad i).accesses
    runBlockingOfferedLoad allocDecompAndHashOffloadArgs freeDecompAndHashOffloadArgs
      totalRequests itr fun i => (e.blockingLoad i).accesses
    runYieldingOfferedLoad allocDecompAndHashOffloadArgs freeDecompAndHashOffloadArgs 10
      totalRequests itr fun i => (e.yieldingLoad i).accesses

/-- The executions of `decomp_and_scatter.cpp`. -/
structure DecompAndScatter (totalRequests : ℕ) where
  gpcore : Executions totalRequests cpuDecompAndScatter
  blocking : Executions totalRequests decompAndScatterRequest
  scatter : Executions totalRequests (decompAndScatterRequest.beside scatterInterleaved)
  antagonist : Executions totalRequests (decompAndScatterRequest.beside stackInterleaved)
  gpcoreLoad : Executions totalRequests cpuDecompAndScatter
  blockingLoad : Executions totalRequests decompAndScatterRequest
  yieldingLoad : Executions totalRequests decompAndScatterRequest

/-- `main` of `decomp_and_scatter.cpp`, which sets `no_thrpt` but does not read it. -/
def decompAndScatter (inputSize numAccesses : ℕ) (e : DecompAndScatter totalRequests)
    (noLatency : Bool) : Prog Globals Unit := do
  runIf (!noLatency) do
    runGpcoreRequestBrkdown (cpuCompressedPayloadAllocator inputSize numAccesses)
      freeCpuCompressedPayloads itr totalRequests fun i => (e.gpcore i).accesses
    runBlockingOffloadRequestBrkdown (allocOffloadDecompAndScatterArgsTimed inputSize numAccesses)
      freeOffloadDecompAndScatterArgsTimed itr totalRequests fun i => (e.blocking i).accesses
    mallocGlobal .globDstBuf
    runYieldingInterleavedRequestBrkdown
      (allocOffloadDecompAndScatterArgsTimed inputSize numAccesses)
      freeOffloadDecompAndScatterArgsTimed itr totalRequests fun i => (e.scatter i).accesses
    runYieldingInterleavedRequestBrkdown
      (allocOffloadDecompAndScatterArgsTimed inputSize numAccesses)
      freeOffloadDecompAndScatterArgsTimed itr totalRequests fun i => (e.antagonist i).accesses
  runGpcoreOfferedLoad (cpuCompressedPayloadAllocator inputSize numAccesses)
    freeCpuCompressedPayloads itr totalRequests fun i => (e.gpcoreLoad i).accesses
  runBlockingOfferedLoad (allocOffloadDecompAndScatterArgs inputSize numAccesses)
    freeOffloadDecompAndScatterArgs totalRequests itr fun i => (e.blockingLoad i).accesses
  runYieldingOfferedLoad (allocOffloadDecompAndScatterArgs inputSize numAccesses)
    freeOffloadDecompAndScatterArgs 10 totalRequests itr fun i => (e.yieldingLoad i).accesses

/-- The executions of `three_phase.cpp`. -/
structure ThreePhase (totalRequests : ℕ) where
  serialBlocking : Executions totalRequests offloadAndSerialAccess
  serialHash : Executions totalRequests (offloadAndSerialAccess.beside stackInterleaved)
  serialAntagonist : Executions totalRequests (offloadAndSerialAccess.beside stackInterleaved)
  linearBlocking : Executions totalRequests offloadAndLinearAccess
  linearHash : Executions totalRequests (offloadAndLinearAccess.beside stackInterleaved)
  linearAntagonist : Executions totalRequests (offloadAndLinearAccess.beside stackInterleaved)

/-- `main` of `three_phase.cpp`; its options have no letter that sets `no_latency` or `run_linear`,
and without `run_serialized` it sets both. -/
def threePhase (e : ThreePhase totalRequests) (runSerialized : Bool) : Prog Globals Unit := do
  runBlockingOffloadRequestBrkdown allocOffloadSerializedAccessArgs
    freeOffloadSerializedAccessArgs itr totalRequests fun i => (e.serialBlocking i).accesses
  runYieldingInterleavedRequestBrkdown allocOffloadSerializedAccessArgs
    freeOffloadSerializedAccessArgs itr totalRequests fun i => (e.serialHash i).accesses
  runYieldingInterleavedRequestBrkdown allocOffloadSerializedAccessArgs
    freeOffloadSerializedAccessArgs itr totalRequests fun i => (e.serialAntagonist i).accesses
  runIf (!runSerialized) do
    runBlockingOffloadRequestBrkdown allocOffloadLinearAccessArgs freeOffloadLinearAccessArgs itr
      totalRequests fun i => (e.linearBlocking i).accesses
    runYieldingInterleavedRequestBrkdown allocOffloadLinearAccessArgs freeOffloadLinearAccessArgs
      itr totalRequests fun i => (e.linearHash i).accesses
    runYieldingInterleavedRequestBrkdown allocOffloadLinearAccessArgs freeOffloadLinearAccessArgs
      itr totalRequests fun i => (e.linearAntagonist i).accesses

/-- The executions of `mlp.cpp`. -/
structure Mlp (totalRequests : ℕ) where
  gpcore : Executions totalRequests cpuMemcpyAndCompute
  blocking : Executions totalRequests memcpyAndCompute
  dotproduct : Executions totalRequests (memcpyAndCompute.beside dotproductInterleaved)
  antagonist : Executions totalRequests (memcpyAndCompute.beside stackInterleaved)
  gpcoreLoad : Executions totalRequests cpuMemcpyAndCompute
  blockingLoad : Executions totalRequests memcpyAndCompute
  yieldingLoad : Executions totalRequests memcpyAndCompute

/-- The runs of `main` of `mlp.cpp` before it populates `user_filler_buf` -/
def mlpLatency (e : Mlp totalRequests) : Prog Globals Unit := do
  runGpcoreRequestBrkdown allocCpuMemcpyAndComputeArgs freeCpuMemcpyAndComputeArgs itr
    totalRequests fun i => (e.gpcore i).accesses
  runBlockingOffloadRequestBrkdown allocOffloadMemcpyAndComputeArgsTimed
    freeOffloadMemcpyAndComputeArgsTimed itr totalRequests fun i => (e.blocking i).accesses
  runYieldingInterleavedRequestBrkdown allocOffloadMemcpyAndComputeArgsTimed
    freeOffloadMemcpyAndComputeArgsTimed itr totalRequests fun i => (e.dotproduct i).accesses
  runYieldingInterleavedRequestBrkdown allocOffloadMemcpyAndComputeArgsTimed
    freeOffloadMemcpyAndComputeArgsTimed itr totalRequests fun i => (e.antagonist i).accesses

/-- `main` of `mlp.cpp`; its options have no letter that sets `no_latency`. -/
def mlp (e : Mlp totalRequests) (noThrpt : Bool) : Prog Globals Unit := do
  mlpLatency itr e
  mallocGlobal .userFillerBuf
  runIf (!noThrpt) do
    runGpcoreOfferedLoad allocCpuMemcpyAndComputeArgs freeCpuMemcpyAndComputeArgs itr
      totalRequests fun i => (e.gpcoreLoad i).accesses
    runBlockingOfferedLoad allocOffloadMemcpyAndComputeArgs freeOffloadMemcpyAndComputeArgs
      totalRequests itr fun i => (e.blockingLoad i).accesses
    runYieldingOfferedLoad allocOffloadMemcpyAndComputeArgs freeOffloadMemcpyAndComputeArgs 10
      totalRequests itr fun i => (e.yieldingLoad i).accesses

/-- `allocator_fn` with `input_gen`, by the application type. -/
def allocatorFn : Option AppType → ℕ → Prog Globals Table
  | some .gather | some .axGp | some .gpGp => nullTwoFuncAllocator genCompressedRequest
  | some .axAx => axcoreAxcoreAllocator genCompressedRequest
  | some .axAxComp => axcoreAxcoreCompressAecsAllocator genPlaintextRequest
  | some .gpAx => threeFuncAllocator genCompressedRequest
  | some .gpAxComp => memcpyCompGpcoreAxcoreNullAllocator genPlaintextRequest
  | some .deser | some .decrypt | none => threeFuncAllocator genCompressedSerializedPutRequest

/-- `stamped_offload_args_free_fn` -/
def stampedOffloadArgsFreeFn : Option AppType → Table → Prog Globals Unit
  | some .gather | some .axGp | some .gpGp => freeNullTwoPhase
  | some .axAx => freeAxcoreAxcore
  | some .axAxComp => freeAxcoreAxcoreCompressAecs
  | some .gpAx | some .gpAxComp | some .deser | some .decrypt | none => freeThreePhaseStampedArgs

/-- The executions of `three_phase_composable.cpp`. -/
structure ThreePhaseComposable (c : Settings) (totalRequests : ℕ) where
  gpcoreBreakdown : Executions totalRequests (requestTouches c.gpcoreBreakdownFn)
  gpcoreThroughput : Executions totalRequests (requestTouches c.gpcoreThroughputFn)
  blockingBreakdown : Executions totalRequests (requestTouches c.blockingBreakdownFn)
  blockingThroughput : Executions totalRequests (requestTouches c.blockingThroughputFn)
  yieldingBreakdown : Executions totalRequests (requestTouches c.yieldingBreakdownFn)
  yieldingThroughput : Executions totalRequests (requestTouches c.yieldingThroughputFn)

section composable

variable (app : Option AppType) (z : Sizes) (payloadSize : ℤ) (offArgs : ℕ → ComposableArgs)

/-- The stages of all requests write inside their buffers, and they return. -/
def RequestsReturn (totalRequests : ℕ) (request : RequestFn) : Prop :=
  ∀ i < totalRequests, ∃ calls ∈ (settings z payloadSize app).stageCalls z payloadSize
    totalRequests offArgs request i, ∀ c ∈ calls, c.Fits ∧ c.Returns

instance (totalRequests : ℕ) (request : RequestFn) :
    Decidable (RequestsReturn app z payloadSize offArgs totalRequests request) :=
  inferInstanceAs (Decidable (∀ i < totalRequests, _))

/-- `run_three_phase_offload_timed` with the four arrays of a breakdown.  A run that goes past a
buffer has no result here, nor has one that never ends. -/
def runThreePhaseBreakdown (request : RequestFn)
    (e : Executions totalRequests (requestTouches request)) : Prog Globals Unit := do
  if ¬ RequestsReturn app z payloadSize offArgs totalRequests request then fault
  runThreePhaseOffloadTimed (allocatorFn app) (stampedOffloadArgsFreeFn app)
    threePhaseOffloadTimedBreakdown 4 4 itr totalRequests fun i => (e i).accesses

/-- `run_three_phase_offload_timed` with the two arrays of a throughput test, which go into one. -/
def runThreePhaseThroughput (request : RequestFn)
    (e : Executions totalRequests (requestTouches request)) : Prog Globals Unit := do
  if ¬ RequestsReturn app z payloadSize offArgs totalRequests request then fault
  runThreePhaseOffloadTimed (allocatorFn app) (stampedOffloadArgsFreeFn app)
    threePhaseOffloadTimedThroughput 2 1 itr totalRequests fun i => (e i).accesses

/-- What `main` of `three_phase_composable.cpp` runs once its variables have been set. -/
def runSettings (c : Settings) (e : ThreePhaseComposable c totalRequests) : Prog Globals Unit := do
  runIf c.doGpcore do
    runThreePhaseBreakdown itr app z payloadSize offArgs c.gpcoreBreakdownFn e.gpcoreBreakdown
    runThreePhaseThroughput itr app z payloadSize offArgs c.gpcoreThroughputFn e.gpcoreThroughput
  runIf c.doBlocking do
    runIf c.doBrkdown
      (runThreePhaseBreakdown itr app z payloadSize offArgs c.blockingBreakdownFn
        e.blockingBreakdown)
    runIf c.doThrpt
      (runThreePhaseThroughput itr app z payloadSize offArgs c.blockingThroughputFn
        e.blockingThroughput)
  runIf c.doYielding do
    runIf c.doBrkdown
      (runThreePhaseBreakdown itr app z payloadSize offArgs c.yieldingBreakdownFn
        e.yieldingBreakdown)
    runIf c.doThrpt
      (runThreePhaseThroughput itr app z payloadSize offArgs c.yieldingThroughputFn
        e.yieldingThroughput)

/-- `main` of `three_phase_composable.cpp`; `offArgs` is what the arguments are before they are
set. -/
def threePhaseComposable (e : ThreePhaseComposable (settings z payloadSize app) totalRequests) :
    Prog Globals Unit := do
  runIf (app = some .gather) do
    let _ ← indirectArrayGen payloadSize.toNat numAccesses.toNat
  runSettings itr app z payloadSize offArgs (settings z payloadSize app) e

end composable

end programs

end XMPGym.HeapUse
