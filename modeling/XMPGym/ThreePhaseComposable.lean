import XMPGym.Allocators
import XMPGym.StageSizes

/-!
# Stage sizes of `three_phase_composable`

The allocators of the request arguments with the sizes that they ask for, the requests, and the
pairing that `main` chooses by `app_type`.  From these follow the lengths with which the stages of a
request are called, and the room that they have.
-/

namespace XMPGym

/-! ## Allocation -/

/-- The sizes of the buffers so far and the first address that is not in use. -/
structure SizedHeap where
  next : ℕ
  bufs : BufferSizes

namespace SizedHeap

/-- The heap before the allocators run. -/
def empty : SizedHeap := ⟨0, fun _ => 0, fun _ => 0, [], false⟩

/-- `malloc(size)` and `aligned_alloc(alignment, size)`.  A negative `int` becomes a size for which
there is no room. -/
def malloc (size : ℤ) (h : SizedHeap) : ℕ × SizedHeap :=
  (h.next, ⟨h.next + 1,
    { h.bufs with capacity := Function.update h.bufs.capacity h.next (max size 0) }⟩)

end SizedHeap

/-- An input generator: the room that it allocates and `*outsize`. -/
abbrev InputGenerator := ℤ → ℤ × ℤ

/-- `input_generator(payload_size, &msgbuf, &outsize)` -/
def SizedHeap.inputGenerator (gen : InputGenerator) (payloadSize : ℤ) (h : SizedHeap) :
    ℕ × ℤ × SizedHeap :=
  let (addr, h) := h.malloc (gen payloadSize).1
  (addr, (gen payloadSize).2, { h with
    bufs := { h.bufs with
      produced := Function.update h.bufs.produced addr (gen payloadSize).2 } })

section generators

variable (z : Sizes) (payloadSize : ℤ)

/-- `gen_compressed_serialized_put_request` -/
def genCompressedSerializedPutRequest : ℤ × ℤ :=
  (z.messageSize payloadSize, z.messageSize payloadSize)

/-- `gen_compressed_request` -/
def genCompressedRequest : ℤ × ℤ :=
  (toInt (z.getCompressBound payloadSize), z.compressedSize payloadSize)

/-- `gen_plaintext_request` -/
def genPlaintextRequest : ℤ × ℤ := (payloadSize, payloadSize)

end generators

/-- `sizeof(struct hw_desc)` -/
def sizeofHwDesc : ℤ := 64

section allocators

variable (z : Sizes) (gen : InputGenerator)
  (initialPayloadSize maxAxfuncOutputSize maxPostProcOutputSize : ℤ)

/-- One round of the loop of `three_func_allocator`; `a` is what the arguments are before they are
set. -/
def threeFuncSized (i : ℕ) (a : ComposableArgs) (h : SizedHeap) : ComposableArgs × SizedHeap :=
  let (preProcInput, preProcInputSize, h) := h.inputGenerator gen initialPayloadSize
  let (preProcOutput, h) := h.malloc (toInt (z.getCompressBound initialPayloadSize))
  let (axFuncOutput, h) := h.malloc maxAxfuncOutputSize
  let (postProcOutput, h) := h.malloc maxPostProcOutputSize
  let (desc, h) := h.malloc sizeofHwDesc
  ({ a with
     comp := i
     desc := desc
     id := i
     preProcInput := preProcInput
     preProcOutput := preProcOutput
     preProcInputSize := preProcInputSize
     axFuncOutput := axFuncOutput
     maxAxfuncOutputSize := maxAxfuncOutputSize
     postProcOutput := postProcOutput
     postProcInputSize := initialPayloadSize
     maxPostProcOutputSize := maxPostProcOutputSize }, h)

/-- One round of the loop of `null_two_func_allocator`. -/
def nullTwoFuncSized (i : ℕ) (a : ComposableArgs) (h : SizedHeap) : ComposableArgs × SizedHeap :=
  let (preProcOutput, preProcInputSize, h) := h.inputGenerator gen initialPayloadSize
  let (preProcInput, h) := h.malloc initialPayloadSize
  let (axFuncOutput, h) := h.malloc maxAxfuncOutputSize
  let (postProcOutput, h) := h.malloc maxPostProcOutputSize
  let (desc, h) := h.malloc sizeofHwDesc
  ({ a with
     comp := i
     desc := desc
     id := i
     preProcInput := preProcInput
     preProcOutput := preProcOutput
     preProcInputSize := preProcInputSize
     axFuncOutput := axFuncOutput
     maxAxfuncOutputSize := maxAxfuncOutputSize
     postProcOutput := postProcOutput
     postProcInputSize := initialPayloadSize
     maxPostProcOutputSize := maxPostProcOutputSize }, h)

/-- One round of the loop of `axcore_axcore_allocator`. -/
def axcoreAxcoreSized (i : ℕ) (a : ComposableArgs) (h : SizedHeap) : ComposableArgs × SizedHeap :=
  let (preProcInput, preProcInputSize, h) := h.inputGenerator gen initialPayloadSize
  let (preProcOutput, h) := h.malloc (toInt (z.getCompressBound initialPayloadSize))
  let (axFuncOutput, h) := h.malloc maxAxfuncOutputSize
  let (desc, h) := h.malloc sizeofHwDesc
  ({ a with
     comp := i
     desc := desc
     id := i
     preProcInput := preProcInput
     preProcOutput := preProcOutput
     preProcInputSize := preProcInputSize
     axFuncInputSize := initialPayloadSize
     axFuncOutput := axFuncOutput }, h)

/-- One round of the loop of `axcore_axcore_compress_aecs_allocator`. -/
def axcoreAxcoreCompressAecsSized (i : ℕ) (a : ComposableArgs) (h : SizedHeap) :
    ComposableArgs × SizedHeap :=
  let (preProcInput, preProcInputSize, h) := h.inputGenerator gen initialPayloadSize
  let (preProcOutput, h) := h.malloc z.maxDestSize
  let (axFuncOutput, h) := h.malloc z.maxDestSize
  let (desc, h) := h.malloc sizeofHwDesc
  ({ a with
     comp := i
     desc := desc
     id := i
     preProcInput := preProcInput
     preProcOutput := preProcOutput
     preProcInputSize := preProcInputSize
     axFuncInputSize := initialPayloadSize
     axFuncOutput := axFuncOutput
     maxAxfuncOutputSize := z.maxDestSize }, h)

/-- One round of the loop of `memcpy_comp_gpcore_axcore_null_allocator`. -/
def memcpyCompGpcoreAxcoreNullSized (i : ℕ) (a : ComposableArgs) (h : SizedHeap) :
    ComposableArgs × SizedHeap :=
  let (preProcInput, preProcInputSize, h) := h.inputGenerator gen initialPayloadSize
  let (preProcOutput, h) := h.malloc z.maxDestSize
  let (axFuncOutput, h) := h.malloc z.maxDestSize
  let (postProcOutput, h) := h.malloc maxPostProcOutputSize
  let (desc, h) := h.malloc sizeofHwDesc
  ({ a with
     comp := i
     desc := desc
     id := i
     preProcInput := preProcInput
     preProcOutput := preProcOutput
     preProcInputSize := preProcInputSize
     axFuncOutput := axFuncOutput
     maxAxfuncOutputSize := z.maxDestSize
     postProcOutput := postProcOutput
     postProcInputSize := initialPayloadSize
     maxPostProcOutputSize := maxPostProcOutputSize }, h)

end allocators

/-- The loop of an allocator. -/
def fillSized (one : ℕ → ComposableArgs → SizedHeap → ComposableArgs × SizedHeap) :
    ℕ → (ℕ → ComposableArgs) → SizedHeap → (ℕ → ComposableArgs) × SizedHeap
  | 0, offArgs, h => (offArgs, h)
  | n + 1, offArgs, h =>
      let (offArgs, h) := fillSized one n offArgs h
      let (a, h) := one n (offArgs n) h
      (Function.update offArgs n a, h)

/-! ## Requests -/

/-- A request function: its template with the stages that it is given. -/
inductive RequestFn where
  | threePhase (t : List ThreePhaseOp) (preProc ax postProc : StageFn)
  | twoPhase (t : TwoPhaseFns SizedMem → ComposableArgs → List (Instr ℕ SizedMem))
      (ax₁ ax₂ : StageFn)

/-- `deser_decomp_hash_gpcore_stamped` -/
def deserDecompHashGpcoreStamped : RequestFn :=
  .threePhase (gpcoreThreePhaseRequest true) .deserFromBuf .gpcoreDoDeflateDecompress .hashBuf

/-- `deser_decomp_hash_gpcore` -/
def deserDecompHashGpcore : RequestFn :=
  .threePhase (gpcoreThreePhaseRequest false) .deserFromBuf .gpcoreDoDeflateDecompress .hashBuf

/-- `deser_decomp_hash_blocking_stamped` -/
def deserDecompHashBlockingStamped : RequestFn :=
  .threePhase (blockingThreePhaseRequest true) .deserFromBuf .iaaDecompress .hashBuf

/-- `deser_decomp_hash_blocking` -/
def deserDecompHashBlocking : RequestFn :=
  .threePhase (blockingThreePhaseRequest false) .deserFromBuf .iaaDecompress .hashBuf

/-- `deser_decomp_hash_yielding_stamped` -/
def deserDecompHashYieldingStamped : RequestFn :=
  .threePhase (yieldingThreePhaseRequest true) .deserFromBuf .iaaDecompress .hashBuf

/-- `deser_decomp_hash_yielding` -/
def deserDecompHashYielding : RequestFn :=
  .threePhase (yieldingThreePhaseRequest false) .deserFromBuf .iaaDecompress .hashBuf

/-- `decomp_gather_gpcore_stamped` -/
def decompGatherGpcoreStamped : RequestFn :=
  .threePhase (gpcoreThreePhaseRequest true) .nullFn .gpcoreDoDeflateDecompress .gatherAccess

/-- `decomp_gather_gpcore` -/
def decompGatherGpcore : RequestFn :=
  .threePhase (gpcoreThreePhaseRequest false) .nullFn .gpcoreDoDeflateDecompress .gatherAccess

/-- `decomp_gather_blocking_stamped` -/
def decompGatherBlockingStamped : RequestFn :=
  .threePhase (blockingThreePhaseRequest true) .nullFn .iaaDecompress .gatherAccess

/-- `decomp_gather_blocking` -/
def decompGatherBlocking : RequestFn :=
  .threePhase (blockingThreePhaseRequest false) .nullFn .iaaDecompress .gatherAccess

/-- `decomp_gather_yielding_stamped` -/
def decompGatherYieldingStamped : RequestFn :=
  .threePhase (yieldingThreePhaseRequest true) .nullFn .iaaDecompress .gatherAccess

/-- `decomp_gather_yielding` -/
def decompGatherYielding : RequestFn :=
  .threePhase (yieldingThreePhaseRequest false) .nullFn .iaaDecompress .gatherAccess

/-- `memcpy_decomp_axcore_gpcore_stamped` -/
def memcpyDecompAxcoreGpcoreStamped : RequestFn :=
  .threePhase (blockingThreePhaseRequest true) .nullFn .dsaMemcpy .gpcoreDoDeflateDecompress

/-- `memcpy_decomp_gpcore_gpcore_stamped` -/
def memcpyDecompGpcoreGpcoreStamped : RequestFn :=
  .threePhase (gpcoreThreePhaseRequest true) .nullFn .gpcoreDoMemcpy .gpcoreDoDeflateDecompress

/-- `memcpy_decomp_gpcore_axcore_stamped` -/
def memcpyDecompGpcoreAxcoreStamped : RequestFn :=
  .threePhase (blockingThreePhaseRequest true) .gpcoreDoMemcpy .iaaDecompress .nullFn

/-- `memcpy_comp_gpcore_axcore_stamped` -/
def memcpyCompGpcoreAxcoreStamped : RequestFn :=
  .threePhase (gpcoreIaaAecsAxcoreGpcoreThreePhase ++ completeRequestAndSwitchToScheduler)
    .gpcoreDoMemcpy .iaaCompress .nullFn

/-- `memcpy_decomp_axcore_axcore_stamped` -/
def memcpyDecompAxcoreAxcoreStamped : RequestFn :=
  .twoPhase (fun fns a => axcoreAxcoreTwoPhaseTimed fns a ++ [.swap]) .dsaMemcpy .iaaDecompress

/-- `memcpy_comp_axcore_axcore_stamped` -/
def memcpyCompAxcoreAxcoreStamped : RequestFn :=
  .twoPhase (fun fns a => axcoreIaaAecsAxcoreTwoPhase fns a ++ [.swap]) .dsaMemcpy .iaaCompress

/-- What becomes of the buffers when a request runs. -/
def RequestFn.run (z : Sizes) (payloadSize : ℤ) (a : ComposableArgs) (bufs : BufferSizes) :
    RequestFn → Option BufferSizes
  | threePhase t preProc ax postProc =>
      (runAlone (SizedMem.serve z payloadSize a.comp)
        (t.map (ThreePhaseOp.instr (sizedFns z payloadSize preProc ax postProc) a.toOffArgs))
        (.init a.toOffArgs) (.start bufs)).map SizedMem.bufs
  | twoPhase t ax₁ ax₂ =>
      (runAlone (SizedMem.serve z payloadSize a.comp) (t (sizedTwoPhaseFns ax₁ ax₂) a) 0
        (.start bufs)).map SizedMem.bufs

/-! ## Application types -/

/-- `app_type_t` -/
inductive AppType where
  | deser
  | decrypt
  | gather
  | axAx
  | axGp
  | gpGp
  | gpAx
  | axAxComp
  | gpAxComp
  deriving DecidableEq, Repr

/-- The variables that `main` sets by `app_type`. -/
structure Settings where
  inputGen : InputGenerator
  gpcoreBreakdownFn : RequestFn := deserDecompHashGpcoreStamped
  gpcoreThroughputFn : RequestFn := deserDecompHashGpcore
  blockingBreakdownFn : RequestFn := deserDecompHashBlockingStamped
  blockingThroughputFn : RequestFn := deserDecompHashBlocking
  yieldingBreakdownFn : RequestFn := deserDecompHashYieldingStamped
  yieldingThroughputFn : RequestFn := deserDecompHashYielding
  allocatorFn : InputGenerator → ℤ → ℤ → ℤ → ℕ → ComposableArgs → SizedHeap →
    ComposableArgs × SizedHeap
  finalOutputSize : ℤ := 4
  doBlocking : Bool := true
  doGpcore : Bool := true
  doYielding : Bool := true
  doBrkdown : Bool := true
  doThrpt : Bool := true

/-- The switch of `main`; `none` is a number that names no application type. -/
def settings (z : Sizes) (payloadSize : ℤ) : Option AppType → Settings
  | some .gather =>
      { inputGen := genCompressedRequest z
        gpcoreBreakdownFn := decompGatherGpcoreStamped
        gpcoreThroughputFn := decompGatherGpcore
        blockingBreakdownFn := decompGatherBlockingStamped
        blockingThroughputFn := decompGatherBlocking
        yieldingBreakdownFn := decompGatherYieldingStamped
        yieldingThroughputFn := decompGatherYielding
        allocatorFn := nullTwoFuncSized
        finalOutputSize := numAccesses * 4 }
  | some .axAx =>
      { inputGen := genCompressedRequest z
        blockingBreakdownFn := memcpyDecompAxcoreAxcoreStamped
        allocatorFn := fun gen n ax _ => axcoreAxcoreSized z gen n ax
        finalOutputSize := payloadSize
        doYielding := false
        doGpcore := false
        doThrpt := false }
  | some .axAxComp =>
      { inputGen := genPlaintextRequest
        blockingBreakdownFn := memcpyCompAxcoreAxcoreStamped
        allocatorFn := fun gen n _ _ => axcoreAxcoreCompressAecsSized z gen n
        finalOutputSize := payloadSize
        doYielding := false
        doGpcore := false
        doThrpt := false }
  | some .gpAx =>
      { inputGen := genCompressedRequest z
        blockingBreakdownFn := memcpyDecompGpcoreAxcoreStamped
        allocatorFn := threeFuncSized z
        finalOutputSize := payloadSize
        doYielding := false
        doThrpt := false
        doGpcore := false }
  | some .gpAxComp =>
      { inputGen := genPlaintextRequest
        blockingBreakdownFn := memcpyCompGpcoreAxcoreStamped
        allocatorFn := fun gen n _ post => memcpyCompGpcoreAxcoreNullSized z gen n post
        finalOutputSize := payloadSize
        doYielding := false
        doThrpt := false
        doGpcore := false }
  | some .axGp =>
      { inputGen := genCompressedRequest z
        blockingBreakdownFn := memcpyDecompAxcoreGpcoreStamped
        allocatorFn := nullTwoFuncSized
        finalOutputSize := payloadSize
        doYielding := false
        doGpcore := false
        doThrpt := false }
  | some .gpGp =>
      { inputGen := genCompressedRequest z
        blockingBreakdownFn := memcpyDecompGpcoreGpcoreStamped
        allocatorFn := nullTwoFuncSized
        finalOutputSize := payloadSize
        doYielding := false
        doThrpt := false
        doGpcore := false }
  | some .deser | some .decrypt | none =>
      { inputGen := genCompressedSerializedPutRequest z
        allocatorFn := threeFuncSized z }

/-- The request functions that `main` runs. -/
def Settings.requestFns (c : Settings) : List RequestFn :=
  (if c.doGpcore then [c.gpcoreBreakdownFn, c.gpcoreThroughputFn] else []) ++
    (if c.doBlocking then
      (if c.doBrkdown then [c.blockingBreakdownFn] else []) ++
        if c.doThrpt then [c.blockingThroughputFn] else []
    else []) ++
    if c.doYielding then
      (if c.doBrkdown then [c.yieldingBreakdownFn] else []) ++
        if c.doThrpt then [c.yieldingThroughputFn] else []
    else []

/-- The calls of the stages of request `i`, up to one that does not return, when `main` has
allocated the arguments of `totalRequests` requests.  `offArgs` is what the arguments are before
they are set.  For `GATHER` the index array is filled before that, which takes a payload of four
bytes at least. -/
def Settings.stageCalls (c : Settings) (z : Sizes) (payloadSize : ℤ) (totalRequests : ℕ)
    (offArgs : ℕ → ComposableArgs) (request : RequestFn) (i : ℕ) : Option (List StageCall) :=
  let (offArgs, h) := fillSized
    (c.allocatorFn c.inputGen payloadSize payloadSize c.finalOutputSize) totalRequests offArgs
    .empty
  (request.run z payloadSize (offArgs i) h.bufs).map BufferSizes.calls

/-! ## Against the allocators on contents -/

/-- Two loops of allocation that go on in step give the same arguments. -/
theorem fillSized_toOffArgs {one : ℕ → ComposableArgs → SizedHeap → ComposableArgs × SizedHeap}
    {one' : ℕ → Heap → OffArgs × Heap}
    (hone : ∀ i a (h : SizedHeap) (h' : Heap), h.next = h'.next →
      (one i a h).1.toOffArgs = (one' i h').1 ∧ (one i a h).2.next = (one' i h').2.next)
    {offArgs : ℕ → ComposableArgs} {h : SizedHeap} {h' : Heap} (hnext : h.next = h'.next) (n : ℕ) :
    (∀ i < n, ((fillSized one n offArgs h).1 i).toOffArgs =
        (fillArgs one' n (fun i => (offArgs i).toOffArgs) h').1 i) ∧
      (fillSized one n offArgs h).2.next =
        (fillArgs one' n (fun i => (offArgs i).toOffArgs) h').2.next := by
  induction n with
  | zero => exact ⟨fun i hi => absurd hi (Nat.not_lt_zero i), hnext⟩
  | succ n ih =>
      obtain ⟨hargs, hn⟩ := ih
      simp only [fillSized, fillArgs]
      obtain ⟨ha, hn'⟩ := hone n ((fillSized one n offArgs h).1 n) _ _ hn
      refine ⟨fun i hi => ?_, hn'⟩
      by_cases hlast : i = n
      · rw [hlast, Function.update_self, Function.update_self, ha]
      · rw [Function.update_of_ne hlast, Function.update_of_ne hlast, hargs i (by omega)]

/-- `three_func_allocator` gives the same arguments whether contents are kept or sizes. -/
theorem threeFuncSized_toOffArgs (z : Sizes) (gen : InputGenerator) (gen' : ℤ → Bytes × ℤ)
    (n ax post : ℤ) (hgen : (gen n).2 = (gen' n).2) (offArgs : ℕ → ComposableArgs) (h : Heap)
    (hnext : h.next = 0) {N i : ℕ} (hi : i < N) :
    ((fillSized (threeFuncSized z gen n ax post) N offArgs .empty).1 i).toOffArgs =
      (threeFuncAllocator N n ax post gen' (fun i => (offArgs i).toOffArgs) h).1 i := by
  refine (fillSized_toOffArgs (fun i a h h' hn => ?_) hnext.symm N).1 i hi
  simp [threeFuncSized, threeFuncArgs, SizedHeap.inputGenerator, SizedHeap.malloc,
    Heap.inputGenerator, Heap.malloc, hn, hgen]

/-- So does `null_two_func_allocator`. -/
theorem nullTwoFuncSized_toOffArgs (gen : InputGenerator) (gen' : ℤ → Bytes × ℤ) (n ax post : ℤ)
    (hgen : (gen n).2 = (gen' n).2) (offArgs : ℕ → ComposableArgs) (h : Heap) (hnext : h.next = 0)
    {N i : ℕ} (hi : i < N) :
    ((fillSized (nullTwoFuncSized gen n ax post) N offArgs .empty).1 i).toOffArgs =
      (nullTwoFuncAllocator N n ax post gen' (fun i => (offArgs i).toOffArgs) h).1 i := by
  refine (fillSized_toOffArgs (fun i a h h' hn => ?_) hnext.symm N).1 i hi
  simp [nullTwoFuncSized, nullTwoFuncArgs, SizedHeap.inputGenerator, SizedHeap.malloc,
    Heap.inputGenerator, Heap.malloc, hn, hgen]

end XMPGym
