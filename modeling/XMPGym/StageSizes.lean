import XMPGym.Memory
import XMPGym.Zlib

/-!
# Sizes of the stages

The stages of `three_phase_composable` on a memory that keeps of a buffer only how many bytes it has
room for and how many were last produced in it.  Every call of a stage is recorded with the length
that it is given and the number of bytes that it writes, up to a call that does not return.
-/

namespace XMPGym

/-! ## Stages -/

/-- The functions that the requests put into their phases: functions of the core, and the
operations that the accelerators are asked for. -/
inductive StageFn where
  | nullFn
  | deserFromBuf
  | hashBuf
  | gatherAccess
  | gpcoreDoMemcpy
  | gpcoreDoDeflateDecompress
  /-- `prepare_dsa_memcpy_desc_with_preallocated_comp` -/
  | dsaMemcpy
  /-- `prepare_iaa_decompress_desc_with_preallocated_comp` -/
  | iaaDecompress
  /-- `prepare_iaa_compress_desc_and_aecs_with_preallocated_comp` -/
  | iaaCompress
  deriving DecidableEq, Repr

/-- What zlib, protobuf and the accelerator make of a payload of a given size. -/
structure Sizes where
  /-- `deflateBound` -/
  getCompressBound : ℤ → ℕ
  /-- the size of the payload once compressed -/
  compressedSize : ℤ → ℤ
  /-- `ByteSizeLong` of a put request with the compressed payload -/
  messageSize : ℤ → ℤ
  /-- `IAA_COMPRESS_MAX_DEST_SIZE` -/
  maxDestSize : ℕ
  /-- what the accelerator's compression would write if it had room -/
  iaaCompressedSize : ℤ → ℕ
  /-- how many bytes of a payload its compressed form gives back when only so many bytes of that are
  given -/
  cutSize : (payloadSize inputSize : ℤ) → ℕ

/-- `num_accesses` -/
def numAccesses : ℤ := 10

namespace StageFn

/-- `null_fn` only passes the length on. -/
def reads (fn : StageFn) : Bool := fn ≠ nullFn

/-- `gpcore_do_deflate_decompress` calls `inflate` until the stream has come to its end, which a
stream of `available` bytes does not when fewer are given. -/
def returns (available inputSize : ℤ) (fn : StageFn) : Bool :=
  fn ≠ gpcoreDoDeflateDecompress ∨ available ≤ inputSize

theorem returns_self (fn : StageFn) (n : ℤ) : fn.returns n n = true := by simp [returns]

section

variable (z : Sizes) (payloadSize : ℤ)

/-- The bytes that a call writes, when it is given `inputSize` and its buffer holds `available`.
Decompression gives the payload back, or a part of it when the stream is cut; the accelerator's
compression stops at `iax_max_dst_size`. -/
def written (available inputSize : ℤ) : StageFn → Option ℤ
  | nullFn => none
  | deserFromBuf => some (z.compressedSize payloadSize)
  | hashBuf => some 4
  | gatherAccess => some (numAccesses * 4)
  | gpcoreDoMemcpy | dsaMemcpy => some inputSize
  | gpcoreDoDeflateDecompress | iaaDecompress =>
      some (if inputSize < available then min (z.cutSize payloadSize inputSize) payloadSize
        else payloadSize)
  | iaaCompress => some (min (z.iaaCompressedSize inputSize) z.maxDestSize : ℕ)

theorem written_decompress {fn : StageFn}
    (hfn : fn = gpcoreDoDeflateDecompress ∨ fn = iaaDecompress) (n : ℤ) :
    fn.written z payloadSize n n = some payloadSize := by
  rcases hfn with rfl | rfl <;> simp [written]

/-- `*output_size` -/
def outputSize (available inputSize : ℤ) : StageFn → ℤ
  | gatherAccess => inputSize
  | fn => (fn.written z payloadSize available inputSize).getD inputSize

end

end StageFn

/-- A call of a stage: the length that it is given, the bytes that the stage before it produced in
its input buffer, the bytes that it writes and the room in its output buffer. -/
structure StageCall where
  fn : StageFn
  inputSize : ℤ
  available : ℤ
  written : Option ℤ
  capacity : ℤ
  deriving DecidableEq, Repr

/-- The stage returns. -/
def StageCall.Returns (c : StageCall) : Prop := c.fn.returns c.available c.inputSize = true

/-- A stage that reads its input is given as many bytes as were produced. -/
def StageCall.Chained (c : StageCall) : Prop := c.fn.reads = true → c.inputSize = c.available

/-- A stage does not write past its buffer. -/
def StageCall.Fits (c : StageCall) : Prop := ∀ n ∈ c.written, n ≤ c.capacity

instance (c : StageCall) : Decidable c.Returns := inferInstanceAs (Decidable (_ = true))

instance (c : StageCall) : Decidable c.Fits := inferInstanceAs (Decidable (∀ n ∈ c.written, _))

theorem StageCall.fits_some {fn : StageFn} {inputSize available n capacity : ℤ} :
    Fits ⟨fn, inputSize, available, some n, capacity⟩ ↔ n ≤ capacity := by
  simp [Fits]

theorem StageCall.fits_none {fn : StageFn} {inputSize available capacity : ℤ} :
    Fits ⟨fn, inputSize, available, none, capacity⟩ ↔ True := by
  simp [Fits]

/-- Decompression writes no more than the payload. -/
theorem StageCall.fits_decompress (z : Sizes) {payloadSize inputSize available capacity : ℤ}
    {fn : StageFn} (hfn : fn = .gpcoreDoDeflateDecompress ∨ fn = .iaaDecompress)
    (h : payloadSize ≤ capacity) :
    Fits ⟨fn, inputSize, available, fn.written z payloadSize available inputSize, capacity⟩ := by
  rcases hfn with rfl | rfl <;>
  · rw [StageFn.written, fits_some]
    split_ifs <;> omega

/-! ## Memory -/

/-- The room in each buffer, the bytes produced in it, the calls so far and whether the last of them
does not return. -/
structure BufferSizes where
  capacity : ℕ → ℤ
  produced : ℕ → ℤ
  calls : List StageCall
  endless : Bool

/-- A stage is called on two buffers, unless the one before it has not returned. -/
def BufferSizes.call (z : Sizes) (payloadSize : ℤ) (b : BufferSizes) (fn : StageFn)
    (input output : ℕ) (inputSize : ℤ) : BufferSizes :=
  if b.endless then b
  else
    { b with
      produced := match fn.written z payloadSize (b.produced input) inputSize with
        | some n => Function.update b.produced output n
        | none => b.produced
      calls := b.calls ++ [⟨fn, inputSize, b.produced input,
        fn.written z payloadSize (b.produced input) inputSize, b.capacity output⟩]
      endless := !fn.returns (b.produced input) inputSize }

section call

variable {z : Sizes} {payloadSize inputSize : ℤ} {b : BufferSizes} {fn : StageFn}
  {input output : ℕ}

@[simp] theorem BufferSizes.capacity_call :
    (b.call z payloadSize fn input output inputSize).capacity = b.capacity := by
  unfold call
  split_ifs <;> rfl

theorem BufferSizes.calls_call (hb : b.endless = false) :
    (b.call z payloadSize fn input output inputSize).calls = b.calls ++ [⟨fn, inputSize,
      b.produced input, fn.written z payloadSize (b.produced input) inputSize,
      b.capacity output⟩] := by
  simp [call, hb]

theorem BufferSizes.produced_call (hb : b.endless = false) :
    (b.call z payloadSize fn input output inputSize).produced output =
      (fn.written z payloadSize (b.produced input) inputSize).getD (b.produced output) := by
  simp only [call, hb, Bool.false_eq_true, if_false]
  cases fn.written z payloadSize (b.produced input) inputSize with
  | none => rfl
  | some n => exact Function.update_self _ _ _

theorem BufferSizes.endless_call (hb : b.endless = false)
    (hret : fn.returns (b.produced input) inputSize = true) :
    (b.call z payloadSize fn input output inputSize).endless = false := by
  simp [call, hb, hret]

end call

/-- Buffers, descriptors with the operations that they stand for, records, and the jobs of the
accelerators. -/
structure SizedMem where
  bufs : BufferSizes
  descs : ℕ → Option (StageFn × Descriptor)
  status : ℕ → ℕ
  jobs : ℕ → Option (StageFn × Descriptor)

namespace SizedMem

/-- No job is under way. -/
def start (bufs : BufferSizes) : SizedMem :=
  ⟨bufs, fun _ => none, fun _ => compStatusPending, fun _ => none⟩

/-- The descriptor is filled in and the record is cleared. -/
def prep (fn : StageFn) (desc src dst comp : ℕ) (size : ℤ) (m : SizedMem) : SizedMem :=
  { m with
    descs := Function.update m.descs desc (some (fn, ⟨src, dst, comp, xferSize size⟩))
    status := Function.update m.status comp compStatusPending }

/-- The descriptor goes to the accelerator. -/
def submit (desc : ℕ) (m : SizedMem) : SizedMem :=
  match m.descs desc with
  | some (fn, d) => { m with jobs := Function.update m.jobs d.completionAddr (some (fn, d)) }
  | none => m

/-- The accelerator does the job of record `comp`. -/
def serve (z : Sizes) (payloadSize : ℤ) (comp : ℕ) (m : SizedMem) : SizedMem :=
  match m.jobs comp with
  | some (fn, d) =>
      { m with
        bufs := m.bufs.call z payloadSize fn d.srcAddr d.dstAddr d.xferSize
        status := Function.update m.status comp compStatusCompleted
        jobs := Function.update m.jobs comp none }
  | none => m

end SizedMem

/-- The three phases on sizes. -/
def sizedFns (z : Sizes) (payloadSize : ℤ) (preProc ax postProc : StageFn) :
    ThreePhaseFns SizedMem where
  preProc input output inputSize m :=
    ({ m with bufs := m.bufs.call z payloadSize preProc input output inputSize },
      preProc.outputSize z payloadSize (m.bufs.produced input) inputSize)
  prep := SizedMem.prep ax
  submit := SizedMem.submit
  postOffload comp m := m.status comp = compStatusPending
  axFunc input output inputSize _ m :=
    ({ m with bufs := m.bufs.call z payloadSize ax input output inputSize },
      ax.outputSize z payloadSize (m.bufs.produced input) inputSize)
  postProc input output inputSize _ m :=
    ({ m with bufs := m.bufs.call z payloadSize postProc input output inputSize },
      postProc.outputSize z payloadSize (m.bufs.produced input) inputSize)
  stamp _ _ m := m

/-! ## Requests -/

/-- The arguments of the two-phase requests as well: `ax_func_input_size`. -/
structure ComposableArgs extends OffArgs where
  axFuncInputSize : ℤ
  deriving DecidableEq, Repr

/-- `gpcore_iaa_aecs_axcore_gpcore_three_phase`.  The buffer of the AECS is left out. -/
def gpcoreIaaAecsAxcoreGpcoreThreePhase : List ThreePhaseOp :=
  [.stamp 0, .preProc, .axInput, .stamp 1, .prep, .submit, .stamp 2, .postOffload, .stamp 3,
    .postInput, .postProc, .stamp 4]

/-- The templates of three phases. -/
def threePhaseTemplates : List (List ThreePhaseOp) :=
  [yieldingThreePhaseRequest true, yieldingThreePhaseRequest false,
    blockingThreePhaseRequest true, blockingThreePhaseRequest false,
    gpcoreThreePhaseRequest true, gpcoreThreePhaseRequest false,
    gpcoreIaaAecsAxcoreGpcoreThreePhase ++ completeRequestAndSwitchToScheduler]

/-- The functions of two phases on accelerators. -/
structure TwoPhaseFns (M : Type*) where
  prep₁ : (desc src dst comp : ℕ) → (size : ℤ) → M → M
  prep₂ : (desc src dst comp : ℕ) → (size : ℤ) → M → M
  submit : (desc : ℕ) → M → M
  postOffload : (comp : ℕ) → M → Bool
  stamp : (ts idx : ℕ) → M → M

/-- `axcore_axcore_two_phase_timed`; the local variable is `ax_func_2_input`. -/
def axcoreAxcoreTwoPhaseTimed {M : Type*} (fns : TwoPhaseFns M) (a : ComposableArgs) :
    List (Instr ℕ M) :=
  [.op fun l m => (l, fns.stamp 0 a.id m, .next),
    .op fun l m => (l, fns.prep₁ a.desc a.preProcInput a.preProcOutput a.comp a.preProcInputSize m,
      .next),
    .op fun l m => (l, fns.submit a.desc m, .next),
    .op fun l m => (l, fns.stamp 1 a.id m, .next),
    .op fun l m => (l, m, if fns.postOffload a.comp m then .stay else .next),
    .op fun l m => (l, fns.stamp 2 a.id m, .next),
    .op fun _ m => (a.preProcOutput, m, .next),
    .op fun l m => (l, fns.prep₂ a.desc l a.axFuncOutput a.comp a.axFuncInputSize m, .next),
    .op fun l m => (l, fns.submit a.desc m, .next),
    .op fun l m => (l, fns.stamp 3 a.id m, .next),
    .op fun l m => (l, m, if fns.postOffload a.comp m then .stay else .next),
    .op fun l m => (l, fns.stamp 4 a.id m, .next)]

/-- `axcore_iaa_aecs_axcore_two_phase`, which is the same but for the AECS. -/
def axcoreIaaAecsAxcoreTwoPhase {M : Type*} (fns : TwoPhaseFns M) (a : ComposableArgs) :
    List (Instr ℕ M) :=
  axcoreAxcoreTwoPhaseTimed fns a

/-- The two phases on sizes. -/
def sizedTwoPhaseFns (ax₁ ax₂ : StageFn) : TwoPhaseFns SizedMem where
  prep₁ := SizedMem.prep ax₁
  prep₂ := SizedMem.prep ax₂
  submit := SizedMem.submit
  postOffload comp m := m.status comp = compStatusPending
  stamp _ _ m := m

/-- A request on its own, with what it has submitted served before it looks at its record.  There
is no result when it waits nevertheless.  After a stage that does not return the other operations
are gone through without effect. -/
def runAlone {L M : Type*} (serve : M → M) : List (Instr L M) → L → M → Option M
  | [], _, m => some m
  | .op f :: c, l, m =>
      if (f l m).2.2 = .next then runAlone serve c (f l m).1 (serve (f l m).2.1) else none
  | .completed :: c, l, m => runAlone serve c l m
  | .swap :: c, l, m => runAlone serve c l m

/-! ## What the requests call -/

section run

variable {z : Sizes} {payloadSize : ℤ} {m : SizedMem} {a : OffArgs}

/-- The number of bytes in a descriptor is the size that it was filled in with. -/
theorem xferSize_of_int {n : ℤ} (h₀ : 0 ≤ n) (h : n < 2 ^ 31) : (xferSize n : ℤ) = n := by
  unfold xferSize
  omega

/-- Every template calls the three stages in turn: the second one with the size that the first one
returned, the third one with the size that it was allocated with. -/
theorem runAlone_threePhase {preProc ax postProc : StageFn} (hjobs : m.jobs a.comp = none)
    (h₀ : 0 ≤ preProc.outputSize z payloadSize (m.bufs.produced a.preProcInput)
      a.preProcInputSize)
    (h : preProc.outputSize z payloadSize (m.bufs.produced a.preProcInput) a.preProcInputSize <
      2 ^ 31) {t : List ThreePhaseOp} (ht : t ∈ threePhaseTemplates) :
    (runAlone (SizedMem.serve z payloadSize a.comp)
        (t.map (ThreePhaseOp.instr (sizedFns z payloadSize preProc ax postProc) a)) (.init a) m).map
        SizedMem.bufs =
      some (((m.bufs.call z payloadSize preProc a.preProcInput a.preProcOutput
          a.preProcInputSize).call z payloadSize ax a.preProcOutput a.axFuncOutput
          (preProc.outputSize z payloadSize (m.bufs.produced a.preProcInput)
            a.preProcInputSize)).call z payloadSize postProc a.axFuncOutput a.postProcOutput
          a.postProcInputSize) := by
  have hxfer := xferSize_of_int h₀ h
  simp only [threePhaseTemplates, List.mem_cons, List.not_mem_nil, or_false] at ht
  rcases ht with rfl | rfl | rfl | rfl | rfl | rfl | rfl <;>
    simp [yieldingThreePhaseRequest, blockingThreePhaseRequest, gpcoreThreePhaseRequest,
      genericYieldingThreePhaseTimed, genericYieldingThreePhase, genericBlockingThreePhaseTimed,
      genericBlockingThreePhase, genericGpcoreThreePhaseTimed, genericGpcoreThreePhase,
      gpcoreIaaAecsAxcoreGpcoreThreePhase, completeRequestAndSwitchToScheduler,
      ThreePhaseOp.instr, runAlone, sizedFns, SizedMem.serve, SizedMem.prep, SizedMem.submit, hjobs,
      hxfer, ThreePhaseLocals.init, compStatusPending, compStatusCompleted]

/-- The second stage of the two-phase template is called with the size that it was allocated
with. -/
theorem runAlone_twoPhase {a : ComposableArgs} {ax₁ ax₂ : StageFn} (hjobs : m.jobs a.comp = none)
    (h₀ : 0 ≤ a.preProcInputSize) (h : a.preProcInputSize < 2 ^ 31) (h₀' : 0 ≤ a.axFuncInputSize)
    (h' : a.axFuncInputSize < 2 ^ 31) (l : ℕ) :
    (runAlone (SizedMem.serve z payloadSize a.comp)
        (axcoreAxcoreTwoPhaseTimed (sizedTwoPhaseFns ax₁ ax₂) a ++ [.swap]) l m).map
        SizedMem.bufs =
      some ((m.bufs.call z payloadSize ax₁ a.preProcInput a.preProcOutput
          a.preProcInputSize).call z payloadSize ax₂ a.preProcOutput a.axFuncOutput
          a.axFuncInputSize) := by
  have hxfer := xferSize_of_int h₀ h
  have hxfer' := xferSize_of_int h₀' h'
  simp [axcoreAxcoreTwoPhaseTimed, runAlone, sizedTwoPhaseFns, SizedMem.serve, SizedMem.prep,
    SizedMem.submit, hjobs, hxfer, hxfer', compStatusPending, compStatusCompleted]

end run

end XMPGym
