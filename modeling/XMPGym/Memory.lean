import XMPGym.Requests

/-!
# Memory and accelerator

The memory that the three-phase requests and the accelerator share: buffers of bytes, descriptors,
completion records and arrays of time stamps.  The accelerator takes a submitted descriptor, applies
its function to the first bytes of the source, writes the destination, and after that the record.
It may serve the jobs in any order and at any time.

What has become of one request is told from its four buffers, its descriptor, its record and its
job (`Slot`); operations of other requests do not touch them.
-/

namespace XMPGym

/-! ## Memory -/

/-- The contents of a buffer. -/
abbrev Bytes := List UInt8

/-- What a `prep_func` fills in. -/
structure Descriptor where
  srcAddr : ℕ
  dstAddr : ℕ
  completionAddr : ℕ
  xferSize : ℕ
  deriving DecidableEq, Repr

/-- `ax_input_size` as the 32-bit `xfer_size` of a descriptor. -/
def xferSize (axInputSize : ℤ) : ℕ := (axInputSize % 2 ^ 32).toNat

/-- A job of the accelerator. -/
inductive Job where
  | idle
  /-- submitted -/
  | queued (d : Descriptor)
  /-- the destination has been written -/
  | written
  deriving DecidableEq, Repr

/-- Buffers and descriptors by address, and for each completion record its status and the job that
will write it. -/
structure Memory where
  buffers : ℕ → Bytes
  descs : ℕ → Option Descriptor
  status : ℕ → ℕ
  jobs : ℕ → Job
  /-- `ts0` to `ts4` -/
  stamps : ℕ → ℕ → ℕ
  clock : ℕ

/-- The bytes `new` are written at the beginning of a buffer. -/
def overwrite (old new : Bytes) : Bytes := new ++ old.drop new.length

/-- The functions of the three phases on the contents of their buffers, and what the accelerator
computes. -/
structure Kernels where
  preProc : (input output : Bytes) → (inputSize : ℤ) → Bytes × ℤ
  ax : Bytes → Bytes
  axFunc : (input output : Bytes) → (inputSize maxOutputSize : ℤ) → Bytes × ℤ
  postProc : (input output : Bytes) → (inputSize maxOutputSize : ℤ) → Bytes × ℤ

/-- `ax_func` computes the accelerator's function. -/
def Kernels.AxFuncComputes (k : Kernels) : Prop :=
  ∀ input output inputSize maxOutputSize,
    (k.axFunc input output inputSize maxOutputSize).1 =
      overwrite output (k.ax (input.take (xferSize inputSize)))

namespace Memory

def setBuffer (m : Memory) (addr : ℕ) (bytes : Bytes) : Memory :=
  { m with buffers := Function.update m.buffers addr bytes }

/-- `prepare_iaa_decompress_desc_with_preallocated_comp` and its like: the descriptor is filled in
and the completion record is cleared. -/
def prep (m : Memory) (desc src dst comp : ℕ) (size : ℤ) : Memory :=
  { m with
    descs := Function.update m.descs desc (some ⟨src, dst, comp, xferSize size⟩)
    status := Function.update m.status comp compStatusPending }

/-- The descriptor goes to the accelerator. -/
def submit (m : Memory) (desc : ℕ) : Memory :=
  match m.descs desc with
  | some d => { m with jobs := Function.update m.jobs d.completionAddr (.queued d) }
  | none => m

/-- What the accelerator does on its own. -/
inductive AxMove where
  /-- the job of record `c` writes its destination -/
  | writes (c : ℕ)
  /-- the job of record `c` completes -/
  | completes (c : ℕ)
  | tick
  deriving DecidableEq, Repr

/-- A move of the accelerator, where it is possible. -/
def move (k : Kernels) (m : Memory) : AxMove → Option Memory
  | .writes c =>
      match m.jobs c with
      | .queued d => some
          { m.setBuffer d.dstAddr (overwrite (m.buffers d.dstAddr)
              (k.ax ((m.buffers d.srcAddr).take d.xferSize))) with
            jobs := Function.update m.jobs c .written }
      | _ => none
  | .completes c =>
      if m.jobs c = .written then
        some { m with
          status := Function.update m.status c compStatusCompleted
          jobs := Function.update m.jobs c .idle }
      else none
  | .tick => some { m with clock := m.clock + 1 }

/-- The accelerator as hardware. -/
def hardware (k : Kernels) : Hardware Memory :=
  ⟨status, clock, fun m m' => ∃ a, m.move k a = some m'⟩

/-- No job is under way and all records are pending. -/
structure Quiet (m : Memory) : Prop where
  pending : ∀ c, m.status c = compStatusPending
  idle : ∀ c, m.jobs c = .idle

end Memory

/-- The three phases on a memory.  `postOffload` is `spin_on`. -/
def Kernels.fns (k : Kernels) : ThreePhaseFns Memory where
  preProc input output inputSize m :=
    let r := k.preProc (m.buffers input) (m.buffers output) inputSize
    (m.setBuffer output r.1, r.2)
  prep desc src dst comp size m := m.prep desc src dst comp size
  submit desc m := m.submit desc
  postOffload comp m := m.status comp = compStatusPending
  axFunc input output inputSize maxOutputSize m :=
    let r := k.axFunc (m.buffers input) (m.buffers output) inputSize maxOutputSize
    (m.setBuffer output r.1, r.2)
  postProc input output inputSize maxOutputSize m :=
    let r := k.postProc (m.buffers input) (m.buffers output) inputSize maxOutputSize
    (m.setBuffer output r.1, r.2)
  stamp ts idx m :=
    { m with stamps := Function.update m.stamps ts (Function.update (m.stamps ts) idx m.clock) }

/-! ## The buffers of a request -/

/-- The four buffers. -/
inductive Buffer where
  | preProcInput
  | preProcOutput
  | axFuncOutput
  | postProcOutput
  deriving DecidableEq, Repr

/-- The address of a buffer. -/
def OffArgs.buffer (a : OffArgs) : Buffer → ℕ
  | .preProcInput => a.preProcInput
  | .preProcOutput => a.preProcOutput
  | .axFuncOutput => a.axFuncOutput
  | .postProcOutput => a.postProcOutput

/-- The contents of the four buffers. -/
abbrev View := Buffer → Bytes

def Memory.view (m : Memory) (a : OffArgs) : View := fun x => m.buffers (a.buffer x)

/-- The arguments of `N` requests that share nothing: their buffers are disjoint, their descriptors
differ, and request `i` has the record `comps[i]`. -/
structure Separate (N : ℕ) (args : ℕ → OffArgs) : Prop where
  buffer : ∀ i < N, ∀ j < N, ∀ x y, (args i).buffer x = (args j).buffer y → i = j ∧ x = y
  desc : ∀ i < N, ∀ j < N, (args i).desc = (args j).desc → i = j
  comp : ∀ i < N, (args i).comp = i

/-! ## What a request computes -/

namespace Kernels

variable (k : Kernels) (a : OffArgs) (v : View)

/-- `preproc_output_size` -/
def preprocOutputSize : ℤ :=
  (k.preProc (v .preProcInput) (v .preProcOutput) a.preProcInputSize).2

/-- After pre-processing. -/
def preProcessed : View :=
  Function.update v .preProcOutput
    (k.preProc (v .preProcInput) (v .preProcOutput) a.preProcInputSize).1

/-- After the accelerator function, applied to the first `size` bytes. -/
def accelerated (size : ℤ) : View :=
  Function.update v .axFuncOutput
    (overwrite (v .axFuncOutput) (k.ax ((v .preProcOutput).take (xferSize size))))

/-- After post-processing. -/
def postProcessed : View :=
  Function.update v .postProcOutput
    (k.postProc (v .axFuncOutput) (v .postProcOutput) a.postProcInputSize
      a.maxPostProcOutputSize).1

/-- Before post-processing, from the contents at the start. -/
def offloaded : View := k.accelerated (k.preProcessed a v) (k.preprocOutputSize a v)

/-- At the end, from the contents at the start. -/
def results : View := k.postProcessed a (k.offloaded a v)

/-- The descriptor that the request fills in. -/
def descriptor : Descriptor :=
  ⟨a.preProcOutput, a.axFuncOutput, a.comp, xferSize (k.preprocOutputSize a v)⟩

end Kernels

end XMPGym
