import XMPGym.CpuRequests
import XMPGym.GatherScatter

/-!
# Decompress and scatter

The allocators and requests of `src/decompress_and_scatter_request.cpp` on a heap that knows the
sizes of its blocks.  The compressed source of an offload request gets `input_size` bytes and its
decompressed destination gets `IAA_COMPRESS_MAX_DEST_SIZE`; the compressor is promised the second
size, and the indices of the scatter loop are bounded by the first.  The promise is an `int` when it
is made; the size is 2 MiB, and below 2^31 it is the same in any type.

The arrays of indices are kept beside the bytes, and the tables of pointers not at all.
-/

namespace XMPGym

/-! ## Blocks -/

/-- A heap with the size of the block at each address, and the arrays of indices. -/
structure BlockHeap extends ByteHeap where
  size : ℕ → ℕ
  indices : ℕ → List ℕ

namespace BlockHeap

/-- `malloc(n)` -/
def malloc (h : BlockHeap) (n : ℕ) : ℕ × BlockHeap :=
  (h.next, { h with
    toByteHeap := (h.toByteHeap.malloc n).2
    size := Function.update h.size h.next n })

/-- Bytes are written at an address. -/
def writeBytes (h : BlockHeap) (a : ℕ) (bs : List UInt8) : BlockHeap :=
  { h with mem := h.mem.writeBytes a bs }

/-- Blocks have been added since, and what was there has kept its size. -/
structure Extends (h h' : BlockHeap) : Prop where
  next : h.next ≤ h'.next
  size : ∀ a < h.next, h'.size a = h.size a
  indices : h'.indices = h.indices

variable {h h₁ h₂ : BlockHeap}

theorem Extends.refl (h : BlockHeap) : h.Extends h := ⟨Nat.le_refl _, fun _ _ => rfl, rfl⟩

theorem Extends.trans (h₁₂ : h.Extends h₁) (h₂₃ : h₁.Extends h₂) : h.Extends h₂ where
  next := Nat.le_trans h₁₂.next h₂₃.next
  size a ha := by
    rw [h₂₃.size a (Nat.lt_of_lt_of_le ha h₁₂.next), h₁₂.size a ha]
  indices := h₂₃.indices.trans h₁₂.indices

theorem extends_malloc (h : BlockHeap) (n : ℕ) : h.Extends (h.malloc n).2 where
  next := Nat.le_add_right _ _
  size _ ha := Function.update_of_ne (Nat.ne_of_lt ha) _ _
  indices := rfl

theorem extends_writeBytes (h : BlockHeap) (a : ℕ) (bs : List UInt8) :
    h.Extends (h.writeBytes a bs) := ⟨Nat.le_refl _, fun _ _ => rfl, rfl⟩

/-- There is a block of `n` bytes at `a`. -/
def Block (h : BlockHeap) (a n : ℕ) : Prop := a < h.next ∧ h.size a = n

theorem block_malloc (h : BlockHeap) {n : ℕ} (hn : 0 < n) : (h.malloc n).2.Block h.next n :=
  ⟨Nat.lt_add_of_pos_right hn, Function.update_self _ _ _⟩

theorem Block.extends {a n : ℕ} (hb : h.Block a n) (he : h.Extends h₁) : h₁.Block a n :=
  ⟨Nat.lt_of_lt_of_le hb.1 he.next, (he.size a hb.1).trans hb.2⟩

end BlockHeap

/-! ## Allocators -/

/-- The fields of `offload_request_args` that these requests use. -/
structure OffloadRequestArgs where
  comp : ℕ
  desc : ℕ
  id : ℕ
  srcPayload : ℕ
  srcSize : ℕ
  dstSize : ℕ
  dstPayload : ℕ
  /-- the array of indices -/
  auxPayload : ℕ
  deriving DecidableEq, Repr, Inhabited

/-- `timed_offload_request_args` -/
structure TimedOffloadRequestArgs extends OffloadRequestArgs where
  ts0 : ℕ
  ts1 : ℕ
  ts2 : ℕ
  ts3 : ℕ
  deriving DecidableEq, Repr, Inhabited

/-- A call of `gpcore_do_compress`: its buffers, and `*out_len` before it. -/
structure CompressCall where
  out : ℕ
  inp : Bytes
  outLen : ℤ
  deriving DecidableEq, Repr

/-- `if(glob_indir_arr == NULL) indirect_array_gen(&glob_indir_arr)`, where the generator would give
`generated`. -/
def ensureIndirArr (generated : List ℕ) (globIndirArr : Option ℕ) (h : BlockHeap) :
    ℕ × BlockHeap :=
  match globIndirArr with
  | some a => (a, h)
  | none =>
      let (a, h) := h.malloc (4 * generated.length)
      (a, { h with indices := Function.update h.indices a generated })

/-- What an allocator gives: the arguments of the requests, the calls it made of the compressor, and
the heap. -/
structure Allocated (α : Type) where
  args : ℕ → α
  calls : List CompressCall
  heap : BlockHeap

/-- The loop of an allocator, with `one` for the body. -/
def allocRequests {α : Type} (one : ℕ → BlockHeap → α × CompressCall × BlockHeap) :
    ℕ → (ℕ → α) → BlockHeap → Allocated α
  | 0, args, h => ⟨args, [], h⟩
  | n + 1, args, h =>
      let r := allocRequests one n args h
      let (a, call, h) := one n r.heap
      ⟨Function.update r.args n a, r.calls ++ [call], h⟩

section allocators

variable (maxDestSize inputSize : ℕ) (payload : Bytes) (compress : ℕ → List UInt8 × ℕ)

/-- A round of `alloc_offload_decomp_and_scatter_args`.  As with the other allocators, `compress i`
is what `gpcore_do_compress` writes in round `i` and leaves in `avail_out`. -/
def decompAndScatterArgs (indirArr i : ℕ) (h : BlockHeap) :
    OffloadRequestArgs × CompressCall × BlockHeap :=
  let availOut := toInt maxDestSize
  let (src, h) := h.malloc inputSize
  let call : CompressCall := ⟨src, payload, availOut⟩
  let (out, availOut) := compress i
  let h := h.writeBytes src out
  let (dst, h) := h.malloc maxDestSize
  -- `sizeof(struct hw_desc)`
  let (desc, h) := h.malloc 64
  ({ comp := i
     desc := desc
     id := i
     srcPayload := src
     srcSize := availOut
     dstSize := maxDestSize
     dstPayload := dst
     auxPayload := indirArr }, call, h)

/-- A round of `alloc_offload_decomp_and_scatter_args_timed`. -/
def decompAndScatterArgsTimed (ts0 ts1 ts2 ts3 indirArr i : ℕ) (h : BlockHeap) :
    TimedOffloadRequestArgs × CompressCall × BlockHeap :=
  let (a, call, h) := decompAndScatterArgs maxDestSize inputSize payload compress indirArr i h
  (⟨a, ts0, ts1, ts2, ts3⟩, call, h)

/-- A round of `cpu_compressed_payload_allocator`, with blocks and calls. -/
def cpuPayloadArgs (indirArr i : ℕ) (h : BlockHeap) : CpuInputs × CompressCall × BlockHeap :=
  let availOut := toInt maxDestSize
  let (src, h) := h.malloc maxDestSize
  let call : CompressCall := ⟨src, payload, availOut⟩
  let (out, availOut) := compress i
  let h := h.writeBytes src out
  let (dst, h) := h.malloc maxDestSize
  let (cell, h) := h.malloc 4
  let h := { h with mem := h.mem.store cell (UInt8.ofNat availOut) }
  (⟨src, dst, cell, some indirArr⟩, call, h)

variable (generated : List ℕ) (globIndirArr : Option ℕ) (totalRequests : ℕ)

/-- `alloc_offload_decomp_and_scatter_args` -/
def allocOffloadDecompAndScatterArgs (offArgs : ℕ → OffloadRequestArgs) (h : BlockHeap) :
    Allocated OffloadRequestArgs :=
  let (indirArr, h) := ensureIndirArr generated globIndirArr h
  allocRequests (decompAndScatterArgs maxDestSize inputSize payload compress indirArr)
    totalRequests offArgs h

/-- `alloc_offload_decomp_and_scatter_args_timed` -/
def allocOffloadDecompAndScatterArgsTimed (ts0 ts1 ts2 ts3 : ℕ)
    (offArgs : ℕ → TimedOffloadRequestArgs) (h : BlockHeap) : Allocated TimedOffloadRequestArgs :=
  let (indirArr, h) := ensureIndirArr generated globIndirArr h
  allocRequests
    (decompAndScatterArgsTimed maxDestSize inputSize payload compress ts0 ts1 ts2 ts3 indirArr)
    totalRequests offArgs h

/-- `cpu_compressed_payload_allocator`, with blocks and calls. -/
def cpuCompressedPayloadBlocks (inputs : ℕ → CpuInputs) (h : BlockHeap) : Allocated CpuInputs :=
  let (indirArr, h) := ensureIndirArr generated globIndirArr h
  allocRequests (cpuPayloadArgs maxDestSize payload compress indirArr) totalRequests inputs h

end allocators

/-! ## Requests -/

/-- The bytes of a `float`. -/
def floatBytes (x : FloatBits) : List UInt8 :=
  (List.range 4).map fun j => UInt8.ofNat (ByteMem.byteOf x.toNat j)

/-- `for(i ...) dst[indir_arr[i]] = 1.0`; `none` when the block of `dst` is left. -/
def scatterFloats (dst : ℕ) : List ℕ → BlockHeap → Option BlockHeap
  | [], h => some h
  | idx :: rest, h =>
      if 4 * idx + 4 ≤ h.size dst then
        scatterFloats dst rest (h.writeBytes (dst + 4 * idx) (floatBytes floatOne))
      else none

section requests

-- what the accelerator writes to the destination of a descriptor, and what becomes of memory until
-- the request goes on
variable (iaa : Descriptor → ByteMem → List UInt8) (meanwhile : ByteMem → ByteMem)

/-- The body of the offload requests. -/
def offloadAndScatter (args : OffloadRequestArgs) (h : BlockHeap) : Option BlockHeap :=
  let desc : Descriptor := ⟨args.srcPayload, args.dstPayload, args.comp, xferSize args.srcSize⟩
  let h := h.writeBytes desc.dstAddr (iaa desc h.mem)
  let h := { h with mem := meanwhile h.mem }
  scatterFloats args.dstPayload (h.indices args.auxPayload) h

/-- `blocking_decomp_and_scatter_request` -/
def blockingDecompAndScatterRequest (args : OffloadRequestArgs) : BlockHeap → Option BlockHeap :=
  offloadAndScatter iaa id args

/-- `blocking_decomp_and_scatter_request_stamped` -/
def blockingDecompAndScatterRequestStamped (args : TimedOffloadRequestArgs) :
    BlockHeap → Option BlockHeap :=
  offloadAndScatter iaa id args.toOffloadRequestArgs

/-- `yielding_decomp_and_scatter` -/
def yieldingDecompAndScatter (args : OffloadRequestArgs) : BlockHeap → Option BlockHeap :=
  offloadAndScatter iaa meanwhile args

/-- `yielding_decomp_and_scatter_stamped` -/
def yieldingDecompAndScatterStamped (args : TimedOffloadRequestArgs) :
    BlockHeap → Option BlockHeap :=
  offloadAndScatter iaa meanwhile args.toOffloadRequestArgs

variable (maxDestSize : ℕ) (inflate : DecompressArgs → ByteMem → List UInt8)

/-- The scatter loop of the CPU requests, after what was handed to `gpcore_do_decompress`. -/
def inflateAndScatter (decompress : ℕ → CpuInputs → ByteMem → DecompressArgs) (inputs : CpuInputs)
    (h : BlockHeap) : Option BlockHeap :=
  let args := decompress maxDestSize inputs h.mem
  let h := h.writeBytes args.dst (inflate args h.mem)
  inputs.input3.bind fun indirArr => scatterFloats args.dst (h.indices indirArr) h

/-- `cpu_decomp_and_scatter`, to its end. -/
def cpuDecompAndScatterRequest : CpuInputs → BlockHeap → Option BlockHeap :=
  inflateAndScatter maxDestSize inflate cpuDecompAndScatter

/-- `cpu_decomp_and_scatter_stamped`, to its end. -/
def cpuDecompAndScatterStampedRequest : CpuInputs → BlockHeap → Option BlockHeap :=
  inflateAndScatter maxDestSize inflate cpuDecompAndScatterStamped

end requests

/-! ## What the allocators give -/

section allocated

variable {α : Type}

/-- No call of the compressor is promised more than its buffer has. -/
def Allocated.CallsFit (r : Allocated α) : Prop := ∀ c ∈ r.calls, c.outLen ≤ r.heap.size c.out

/-- None of the requests leaves the block of its destination, whatever the bytes of memory are. -/
def Allocated.Stays (r : Allocated α) (totalRequests : ℕ)
    (reqs : List (α → BlockHeap → Option BlockHeap)) : Prop :=
  ∀ i < totalRequests, ∀ mem, ∀ req ∈ reqs, (req (r.args i) { r.heap with mem := mem }).isSome

/-- A round gives blocks of `srcSize` and `dstSize` bytes, and promises `outLen` bytes of the
first. -/
structure GivesBlocks (srcSize dstSize : ℕ) (outLen : ℤ) (src dst : α → ℕ)
    (one : ℕ → BlockHeap → α × CompressCall × BlockHeap) : Prop where
  grows : ∀ i (h : BlockHeap), h.Extends (one i h).2.2
  srcBlock : ∀ i h, (one i h).2.2.Block (src (one i h).1) srcSize
  dstBlock : ∀ i h, (one i h).2.2.Block (dst (one i h).1) dstSize
  call : ∀ i h, (one i h).2.1.out = src (one i h).1 ∧ (one i h).2.1.outLen = outLen

variable {srcSize dstSize : ℕ} {outLen : ℤ} {src dst : α → ℕ}
  {one : ℕ → BlockHeap → α × CompressCall × BlockHeap}

/-- What all rounds give, all requests have. -/
theorem allocRequests_forall {P : α → Prop} (hone : ∀ i h, P (one i h).1) (args : ℕ → α)
    (h : BlockHeap) {n i : ℕ} (hi : i < n) : P ((allocRequests one n args h).args i) := by
  induction n with
  | zero => omega
  | succ n ih =>
      simp only [allocRequests]
      by_cases hlast : i = n
      · rw [hlast, Function.update_self]
        exact hone n _
      · rw [Function.update_of_ne hlast]
        exact ih (by omega)

/-- The blocks of the rounds are kept to the end. -/
theorem GivesBlocks.run (hone : GivesBlocks srcSize dstSize outLen src dst one)
    (args : ℕ → α) (h : BlockHeap) (n : ℕ) :
    h.Extends (allocRequests one n args h).heap ∧
      (∀ i < n, (allocRequests one n args h).heap.Block
        (dst ((allocRequests one n args h).args i)) dstSize) ∧
      (allocRequests one n args h).calls.length = n ∧
      ∀ c ∈ (allocRequests one n args h).calls,
        (allocRequests one n args h).heap.Block c.out srcSize ∧ c.outLen = outLen := by
  induction n with
  | zero => exact ⟨.refl h, by omega, rfl, fun c hc => absurd hc List.not_mem_nil⟩
  | succ n ih =>
      obtain ⟨hext, hdst, hlen, hcalls⟩ := ih
      simp only [allocRequests]
      generalize allocRequests one n args h = r at hext hdst hlen hcalls
      have hnext := hone.grows n r.heap
      refine ⟨hext.trans hnext, fun i hi => ?_, by simp [hlen], fun c hc => ?_⟩
      · by_cases hlast : i = n
        · rw [hlast, Function.update_self]
          exact hone.dstBlock n r.heap
        · rw [Function.update_of_ne hlast]
          exact (hdst i (by omega)).extends hnext
      · rcases List.mem_append.1 hc with hc | hc
        · exact ⟨(hcalls c hc).1.extends hnext, (hcalls c hc).2⟩
        · obtain rfl := List.mem_singleton.1 hc
          obtain ⟨hout, hlen⟩ := hone.call n r.heap
          exact ⟨hout ▸ hone.srcBlock n r.heap, hlen⟩

/-- The calls of an allocator fit if and only if its promise does. -/
theorem GivesBlocks.callsFit_iff (hone : GivesBlocks srcSize dstSize outLen src dst one)
    (args : ℕ → α) (h : BlockHeap) {n : ℕ} (hn : 0 < n) :
    (allocRequests one n args h).CallsFit ↔ outLen ≤ srcSize := by
  obtain ⟨-, -, hlen, hcalls⟩ := hone.run args h n
  constructor
  · intro hfit
    have hne := List.ne_nil_of_length_pos (hlen.symm ▸ hn)
    obtain ⟨c, hc⟩ := List.exists_mem_of_ne_nil _ hne
    have := hfit c hc
    rwa [(hcalls c hc).1.2, (hcalls c hc).2] at this
  · intro hle c hc
    rwa [(hcalls c hc).1.2, (hcalls c hc).2]

end allocated

section rounds

variable {maxDestSize inputSize : ℕ} {payload : Bytes} {compress : ℕ → List UInt8 × ℕ}
  {indirArr : ℕ}

theorem givesBlocks_decompAndScatterArgs (hM : 0 < maxDestSize) (hsize : 0 < inputSize) :
    GivesBlocks inputSize maxDestSize (toInt maxDestSize) OffloadRequestArgs.srcPayload
      OffloadRequestArgs.dstPayload
      (decompAndScatterArgs maxDestSize inputSize payload compress indirArr) := by
  have grows (i : ℕ) (h : BlockHeap) :
      let src := h.malloc inputSize
      let out := src.2.writeBytes src.1 (compress i).1
      let dst := out.malloc maxDestSize
      h.Extends src.2 ∧ src.2.Extends dst.2 ∧ dst.2.Extends (dst.2.malloc 64).2 :=
    ⟨BlockHeap.extends_malloc _ _,
      (BlockHeap.extends_writeBytes _ _ _).trans (BlockHeap.extends_malloc _ _),
      BlockHeap.extends_malloc _ _⟩
  refine ⟨fun i h => ?_, fun i h => ?_, fun i h => ?_, fun i h => ⟨rfl, rfl⟩⟩
  · obtain ⟨hsrc, hdst, hdesc⟩ := grows i h
    exact hsrc.trans (hdst.trans hdesc)
  · obtain ⟨-, hdst, hdesc⟩ := grows i h
    exact (BlockHeap.block_malloc h hsize).extends (hdst.trans hdesc)
  · obtain ⟨-, -, hdesc⟩ := grows i h
    exact (BlockHeap.block_malloc _ hM).extends hdesc

theorem givesBlocks_decompAndScatterArgsTimed (hM : 0 < maxDestSize) (hsize : 0 < inputSize)
    (ts0 ts1 ts2 ts3 : ℕ) :
    GivesBlocks inputSize maxDestSize (toInt maxDestSize)
      (TimedOffloadRequestArgs.toOffloadRequestArgs · |>.srcPayload)
      (TimedOffloadRequestArgs.toOffloadRequestArgs · |>.dstPayload)
      (decompAndScatterArgsTimed maxDestSize inputSize payload compress ts0 ts1 ts2 ts3
        indirArr) := by
  have hone : GivesBlocks inputSize maxDestSize (toInt maxDestSize) OffloadRequestArgs.srcPayload
      OffloadRequestArgs.dstPayload
      (decompAndScatterArgs maxDestSize inputSize payload compress indirArr) :=
    givesBlocks_decompAndScatterArgs hM hsize
  exact ⟨hone.grows, hone.srcBlock, hone.dstBlock, hone.call⟩

theorem givesBlocks_cpuPayloadArgs (hM : 0 < maxDestSize) :
    GivesBlocks maxDestSize maxDestSize (toInt maxDestSize) CpuInputs.input0 CpuInputs.input1
      (cpuPayloadArgs maxDestSize payload compress indirArr) := by
  have grows (i : ℕ) (h : BlockHeap) :
      let src := h.malloc maxDestSize
      let out := src.2.writeBytes src.1 (compress i).1
      let dst := out.malloc maxDestSize
      h.Extends src.2 ∧ src.2.Extends dst.2 ∧
        dst.2.Extends (cpuPayloadArgs maxDestSize payload compress indirArr i h).2.2 :=
    ⟨BlockHeap.extends_malloc _ _,
      (BlockHeap.extends_writeBytes _ _ _).trans (BlockHeap.extends_malloc _ _),
      (BlockHeap.extends_malloc _ _).trans ⟨Nat.le_refl _, fun _ _ => rfl, rfl⟩⟩
  refine ⟨fun i h => ?_, fun i h => ?_, fun i h => ?_, fun i h => ⟨rfl, rfl⟩⟩
  · obtain ⟨hsrc, hdst, hcell⟩ := grows i h
    exact hsrc.trans (hdst.trans hcell)
  · obtain ⟨-, hdst, hcell⟩ := grows i h
    exact (BlockHeap.block_malloc h hM).extends (hdst.trans hcell)
  · obtain ⟨-, -, hcell⟩ := grows i h
    exact (BlockHeap.block_malloc _ hM).extends hcell

end rounds

/-! ## The scatter loop -/

theorem scatterFloats_isSome_iff {dst : ℕ} {l : List ℕ} {h : BlockHeap} :
    (scatterFloats dst l h).isSome ↔ ∀ idx ∈ l, 4 * idx + 4 ≤ h.size dst := by
  induction l generalizing h with
  | nil => simp [scatterFloats]
  | cons x xs ih =>
      rw [List.forall_mem_cons, scatterFloats]
      by_cases hx : 4 * x + 4 ≤ h.size dst
      · rw [if_pos hx, ih]
        simp [hx, BlockHeap.writeBytes]
      · simp [hx]

/-- A request scatters through the array of indices `aux` into the block at `dst`. -/
def Scatters {α : Type} (dst : α → ℕ) (aux : α → Option ℕ)
    (req : α → BlockHeap → Option BlockHeap) : Prop :=
  ∀ a h, (req a h).isSome ↔
    ∃ indirArr, aux a = some indirArr ∧ ∀ idx ∈ h.indices indirArr, 4 * idx + 4 ≤ h.size (dst a)

theorem scatters_offloadAndScatter (iaa : Descriptor → ByteMem → List UInt8)
    (meanwhile : ByteMem → ByteMem) :
    Scatters OffloadRequestArgs.dstPayload (some ·.auxPayload)
      (offloadAndScatter iaa meanwhile) := by
  intro a h
  unfold offloadAndScatter
  rw [scatterFloats_isSome_iff]
  simp [BlockHeap.writeBytes]

theorem scatters_inflateAndScatter (maxDestSize : ℕ)
    (inflate : DecompressArgs → ByteMem → List UInt8) :
    Scatters CpuInputs.input1 CpuInputs.input3
      (inflateAndScatter maxDestSize inflate decompressInputs) := by
  intro inputs h
  unfold inflateAndScatter
  cases inputs.input3 with
  | none => simp
  | some indirArr => simp [scatterFloats_isSome_iff, BlockHeap.writeBytes, decompressInputs]

/-- Requests stay in their destinations if and only if all indices do. -/
theorem GivesBlocks.stays_iff {α : Type} {srcSize dstSize : ℕ} {outLen : ℤ} {src dst : α → ℕ}
    {one : ℕ → BlockHeap → α × CompressCall × BlockHeap} {indirArr n : ℕ} {l : List ℕ}
    {h : BlockHeap} {reqs : List (α → BlockHeap → Option BlockHeap)}
    (hone : GivesBlocks srcSize dstSize outLen src dst one) (aux : α → Option ℕ)
    (haux : ∀ i h, aux (one i h).1 = some indirArr) (hl : h.indices indirArr = l) (hne : reqs ≠ [])
    (hreqs : ∀ req ∈ reqs, Scatters dst aux req) (args : ℕ → α) (hn : 0 < n) :
    (allocRequests one n args h).Stays n reqs ↔ ∀ idx ∈ l, 4 * idx + 4 ≤ dstSize := by
  obtain rfl := hl
  obtain ⟨hext, hdst, -, -⟩ := hone.run args h n
  have hstays {i : ℕ} (hi : i < n) (mem : ByteMem) {req : α → BlockHeap → Option BlockHeap}
      (hreq : req ∈ reqs) :
      (req ((allocRequests one n args h).args i)
        { (allocRequests one n args h).heap with mem := mem }).isSome ↔
        ∀ idx ∈ h.indices indirArr, 4 * idx + 4 ≤ dstSize := by
    have hsome := allocRequests_forall (P := fun a => aux a = some indirArr) haux args h hi
    rw [hreqs req hreq _ _]
    simp [hsome, hext.indices, (hdst i hi).2]
  constructor
  · intro hall
    obtain ⟨req, hreq⟩ := List.exists_mem_of_ne_nil reqs hne
    exact (hstays hn (fun _ => 0) hreq).1 (hall 0 hn _ req hreq)
  · intro hle i hi mem req hreq
    exact (hstays hi mem hreq).2 hle

theorem ensureIndirArr_indices {generated : List ℕ} {globIndirArr : Option ℕ} {h : BlockHeap}
    (hglob : ∀ a ∈ globIndirArr, h.indices a = generated) :
    (ensureIndirArr generated globIndirArr h).2.indices
      (ensureIndirArr generated globIndirArr h).1 = generated := by
  cases globIndirArr with
  | none => exact Function.update_self _ _ _
  | some a => exact hglob a rfl

section allocators

variable {maxDestSize inputSize totalRequests : ℕ} {generated : List ℕ} {globIndirArr : Option ℕ}
  {h : BlockHeap} (payload : Bytes) (compress : ℕ → List UInt8 × ℕ)

theorem allocOffload_callsFit_iff (hM : 0 < maxDestSize) (hsize : 0 < inputSize)
    (hN : 0 < totalRequests) (offArgs : ℕ → OffloadRequestArgs) :
    (allocOffloadDecompAndScatterArgs maxDestSize inputSize payload compress generated globIndirArr
      totalRequests offArgs h).CallsFit ↔ toInt maxDestSize ≤ inputSize :=
  (givesBlocks_decompAndScatterArgs hM hsize).callsFit_iff _ _ hN

theorem allocOffloadTimed_callsFit_iff (hM : 0 < maxDestSize) (hsize : 0 < inputSize)
    (hN : 0 < totalRequests) (ts0 ts1 ts2 ts3 : ℕ) (timedArgs : ℕ → TimedOffloadRequestArgs) :
    (allocOffloadDecompAndScatterArgsTimed maxDestSize inputSize payload compress generated
      globIndirArr totalRequests ts0 ts1 ts2 ts3 timedArgs h).CallsFit ↔
        toInt maxDestSize ≤ inputSize :=
  (givesBlocks_decompAndScatterArgsTimed hM hsize ts0 ts1 ts2 ts3).callsFit_iff _ _ hN

variable (hglob : ∀ a ∈ globIndirArr, h.indices a = generated)
include hglob

theorem allocOffload_stays_iff (hM : 0 < maxDestSize) (hsize : 0 < inputSize)
    (hN : 0 < totalRequests) (offArgs : ℕ → OffloadRequestArgs)
    (iaa : Descriptor → ByteMem → List UInt8) (meanwhile : ByteMem → ByteMem) :
    (allocOffloadDecompAndScatterArgs maxDestSize inputSize payload compress generated globIndirArr
      totalRequests offArgs h).Stays totalRequests
        [blockingDecompAndScatterRequest iaa, yieldingDecompAndScatter iaa meanwhile] ↔
      ∀ idx ∈ generated, 4 * idx + 4 ≤ maxDestSize := by
  refine (givesBlocks_decompAndScatterArgs hM hsize).stays_iff (some ·.auxPayload) (fun _ _ => rfl)
    (ensureIndirArr_indices hglob) (List.cons_ne_nil _ _) (fun req hreq => ?_) _ hN
  simp only [List.mem_cons, List.not_mem_nil, or_false] at hreq
  rcases hreq with rfl | rfl
  · exact scatters_offloadAndScatter iaa id
  · exact scatters_offloadAndScatter iaa meanwhile

theorem allocOffloadTimed_stays_iff (hM : 0 < maxDestSize) (hsize : 0 < inputSize)
    (hN : 0 < totalRequests) (ts0 ts1 ts2 ts3 : ℕ) (timedArgs : ℕ → TimedOffloadRequestArgs)
    (iaa : Descriptor → ByteMem → List UInt8) (meanwhile : ByteMem → ByteMem) :
    (allocOffloadDecompAndScatterArgsTimed maxDestSize inputSize payload compress generated
      globIndirArr totalRequests ts0 ts1 ts2 ts3 timedArgs h).Stays totalRequests
        [blockingDecompAndScatterRequestStamped iaa,
          yieldingDecompAndScatterStamped iaa meanwhile] ↔
      ∀ idx ∈ generated, 4 * idx + 4 ≤ maxDestSize := by
  refine (givesBlocks_decompAndScatterArgsTimed hM hsize ts0 ts1 ts2 ts3).stays_iff
    (some ·.auxPayload) (fun _ _ => rfl) (ensureIndirArr_indices hglob) (List.cons_ne_nil _ _)
    (fun req hreq => ?_) _ hN
  simp only [List.mem_cons, List.not_mem_nil, or_false] at hreq
  rcases hreq with rfl | rfl
  · exact fun a => scatters_offloadAndScatter iaa id a.1
  · exact fun a => scatters_offloadAndScatter iaa meanwhile a.1

theorem cpuCompressedPayloadBlocks_stays_iff (hM : 0 < maxDestSize) (hN : 0 < totalRequests)
    (inputs : ℕ → CpuInputs) (inflate : DecompressArgs → ByteMem → List UInt8) :
    (cpuCompressedPayloadBlocks maxDestSize payload compress generated globIndirArr totalRequests
      inputs h).Stays totalRequests
        [cpuDecompAndScatterRequest maxDestSize inflate,
          cpuDecompAndScatterStampedRequest maxDestSize inflate] ↔
      ∀ idx ∈ generated, 4 * idx + 4 ≤ maxDestSize := by
  refine (givesBlocks_cpuPayloadArgs hM).stays_iff CpuInputs.input3 (fun _ _ => rfl)
    (ensureIndirArr_indices hglob) (List.cons_ne_nil _ _) (fun req hreq => ?_) _ hN
  simp only [List.mem_cons, List.not_mem_nil, or_false] at hreq
  rcases hreq with rfl | rfl
  · exact scatters_inflateAndScatter maxDestSize inflate
  · exact scatters_inflateAndScatter maxDestSize inflate

end allocators

/-- The indices below `ents` of all arrays of a length are in a block of floats if and only if there
are none or the block has `ents` floats. -/
theorem forall_indices_iff {ents numAccesses size : ℕ} (hpos : 0 < ents) :
    (∀ l : List ℕ, l.length = numAccesses → (∀ idx ∈ l, idx < ents) →
        ∀ idx ∈ l, 4 * idx + 4 ≤ size) ↔ numAccesses = 0 ∨ 4 * ents ≤ size := by
  constructor
  · intro hall
    by_cases hzero : numAccesses = 0
    · exact .inl hzero
    · right
      have := hall (List.replicate numAccesses (ents - 1)) List.length_replicate
        (fun idx hidx => by rw [List.eq_of_mem_replicate hidx]; omega) (ents - 1)
        (List.mem_replicate.2 ⟨hzero, rfl⟩)
      omega
  · rintro (rfl | hle) l hlen hin idx hidx
    · rw [List.length_eq_zero_iff.1 hlen] at hidx
      exact absurd hidx List.not_mem_nil
    · have := hin idx hidx
      omega

/-- For all indices below the number of floats in the input, the compressor is promised no more than
there is and the scatter loops stay in the destination, if and only if the fixed size is at most the
size of the input and, where there are accesses, has room for all its floats. -/
theorem decompAndScatter_room_iff (maxDestSize inputSize numAccesses totalRequests : ℕ)
    (hM : 0 < maxDestSize) (hsize : 4 ≤ inputSize) (hN : 0 < totalRequests) (payload : Bytes)
    (compress : ℕ → List UInt8 × ℕ) (iaa : Descriptor → ByteMem → List UInt8)
    (meanwhile : ByteMem → ByteMem) (inflate : DecompressArgs → ByteMem → List UInt8)
    (ts0 ts1 ts2 ts3 : ℕ) (offArgs : ℕ → OffloadRequestArgs)
    (timedArgs : ℕ → TimedOffloadRequestArgs) (inputs : ℕ → CpuInputs) :
    (∀ generated : List ℕ, generated.length = numAccesses →
      (∀ idx ∈ generated, idx < numFeatureEnt inputSize) →
      ∀ (h : BlockHeap) (globIndirArr : Option ℕ),
      (∀ a ∈ globIndirArr, h.indices a = generated) →
      let off := allocOffloadDecompAndScatterArgs maxDestSize inputSize payload compress generated
        globIndirArr totalRequests offArgs h
      let timed := allocOffloadDecompAndScatterArgsTimed maxDestSize inputSize payload compress
        generated globIndirArr totalRequests ts0 ts1 ts2 ts3 timedArgs h
      let cpu := cpuCompressedPayloadBlocks maxDestSize payload compress generated globIndirArr
        totalRequests inputs h
      off.CallsFit ∧ timed.CallsFit ∧
        off.Stays totalRequests
          [blockingDecompAndScatterRequest iaa, yieldingDecompAndScatter iaa meanwhile] ∧
        timed.Stays totalRequests
          [blockingDecompAndScatterRequestStamped iaa,
            yieldingDecompAndScatterStamped iaa meanwhile] ∧
        cpu.Stays totalRequests
          [cpuDecompAndScatterRequest maxDestSize inflate,
            cpuDecompAndScatterStampedRequest maxDestSize inflate]) ↔
      toInt maxDestSize ≤ inputSize ∧
        (numAccesses = 0 ∨ 4 * numFeatureEnt inputSize ≤ maxDestSize) := by
  have hents : 0 < numFeatureEnt inputSize := by
    unfold numFeatureEnt
    omega
  have hinput : 0 < inputSize := by omega
  rw [← forall_indices_iff hents]
  constructor
  · intro hall
    have h : BlockHeap := ⟨⟨0, fun _ => 0⟩, fun _ => 0, fun _ => []⟩
    have hnull (l : List ℕ) : ∀ a ∈ (none : Option ℕ), h.indices a = l := nofun
    refine ⟨?_, fun l hlen hin => ?_⟩
    · obtain ⟨hoff, -⟩ := hall (List.replicate numAccesses 0) List.length_replicate
        (fun idx hidx => by rwa [List.eq_of_mem_replicate hidx]) h none (hnull _)
      exact (allocOffload_callsFit_iff payload compress hM hinput hN offArgs).1 hoff
    · obtain ⟨-, -, hoff, -⟩ := hall l hlen hin h none (hnull l)
      exact (allocOffload_stays_iff payload compress (hnull l) hM hinput hN offArgs iaa
        meanwhile).1 hoff
  · rintro ⟨hle, hin⟩ generated hlen hlt h globIndirArr hglob
    have hidx := hin generated hlen hlt
    refine ⟨?_, ?_, ?_, ?_, ?_⟩
    · exact (allocOffload_callsFit_iff payload compress hM hinput hN offArgs).2 hle
    · exact (allocOffloadTimed_callsFit_iff payload compress hM hinput hN ts0 ts1 ts2 ts3
        timedArgs).2 hle
    · exact (allocOffload_stays_iff payload compress hglob hM hinput hN offArgs iaa
        meanwhile).2 hidx
    · exact (allocOffloadTimed_stays_iff payload compress hglob hM hinput hN ts0 ts1 ts2 ts3
        timedArgs iaa meanwhile).2 hidx
    · exact (cpuCompressedPayloadBlocks_stays_iff payload compress hglob hM hN inputs
        inflate).2 hidx

/-- Sixteen kilobytes on both sides, for two requests of ten accesses. -/
theorem decompAndScatter_room_equal :
    (allocOffloadDecompAndScatterArgs 16384 16384 (List.replicate 16384 47)
      (fun _ => (List.replicate 40 7, 40)) (List.replicate 10 4095) none 2 default
      ⟨⟨8, fun _ => 0⟩, fun _ => 0, fun _ => []⟩).CallsFit :=
  ((decompAndScatter_room_iff 16384 16384 10 2 (by decide) (by decide) (by decide)
    (List.replicate 16384 47) (fun _ => (List.replicate 40 7, 40)) (fun _ _ => []) id
    (fun _ _ => []) 0 0 0 0 default default default).2 (by decide) (List.replicate 10 4095)
    (by decide) (by decide) ⟨⟨8, fun _ => 0⟩, fun _ => 0, fun _ => []⟩ none nofun).1

/-- With two megabytes as the fixed size and the input size that the programs start with, the
compressor is promised 2097152 bytes of a block of 16384.  With an input of four megabytes, the last
index is past the end of the destination. -/
theorem decompAndScatter_no_room :
    let h : BlockHeap := ⟨⟨8, fun _ => 0⟩, fun _ => 0, fun _ => []⟩
    let small := allocOffloadDecompAndScatterArgs 2097152 16384 (List.replicate 16384 47)
      (fun _ => ([], 0)) [4095] none 1 default h
    let large := allocOffloadDecompAndScatterArgs 2097152 4194304 (List.replicate 4194304 47)
      (fun _ => ([], 0)) [1048575] none 1 default h
    small.calls.map (fun c => (c.outLen, small.heap.size c.out)) = [(2097152, 16384)] ∧
      ¬ small.CallsFit ∧ 1048575 < numFeatureEnt 4194304 ∧
      blockingDecompAndScatterRequest (fun _ _ => []) (large.args 0) large.heap = none := by
  unfold Allocated.CallsFit
  decide +kernel

end XMPGym
