import XMPGym.Lib.ByteMem
import XMPGym.Zlib

/-!
# Requests that decompress on the CPU

The inputs of these requests and what they read of them: `compressed_mc_req_allocator` with
`cpu_decompress_and_hash` (`src/decompress_and_hash_request.cpp`), and
`cpu_compressed_payload_allocator` with `cpu_decomp_and_scatter`
(`src/decompress_and_scatter_request.cpp`).  The size of the compressed payload goes from the
allocator to the request through a cell of four bytes, of which one is written.

The heap gives out blocks that do not overlap, with any contents.  The tables of pointers are not
kept in it.
-/

namespace XMPGym

/-- Memory in bytes, in use up to `next`. -/
structure ByteHeap where
  next : ℕ
  mem : ByteMem

/-- `malloc(size)` -/
def ByteHeap.malloc (h : ByteHeap) (size : ℕ) : ℕ × ByteHeap :=
  (h.next, { h with next := h.next + size })

/-- The pointers `inputs[0]` and so on. -/
structure CpuInputs where
  input0 : ℕ
  input1 : ℕ
  input2 : ℕ
  /-- the indirection array of the scatter requests -/
  input3 : Option ℕ
  deriving DecidableEq, Repr, Inhabited

/-! ## Allocators -/

section allocators

variable (maxDestSize : ℕ) (compress : ℕ → List UInt8 × ℕ)

/-- One round of the loop of the two allocators.  `compress i` is what `gpcore_do_compress` writes
to the payload of request `i` and leaves in `avail_out`. -/
def cpuInputs (indirArr : Option ℕ) (i : ℕ) (h : ByteHeap) : CpuInputs × ByteHeap :=
  let (payload, h) := h.malloc maxDestSize
  let (out, availOut) := compress i
  let h := { h with mem := h.mem.writeBytes payload out }
  let (dst, h) := h.malloc maxDestSize
  let (cell, h) := h.malloc 4
  -- `*(inputs[2]) = avail_out`, where `inputs[2]` is a `char *`
  let h := { h with mem := h.mem.store cell (UInt8.ofNat availOut) }
  (⟨payload, dst, cell, indirArr⟩, h)

/-- The loop of the two allocators. -/
def cpuPayloads (indirArr : Option ℕ) : ℕ → (ℕ → CpuInputs) → ByteHeap →
    (ℕ → CpuInputs) × ByteHeap
  | 0, inputs, h => (inputs, h)
  | n + 1, inputs, h =>
      let (inputs, h) := cpuPayloads indirArr n inputs h
      let (one, h) := cpuInputs maxDestSize compress indirArr n h
      (Function.update inputs n one, h)

/-- `compressed_mc_req_allocator` -/
def compressedMcReqAllocator : ℕ → (ℕ → CpuInputs) → ByteHeap → (ℕ → CpuInputs) × ByteHeap :=
  cpuPayloads maxDestSize compress none

/-- `cpu_compressed_payload_allocator` -/
def cpuCompressedPayloadAllocator (globIndirArr : ℕ) :
    ℕ → (ℕ → CpuInputs) → ByteHeap → (ℕ → CpuInputs) × ByteHeap :=
  cpuPayloads maxDestSize compress (some globIndirArr)

end allocators

/-! ## Requests -/

/-- Four bytes as an `int`. -/
def loadInt (m : ByteMem) (a : ℕ) : ℤ := toInt (m.load a 4)

/-- What a request hands to `gpcore_do_decompress`. -/
structure DecompressArgs where
  dst : ℕ
  src : ℕ
  compressedSize : ℤ
  decompressedSize : ℕ
  deriving DecidableEq, Repr

section requests

variable (maxDestSize : ℕ) (inputs : CpuInputs) (m : ByteMem)

/-- `gpcore_do_decompress(dst1, src1, compressed_size, &decompressed_size)` -/
def decompressInputs : DecompressArgs where
  src := inputs.input0
  dst := inputs.input1
  compressedSize := loadInt m inputs.input2
  decompressedSize := maxDestSize

/-- `cpu_decompress_and_hash` -/
def cpuDecompressAndHash : DecompressArgs := decompressInputs maxDestSize inputs m

/-- `cpu_decompress_and_hash_stamped` -/
def cpuDecompressAndHashStamped : DecompressArgs := decompressInputs maxDestSize inputs m

/-- `cpu_decomp_and_scatter` -/
def cpuDecompAndScatter : DecompressArgs := decompressInputs maxDestSize inputs m

/-- `cpu_decomp_and_scatter_stamped` -/
def cpuDecompAndScatterStamped : DecompressArgs := decompressInputs maxDestSize inputs m

end requests

/-! ## The cell -/

section cell

variable {maxDestSize : ℕ} {compress : ℕ → List UInt8 × ℕ} {indirArr : Option ℕ}

/-- An `int` that is not negative is loaded exactly where its bytes are. -/
theorem loadInt_eq_iff {m : ByteMem} {a n : ℕ} (hn : n < 2 ^ 31) :
    loadInt m a = n ↔ ∀ j < 4, (m (a + j)).toNat = ByteMem.byteOf n j := by
  have hlt := m.load_lt a 4
  rw [← ByteMem.load_eq_iff (by omega)]
  unfold loadInt toInt
  rw [Nat.mod_eq_of_lt (by omega)]
  by_cases hpos : m.load a 4 < 2 ^ 31
  · rw [if_pos hpos]
    omega
  · rw [if_neg hpos]
    omega

/-- The cell is the last block of a round. -/
theorem cell_cpuInputs (i : ℕ) (h : ByteHeap) :
    (cpuInputs maxDestSize compress indirArr i h).1.input2 = h.next + 2 * maxDestSize ∧
      (cpuInputs maxDestSize compress indirArr i h).2.next = h.next + 2 * maxDestSize + 4 := by
  simp only [cpuInputs, ByteHeap.malloc]
  omega

/-- A round writes one byte of its cell, and its payload below it. -/
theorem mem_cpuInputs (hfit : ∀ i, (compress i).1.length ≤ maxDestSize) (i : ℕ) (h : ByteHeap)
    {x : ℕ} (hx : x < h.next ∨ h.next + 2 * maxDestSize ≤ x) :
    (cpuInputs maxDestSize compress indirArr i h).2.mem x =
      if x = h.next + 2 * maxDestSize then UInt8.ofNat (compress i).2 else h.mem x := by
  have hlen := hfit i
  simp only [cpuInputs, ByteHeap.malloc, Nat.add_assoc, ← Nat.two_mul]
  by_cases hcell : x = h.next + 2 * maxDestSize
  · rw [if_pos hcell, hcell, ByteMem.store_self]
  · rw [if_neg hcell, ByteMem.store_of_ne hcell]
    exact ByteMem.writeBytes_of_outside _ (by omega)

/-- What the loop leaves of the heap: nothing is written above it, and of each cell the first byte
is written. -/
theorem cpuPayloads_cell (hfit : ∀ i, (compress i).1.length ≤ maxDestSize)
    (inputs : ℕ → CpuInputs) (h : ByteHeap) (N : ℕ) :
    (∀ x, (cpuPayloads maxDestSize compress indirArr N inputs h).2.next ≤ x →
      (cpuPayloads maxDestSize compress indirArr N inputs h).2.mem x = h.mem x) ∧
    ∀ i < N,
      ((cpuPayloads maxDestSize compress indirArr N inputs h).1 i).input2 + 4 ≤
        (cpuPayloads maxDestSize compress indirArr N inputs h).2.next ∧
      ∀ j < 4,
        (cpuPayloads maxDestSize compress indirArr N inputs h).2.mem
            (((cpuPayloads maxDestSize compress indirArr N inputs h).1 i).input2 + j) =
          if j = 0 then UInt8.ofNat (compress i).2
          else h.mem
            (((cpuPayloads maxDestSize compress indirArr N inputs h).1 i).input2 + j) := by
  induction N with
  | zero => exact ⟨fun x _ => rfl, fun i hi => absurd hi (Nat.not_lt_zero i)⟩
  | succ N ih =>
      obtain ⟨habove, hcells⟩ := ih
      unfold cpuPayloads
      generalize cpuPayloads maxDestSize compress indirArr N inputs h = r at habove hcells
      obtain ⟨inputs', h'⟩ := r
      obtain ⟨hcell, hnext⟩ : (cpuInputs maxDestSize compress indirArr N h').1.input2 = _ ∧
          (cpuInputs maxDestSize compress indirArr N h').2.next = _ := cell_cpuInputs N h'
      have hmem : ∀ x, x < h'.next ∨ h'.next + 2 * maxDestSize ≤ x →
          (cpuInputs maxDestSize compress indirArr N h').2.mem x = _ :=
        fun x => mem_cpuInputs hfit N h'
      simp only at habove hcells ⊢
      refine ⟨fun x hx => ?_, fun i hi => ?_⟩
      · rw [hmem _ (by omega), if_neg (by omega)]
        exact habove x (by omega)
      · by_cases hlast : i = N
        · rw [hlast, Function.update_self]
          refine ⟨by omega, fun j hj => ?_⟩
          rw [hmem _ (by omega)]
          by_cases hzero : j = 0
          · rw [if_pos hzero, if_pos (by omega)]
          · rw [if_neg hzero, if_neg (by omega)]
            exact habove _ (by omega)
        · rw [Function.update_of_ne hlast]
          obtain ⟨hbelow, hbytes⟩ := hcells i (by omega)
          refine ⟨by omega, fun j hj => ?_⟩
          rw [hmem _ (by omega), if_neg (by omega)]
          exact hbytes j hj

/-- The size that is read from a cell, after all of them have been filled. -/
theorem loadInt_cpuPayloads_iff (hfit : ∀ i, (compress i).1.length ≤ maxDestSize)
    (inputs : ℕ → CpuInputs) (h : ByteHeap) {N i : ℕ} (hi : i < N)
    (hn : (compress i).2 < 2 ^ 31) :
    loadInt (cpuPayloads maxDestSize compress indirArr N inputs h).2.mem
          ((cpuPayloads maxDestSize compress indirArr N inputs h).1 i).input2 = (compress i).2 ↔
      ∀ j, 1 ≤ j → j < 4 →
        (h.mem (((cpuPayloads maxDestSize compress indirArr N inputs h).1 i).input2 + j)).toNat =
          ByteMem.byteOf (compress i).2 j := by
  rw [loadInt_eq_iff hn]
  obtain ⟨-, hbytes⟩ : _ ∧ ∀ j < 4,
      (cpuPayloads maxDestSize compress indirArr N inputs h).2.mem
        (((cpuPayloads maxDestSize compress indirArr N inputs h).1 i).input2 + j) = _ :=
    (cpuPayloads_cell hfit inputs h N).2 i hi
  constructor
  · intro hall j hpos hj
    have := hall j hj
    rwa [hbytes j hj, if_neg (by omega)] at this
  · intro hrest j hj
    rw [hbytes j hj]
    by_cases hzero : j = 0
    · rw [if_pos hzero, hzero, ByteMem.byteOf_zero, UInt8.toNat_ofNat']
    · rw [if_neg hzero]
      exact hrest j (by omega) hj

end cell

/-- A request reads the size that its allocator stored if and only if the upper three bytes of the
cell, which the allocator leaves as they are, were those of the size before. -/
theorem compressedSize_eq_iff (maxDestSize : ℕ) (compress : ℕ → List UInt8 × ℕ)
    (globIndirArr : ℕ) (hfit : ∀ i, (compress i).1.length ≤ maxDestSize) (totalRequests : ℕ)
    (inputs : ℕ → CpuInputs) (h : ByteHeap) (i : ℕ) (hi : i < totalRequests)
    (hn : (compress i).2 < 2 ^ 31) :
    (∀ req ∈ [cpuDecompressAndHash, cpuDecompressAndHashStamped],
      let r := compressedMcReqAllocator maxDestSize compress totalRequests inputs h
      (req maxDestSize (r.1 i) r.2.mem).compressedSize = (compress i).2 ↔
        ∀ j, 1 ≤ j → j < 4 →
          (h.mem ((r.1 i).input2 + j)).toNat = ByteMem.byteOf (compress i).2 j) ∧
    ∀ req ∈ [cpuDecompAndScatter, cpuDecompAndScatterStamped],
      let r :=
        cpuCompressedPayloadAllocator maxDestSize compress globIndirArr totalRequests inputs h
      (req maxDestSize (r.1 i) r.2.mem).compressedSize = (compress i).2 ↔
        ∀ j, 1 ≤ j → j < 4 →
          (h.mem ((r.1 i).input2 + j)).toNat = ByteMem.byteOf (compress i).2 j := by
  refine ⟨fun req hreq => ?_, fun req hreq => ?_⟩
  · have hread : req = decompressInputs := by
      simp only [List.mem_cons, List.not_mem_nil, or_false] at hreq
      rcases hreq with rfl | rfl <;> rfl
    rw [hread]
    exact loadInt_cpuPayloads_iff hfit inputs h hi hn
  · have hread : req = decompressInputs := by
      simp only [List.mem_cons, List.not_mem_nil, or_false] at hreq
      rcases hreq with rfl | rfl <;> rfl
    rw [hread]
    exact loadInt_cpuPayloads_iff hfit inputs h hi hn

/-- Two requests, with 40 bytes on a heap of zeros. -/
theorem compressedSize_eq_forty :
    let r := compressedMcReqAllocator 64 (fun _ => (List.replicate 40 7, 40)) 2 default
      ⟨8, fun _ => 0⟩
    (cpuDecompressAndHash 64 (r.1 1) r.2.mem).compressedSize = 40 :=
  ((compressedSize_eq_iff 64 (fun _ => (List.replicate 40 7, 40)) 0 (fun _ => by decide) 2 default
    ⟨8, fun _ => 0⟩ 1 (by decide) (by decide)).1 cpuDecompressAndHash (by simp)).2 (by decide)

/-- Of the size 300 the lower byte is left on a heap of zeros; on a heap that has been in use, of
the size 40 something else. -/
theorem compressedSize_lost :
    let r := compressedMcReqAllocator 512 (fun _ => (List.replicate 300 7, 300)) 1 default
      ⟨8, fun _ => 0⟩
    let r' := cpuCompressedPayloadAllocator 512 (fun _ => (List.replicate 40 7, 40)) 4 1 default
      ⟨8, fun _ => 1⟩
    (cpuDecompressAndHash 512 (r.1 0) r.2.mem).compressedSize = 44 ∧
      (cpuDecompAndScatter 512 (r'.1 0) r'.2.mem).compressedSize = 16843048 := by
  decide +kernel

end XMPGym
