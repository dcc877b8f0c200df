import XMPGym.Memory

/-!
# Allocators of request arguments

`three_func_allocator` and `null_two_func_allocator` (`src/three_phase_components.cpp`) on a heap
that hands out an address at most once.  They give every request buffers, a descriptor and a
completion record of its own.  Sizes of allocations and the prefault of `ax_func_output` are left
out: a fresh buffer has any contents.
-/

namespace XMPGym

/-- The memory and the first address that is not in use. -/
structure Heap where
  next : ℕ
  mem : Memory

namespace Heap

/-- `malloc` and `aligned_alloc` -/
def malloc (h : Heap) : ℕ × Heap := (h.next, { h with next := h.next + 1 })

/-- `input_generator(payload_size, &msgbuf, &outsize)` -/
def inputGenerator (gen : ℤ → Bytes × ℤ) (payloadSize : ℤ) (h : Heap) : ℕ × ℤ × Heap :=
  let (addr, h) := h.malloc
  (addr, (gen payloadSize).2, { h with mem := h.mem.setBuffer addr (gen payloadSize).1 })

end Heap

section allocators

variable (initialPayloadSize maxAxfuncOutputSize maxPostProcOutputSize : ℤ) (gen : ℤ → Bytes × ℤ)

/-- One round of the loop of `three_func_allocator`. -/
def threeFuncArgs (i : ℕ) (h : Heap) : OffArgs × Heap :=
  let (preProcInput, preProcInputSize, h) := h.inputGenerator gen initialPayloadSize
  let (preProcOutput, h) := h.malloc
  let (axFuncOutput, h) := h.malloc
  let (postProcOutput, h) := h.malloc
  let (desc, h) := h.malloc
  ({ comp := i
     desc := desc
     id := i
     preProcInput := preProcInput
     preProcOutput := preProcOutput
     preProcInputSize := preProcInputSize
     axFuncOutput := axFuncOutput
     maxAxfuncOutputSize := maxAxfuncOutputSize
     postProcOutput := postProcOutput
     postProcInputSize := initialPayloadSize
     maxPostProcOutputSize := maxPostProcOutputSize }, h)

/-- One round of the loop of `null_two_func_allocator`: the input goes to `pre_proc_output`. -/
def nullTwoFuncArgs (i : ℕ) (h : Heap) : OffArgs × Heap :=
  let (preProcOutput, preProcInputSize, h) := h.inputGenerator gen initialPayloadSize
  let (preProcInput, h) := h.malloc
  let (axFuncOutput, h) := h.malloc
  let (postProcOutput, h) := h.malloc
  let (desc, h) := h.malloc
  ({ comp := i
     desc := desc
     id := i
     preProcInput := preProcInput
     preProcOutput := preProcOutput
     preProcInputSize := preProcInputSize
     axFuncOutput := axFuncOutput
     maxAxfuncOutputSize := maxAxfuncOutputSize
     postProcOutput := postProcOutput
     postProcInputSize := initialPayloadSize
     maxPostProcOutputSize := maxPostProcOutputSize }, h)

end allocators

/-- `off_args[i] = one(i)` for each `i` below the number of requests. -/
def fillArgs (one : ℕ → Heap → OffArgs × Heap) :
    ℕ → (ℕ → OffArgs) → Heap → (ℕ → OffArgs) × Heap
  | 0, offArgs, h => (offArgs, h)
  | n + 1, offArgs, h =>
      let (offArgs, h) := fillArgs one n offArgs h
      let (a, h) := one n h
      (Function.update offArgs n a, h)

/-- `three_func_allocator` -/
def threeFuncAllocator (totalRequests : ℕ)
    (initialPayloadSize maxAxfuncOutputSize maxPostProcOutputSize : ℤ) (gen : ℤ → Bytes × ℤ) :
    (ℕ → OffArgs) → Heap → (ℕ → OffArgs) × Heap :=
  fillArgs (threeFuncArgs initialPayloadSize maxAxfuncOutputSize maxPostProcOutputSize gen)
    totalRequests

/-- `null_two_func_allocator` -/
def nullTwoFuncAllocator (totalRequests : ℕ)
    (initialPayloadSize maxAxfuncOutputSize maxPostProcOutputSize : ℤ) (gen : ℤ → Bytes × ℤ) :
    (ℕ → OffArgs) → Heap → (ℕ → OffArgs) × Heap :=
  fillArgs (nullTwoFuncArgs initialPayloadSize maxAxfuncOutputSize maxPostProcOutputSize gen)
    totalRequests

/-! ## What they give -/

/-- The requests are numbered in order. -/
theorem fillArgs_id {one : ℕ → Heap → OffArgs × Heap} (hone : ∀ i h, (one i h).1.id = i)
    (offArgs : ℕ → OffArgs) (h : Heap) {n i : ℕ} (hi : i < n) :
    ((fillArgs one n offArgs h).1 i).id = i := by
  induction n with
  | zero => omega
  | succ n ih =>
      simp only [fillArgs]
      by_cases hlast : i = n
      · rw [hlast, Function.update_self]
        exact hone n _
      · rw [Function.update_of_ne hlast]
        exact ih (by omega)

/-- The arguments of request `i`, at addresses that were handed out between two heaps. -/
structure AllocatedBetween (i : ℕ) (h h' : Heap) (a : OffArgs) : Prop where
  comp : a.comp = i
  buffer : ∀ x, h.next ≤ a.buffer x ∧ a.buffer x < h'.next
  distinct : ∀ x y, a.buffer x = a.buffer y → x = y
  desc : h.next ≤ a.desc ∧ a.desc < h'.next

/-- One round allocates the arguments of a request, and touches no record and no job. -/
structure Allocates (one : ℕ → Heap → OffArgs × Heap) : Prop where
  between : ∀ i h, AllocatedBetween i h (one i h).2 (one i h).1
  next : ∀ i h, h.next ≤ (one i h).2.next
  status : ∀ i h, (one i h).2.mem.status = h.mem.status
  jobs : ∀ i h, (one i h).2.mem.jobs = h.mem.jobs

theorem allocates_threeFuncArgs (n ax post : ℤ) (gen : ℤ → Bytes × ℤ) :
    Allocates (threeFuncArgs n ax post gen) where
  between i h := by
    refine ⟨rfl, fun x => ?_, fun x y => ?_, ?_⟩
    · cases x <;> simp [threeFuncArgs, Heap.inputGenerator, Heap.malloc, OffArgs.buffer] <;> omega
    · cases x <;> cases y <;>
        simp [threeFuncArgs, Heap.inputGenerator, Heap.malloc, OffArgs.buffer] <;> omega
    · simp [threeFuncArgs, Heap.inputGenerator, Heap.malloc]
      omega
  next i h := by
    simp [threeFuncArgs, Heap.inputGenerator, Heap.malloc]
    omega
  status i h := rfl
  jobs i h := rfl

theorem allocates_nullTwoFuncArgs (n ax post : ℤ) (gen : ℤ → Bytes × ℤ) :
    Allocates (nullTwoFuncArgs n ax post gen) where
  between i h := by
    refine ⟨rfl, fun x => ?_, fun x y => ?_, ?_⟩
    · cases x <;> simp [nullTwoFuncArgs, Heap.inputGenerator, Heap.malloc, OffArgs.buffer] <;> omega
    · cases x <;> cases y <;>
        simp [nullTwoFuncArgs, Heap.inputGenerator, Heap.malloc, OffArgs.buffer] <;> omega
    · simp [nullTwoFuncArgs, Heap.inputGenerator, Heap.malloc]
      omega
  next i h := by
    simp [nullTwoFuncArgs, Heap.inputGenerator, Heap.malloc]
    omega
  status i h := rfl
  jobs i h := rfl

section fill

variable {one : ℕ → Heap → OffArgs × Heap} (hone : Allocates one) (offArgs : ℕ → OffArgs)
  (h : Heap)
include hone

theorem Allocates.quiet (hm : h.mem.Quiet) (n : ℕ) : (fillArgs one n offArgs h).2.mem.Quiet := by
  induction n with
  | zero => exact hm
  | succ n ih =>
      refine ⟨fun c => ?_, fun c => ?_⟩
      · simp only [fillArgs, hone.status]
        exact ih.pending c
      · simp only [fillArgs, hone.jobs]
        exact ih.idle c

theorem Allocates.separate (n : ℕ) :
    Separate n (fillArgs one n offArgs h).1 ∧
      ∀ i < n,
        (∀ x, ((fillArgs one n offArgs h).1 i).buffer x < (fillArgs one n offArgs h).2.next) ∧
        ((fillArgs one n offArgs h).1 i).desc < (fillArgs one n offArgs h).2.next := by
  induction n with
  | zero => exact ⟨⟨by omega, by omega, by omega⟩, by omega⟩
  | succ n ih =>
      obtain ⟨hsep, hlt⟩ := ih
      simp only [fillArgs]
      generalize fillArgs one n offArgs h = r at hsep hlt
      have hb := hone.between n r.2
      have hnext := hone.next n r.2
      have self : Function.update r.1 n (one n r.2).1 n = (one n r.2).1 :=
        Function.update_self _ _ _
      have other {i : ℕ} (hi : i < n) : Function.update r.1 n (one n r.2).1 i = r.1 i :=
        Function.update_of_ne (by omega) _ _
      refine ⟨⟨fun i hi j hj x y e => ?_, fun i hi j hj e => ?_, fun i hi => ?_⟩, fun i hi => ?_⟩
      · rcases Nat.lt_succ_iff_lt_or_eq.1 hi with hi | rfl <;>
          rcases Nat.lt_succ_iff_lt_or_eq.1 hj with hj | rfl
        · rw [other hi, other hj] at e
          exact hsep.buffer i hi j hj x y e
        · rw [other hi, self] at e
          have := (hlt i hi).1 x
          have := hb.buffer y
          omega
        · rw [other hj, self] at e
          have := (hlt j hj).1 y
          have := hb.buffer x
          omega
        · rw [self] at e
          exact ⟨rfl, hb.distinct x y e⟩
      · rcases Nat.lt_succ_iff_lt_or_eq.1 hi with hi | rfl <;>
          rcases Nat.lt_succ_iff_lt_or_eq.1 hj with hj | rfl
        · rw [other hi, other hj] at e
          exact hsep.desc i hi j hj e
        · rw [other hi, self] at e
          have := (hlt i hi).2
          have := hb.desc
          omega
        · rw [other hj, self] at e
          have := (hlt j hj).2
          have := hb.desc
          omega
        · rfl
      · rcases Nat.lt_succ_iff_lt_or_eq.1 hi with hi | rfl
        · rw [other hi]
          exact hsep.comp i hi
        · rw [self]
          exact hb.comp
      · rcases Nat.lt_succ_iff_lt_or_eq.1 hi with hi | rfl
        · rw [other hi]
          exact ⟨fun x => Nat.lt_of_lt_of_le ((hlt i hi).1 x) hnext,
            Nat.lt_of_lt_of_le (hlt i hi).2 hnext⟩
        · rw [self]
          exact ⟨fun x => (hb.buffer x).2, hb.desc.2⟩

end fill

/-- Each of the two allocators gives requests that share nothing, and leaves the records as they
are. -/
theorem separate_threeFuncAllocator (N : ℕ) (n ax post : ℤ) (gen : ℤ → Bytes × ℤ)
    (offArgs : ℕ → OffArgs) (h : Heap) (hm : h.mem.Quiet) :
    Separate N (threeFuncAllocator N n ax post gen offArgs h).1 ∧
      (threeFuncAllocator N n ax post gen offArgs h).2.mem.Quiet :=
  ⟨((allocates_threeFuncArgs n ax post gen).separate offArgs h N).1,
    (allocates_threeFuncArgs n ax post gen).quiet offArgs h hm N⟩

theorem separate_nullTwoFuncAllocator (N : ℕ) (n ax post : ℤ) (gen : ℤ → Bytes × ℤ)
    (offArgs : ℕ → OffArgs) (h : Heap) (hm : h.mem.Quiet) :
    Separate N (nullTwoFuncAllocator N n ax post gen offArgs h).1 ∧
      (nullTwoFuncAllocator N n ax post gen offArgs h).2.mem.Quiet :=
  ⟨((allocates_nullTwoFuncArgs n ax post gen).separate offArgs h N).1,
    (allocates_nullTwoFuncArgs n ax post gen).quiet offArgs h hm N⟩

end XMPGym
