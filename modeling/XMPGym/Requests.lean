import Mathlib.Data.Int.Notation
import XMPGym.Dispatch

/-!
# Request bodies

The three-phase templates of `src/inc/inline/three_phase_components.ipp`, for any pre-processing,
descriptor, submission, accelerator and post-processing functions, and the shape of the two-phase
requests (`yielding_decompress_and_hash_request` and its like), for any operations before and after
the first swap.
-/

namespace XMPGym

variable {F L M : Type*}

/-! ## Three-phase templates -/

/-- The fields of `timed_offload_request_args` that the templates are given.  Buffers, descriptors
and completion records are named by numbers. -/
structure OffArgs where
  comp : ℕ
  desc : ℕ
  id : ℕ
  preProcInput : ℕ
  preProcOutput : ℕ
  preProcInputSize : ℤ
  axFuncOutput : ℕ
  maxAxfuncOutputSize : ℤ
  postProcOutput : ℕ
  postProcInputSize : ℤ
  maxPostProcOutputSize : ℤ
  deriving DecidableEq, Repr

/-- The template parameters of the three phases, on a memory `M`.  A function that stores a size
through its last argument returns it. -/
structure ThreePhaseFns (M : Type*) where
  preProc : (input output : ℕ) → (inputSize : ℤ) → M → M × ℤ
  prep : (desc src dst comp : ℕ) → (size : ℤ) → M → M
  submit : (desc : ℕ) → M → M
  /-- whether the wait for the record goes on -/
  postOffload : (comp : ℕ) → M → Bool
  axFunc : (input output : ℕ) → (inputSize maxOutputSize : ℤ) → M → M × ℤ
  postProc : (input output : ℕ) → (inputSize maxOutputSize : ℤ) → M → M × ℤ
  /-- `ts[idx] = sampleCoderdtsc()`, for one of the arrays `ts0` to `ts4` -/
  stamp : (ts idx : ℕ) → M → M

/-- The local variables of the templates. -/
structure ThreePhaseLocals where
  preprocOutputSize : ℤ
  axInputSize : ℤ
  axFuncInput : ℕ
  postProcInput : ℕ
  maxAxfuncOutputSize : ℤ
  maxPostProcOutputSize : ℤ
  deriving DecidableEq, Repr

/-- The local variables on entry: the two capacities are arguments, the rest is not set yet. -/
def ThreePhaseLocals.init (a : OffArgs) : ThreePhaseLocals :=
  ⟨0, 0, 0, 0, a.maxAxfuncOutputSize, a.maxPostProcOutputSize⟩

/-- The statements of the templates. -/
inductive ThreePhaseOp where
  /-- `ts[idx] = sampleCoderdtsc()` -/
  | stamp (ts : ℕ)
  /-- `pre_proc_func(pre_proc_input, pre_proc_output, pre_proc_input_size, &preproc_output_size)` -/
  | preProc
  /-- `ax_input_size = preproc_output_size; ax_func_input = pre_proc_output` -/
  | axInput
  /-- `prep_func(desc, ax_func_input, ax_func_output, comp, ax_input_size)` -/
  | prep
  /-- `submit_func(ax, desc)` -/
  | submit
  /-- `post_offload_func(comp)` -/
  | postOffload
  /-- `ax_func(ax_func_input, ax_func_output, ax_input_size, &max_axfunc_output_size)` -/
  | axFunc
  /-- `post_proc_input = ax_func_output` -/
  | postInput
  /-- `post_proc_func(post_proc_input, post_proc_output, post_proc_input_size,
  &max_post_proc_output_size)` -/
  | postProc
  /-- `fcontext_swap(arg.prev_context, NULL)` -/
  | swap
  deriving DecidableEq, Repr

/-- What a statement does, in a request with the arguments `a`. -/
def ThreePhaseOp.instr (fns : ThreePhaseFns M) (a : OffArgs) :
    ThreePhaseOp → Instr ThreePhaseLocals M
  | .stamp ts => .op fun l m => (l, fns.stamp ts a.id m, .next)
  | .preProc => .op fun l m =>
      let r := fns.preProc a.preProcInput a.preProcOutput a.preProcInputSize m
      ({ l with preprocOutputSize := r.2 }, r.1, .next)
  | .axInput => .op fun l m =>
      ({ l with axInputSize := l.preprocOutputSize, axFuncInput := a.preProcOutput }, m, .next)
  | .prep => .op fun l m =>
      (l, fns.prep a.desc l.axFuncInput a.axFuncOutput a.comp l.axInputSize m, .next)
  | .submit => .op fun l m => (l, fns.submit a.desc m, .next)
  | .postOffload => .op fun l m => (l, m, if fns.postOffload a.comp m then .stay else .next)
  | .axFunc => .op fun l m =>
      let r := fns.axFunc l.axFuncInput a.axFuncOutput l.axInputSize l.maxAxfuncOutputSize m
      ({ l with maxAxfuncOutputSize := r.2 }, r.1, .next)
  | .postInput => .op fun l m => ({ l with postProcInput := a.axFuncOutput }, m, .next)
  | .postProc => .op fun l m =>
      let r := fns.postProc l.postProcInput a.postProcOutput a.postProcInputSize
        l.maxPostProcOutputSize m
      ({ l with maxPostProcOutputSize := r.2 }, r.1, .next)
  | .swap => .swap

/-- `generic_yielding_three_phase` -/
def genericYieldingThreePhase : List ThreePhaseOp :=
  [.preProc, .axInput, .prep, .submit, .swap, .postInput, .postProc]

/-- `generic_yielding_three_phase_timed` -/
def genericYieldingThreePhaseTimed : List ThreePhaseOp :=
  [.stamp 0, .preProc, .axInput, .stamp 1, .prep, .submit, .stamp 2, .swap, .stamp 3, .postInput,
    .postProc, .stamp 4]

/-- `generic_blocking_three_phase` -/
def genericBlockingThreePhase : List ThreePhaseOp :=
  [.preProc, .axInput, .prep, .submit, .postOffload, .postInput, .postProc]

/-- `generic_blocking_three_phase_timed` -/
def genericBlockingThreePhaseTimed : List ThreePhaseOp :=
  [.stamp 0, .preProc, .axInput, .stamp 1, .prep, .submit, .stamp 2, .postOffload, .stamp 3,
    .postInput, .postProc, .stamp 4]

/-- `generic_gpcore_three_phase` -/
def genericGpcoreThreePhase : List ThreePhaseOp :=
  [.preProc, .axInput, .axFunc, .postInput, .postProc]

/-- `generic_gpcore_three_phase_timed` -/
def genericGpcoreThreePhaseTimed : List ThreePhaseOp :=
  [.stamp 0, .preProc, .stamp 1, .stamp 2, .axInput, .axFunc, .stamp 3, .postInput, .postProc,
    .stamp 4]

/-- `complete_request_and_switch_to_scheduler` -/
def completeRequestAndSwitchToScheduler : List ThreePhaseOp := [.swap]

/-- A yielding three-phase request, stamped or not. -/
def yieldingThreePhaseRequest (timed : Bool) : List ThreePhaseOp :=
  (if timed then genericYieldingThreePhaseTimed else genericYieldingThreePhase) ++
    completeRequestAndSwitchToScheduler

/-- A blocking three-phase request, stamped or not. -/
def blockingThreePhaseRequest (timed : Bool) : List ThreePhaseOp :=
  (if timed then genericBlockingThreePhaseTimed else genericBlockingThreePhase) ++
    completeRequestAndSwitchToScheduler

/-- A three-phase request that the core serves itself, stamped or not. -/
def gpcoreThreePhaseRequest (timed : Bool) : List ThreePhaseOp :=
  (if timed then genericGpcoreThreePhaseTimed else genericGpcoreThreePhase) ++
    completeRequestAndSwitchToScheduler

theorem swapsLeft_map_instr (fns : ThreePhaseFns M) (a : OffArgs) (t : List ThreePhaseOp) :
    swapsLeft (t.map (ThreePhaseOp.instr fns a)) = t.count .swap := by
  induction t with
  | nil => rfl
  | cons op t ih => cases op <;> simp [ThreePhaseOp.instr, ih]

/-! ## Two-phase requests -/

/-- A request that offloads, yields, works on the result, counts itself and goes back to the
scheduler for good. -/
def yieldingRequest (offload work : List (L → M → L × M × Next)) : List (Instr L M) :=
  offload.map .op ++ .swap :: (work.map .op ++ [.completed, .swap])

theorem swapsLeft_append (c c' : List (Instr L M)) :
    swapsLeft (c ++ c') = swapsLeft c + swapsLeft c' :=
  List.countP_append

theorem completesLeft_append (c c' : List (Instr L M)) :
    completesLeft (c ++ c') = completesLeft c + completesLeft c' :=
  List.countP_append

@[simp] theorem swapsLeft_map_op (ops : List (L → M → L × M × Next)) :
    swapsLeft (ops.map Instr.op) = 0 := by
  induction ops with
  | nil => rfl
  | cons f ops ih => simpa using ih

@[simp] theorem completesLeft_map_op (ops : List (L → M → L × M × Next)) :
    completesLeft (ops.map Instr.op) = 0 := by
  induction ops with
  | nil => rfl
  | cons f ops ih => simpa using ih

theorem swapsLeft_yieldingRequest (offload work : List (L → M → L × M × Next)) :
    swapsLeft (yieldingRequest offload work) = 2 := by
  simp [yieldingRequest, swapsLeft_append]

/-- What is left of a body that begins with operations. -/
theorem suffix_ops_append {ops : List (L → M → L × M × Next)} {c c' : List (Instr L M)}
    (h : c <:+ ops.map .op ++ c') :
    c <:+ c' ∨ ∃ ops' : List (L → M → L × M × Next), c = ops'.map .op ++ c' := by
  induction ops with
  | nil => exact .inl h
  | cons f ops ih =>
      rcases List.suffix_cons_iff.1 h with rfl | h
      · exact .inr ⟨f :: ops, rfl⟩
      · exact ih h

/-- The increment stands between the two swaps. -/
theorem yieldingRequest_completes {offload work : List (L → M → L × M × Next)}
    {c : List (Instr L M)} (h : c <:+ yieldingRequest offload work) :
    (swapsLeft c = 2 → completesLeft c = 1) ∧ (swapsLeft c = 0 → completesLeft c = 0) := by
  rcases suffix_ops_append h with h | ⟨ops, rfl⟩
  · rcases List.suffix_cons_iff.1 h with rfl | h
    · simp [swapsLeft_append, completesLeft_append]
    · rcases suffix_ops_append h with h | ⟨ops, rfl⟩
      · rcases List.suffix_cons_iff.1 h with rfl | h
        · simp
        · rcases List.suffix_cons_iff.1 h with rfl | h
          · simp
          · obtain rfl := List.suffix_nil.1 h
            simp
      · simp [swapsLeft_append]
  · simp [swapsLeft_append, completesLeft_append]

theorem twoSwaps_yieldingRequest (P : Program F L M) {offload work : ℕ → List _}
    (h : P.request = fun i => yieldingRequest (offload i) (work i)) : TwoSwaps P := by
  intro i
  rw [h]
  exact swapsLeft_yieldingRequest _ _

theorem completesOnce_yieldingRequest (P : Program F L M) {offload work : ℕ → List _}
    (h : P.request = fun i => yieldingRequest (offload i) (work i)) : CompletesOnce P := by
  intro i c hc
  rw [h] at hc
  exact yieldingRequest_completes hc

end XMPGym
