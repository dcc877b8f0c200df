import XMPGym.GatherScatter
import XMPGym.TwoPhaseResults

/-!
# Fill and gather

The requests of `src/memfill_gather.cpp`, whose first phase fills `scatter_array` with zeros and
whose second one writes ones at the indices of `indirect_array`.  Whichever executor runs them, the
array is at the end what `cpu_memcpy_and_compute` makes of it, and what `validate_scatter_array`
looks for.  `gLogLevel` is below `LOG_DEBUG`, and so the requests do not call the validator.
-/

open Relation Transition

namespace XMPGym.TwoPhase

variable {F : Type*}

/-- `scatter_array` and `indirect_array` -/
abbrev Scattered : Type := (ℕ → FloatBits) × List ℕ

/-- The first `input_size` bytes of the array are set to `0x0`. -/
def zeroed (inputSize : ℕ) (b : Scattered) : Scattered :=
  (fun j => if j < numFeatureEnt inputSize then 0x00000000#32 else b.1 j, b.2)

/-- The phases.  The scatter loop is meant for indices in the array. -/
def memfillAndCompute (inputSize : ℕ) : Kernels Scattered where
  pre := id
  ax := zeroed inputSize
  axFunc := zeroed inputSize
  work b := ((scatterOnes (numFeatureEnt inputSize) b.2 b.1).getD b.1, b.2)

/-- The array `b` is what `cpu_memcpy_and_compute` makes of `a`, and every entry is right. -/
def Filled (inputSize : ℕ) (a b : Scattered) : Prop :=
  (∀ gLogLevel, ∃ v,
    XMPGym.cpuMemcpyAndCompute gLogLevel inputSize a.2 a.1 = some (b.1, v)) ∧
  ∀ j < numFeatureEnt inputSize, Right b.1 a.2 j

theorem filled_of_run {inputSize : ℕ} {a b : Scattered} {t : List Stmt}
    (ht : (effects t).map Effect.onDevice = [.ax, .work])
    (hin : ∀ idx ∈ a.2, idx < numFeatureEnt inputSize)
    (h : b = run (memfillAndCompute inputSize) (effects t) a) : Filled inputSize a b := by
  obtain ⟨c, hc⟩ := Option.isSome_iff_exists.1
    ((scatterOnes_isSome_iff (zeroed inputSize a).1).2 hin)
  obtain rfl : b = (c, a.2) := by
    rw [h, ← run_onDevice rfl, ht]
    refine Prod.ext ?_ rfl
    change (scatterOnes _ a.2 (zeroed inputSize a).1).getD _ = c
    rw [hc, Option.getD_some]
  have hrun (gLogLevel : ℤ) : ∃ v,
      XMPGym.cpuMemcpyAndCompute gLogLevel inputSize a.2 a.1 = some (c, v) :=
    ⟨_, Option.map_eq_some_iff.2 ⟨c, hc, rfl⟩⟩
  refine ⟨hrun, fun j hj => ?_⟩
  obtain ⟨v, hv⟩ := hrun 0
  exact right_of_cpuMemcpyAndCompute hv hj

/-- The requests of `src/memfill_gather.cpp` for the loops that count. -/
def memfillCoreRequests : List (List Stmt) :=
  [blockingMemfillAndComputeStamped, blockingMemfillAndCompute, cpuMemfillAndComputeStamped,
    cpuMemfillAndCompute]

theorem memfillCoreRequests_spec : ∀ t ∈ memfillCoreRequests,
    (effects t).map Effect.onDevice = [.ax, .work] ∧ Phase.Whole t true ∧ CountsAtEnd t := by
  decide

/-- When an executor returns, every array has ones at its indices and zeros elsewhere, as if the
core had served the request by itself. -/
theorem memfill_filled (inputSize N interval timestamps idx : ℕ) (hroom : 2 ≤ timestamps)
    (locals : ℕ → ℕ → ℕ) {m₀ : Mem Scattered} (hm : m₀.Quiet)
    (hin : ∀ i < N, ∀ idx ∈ (m₀.buffers i).2, idx < numFeatureEnt inputSize) :
    let k := memfillAndCompute inputSize
    (∀ e ∈ closedLoops interval N timestamps idx, ∀ s,
      Sys.Reachable (closed k yieldingMemfillAndCompute locals e) m₀ s → s.running = .exited →
      ∀ i < N, Filled inputSize (m₀.buffers i) (s.mem.buffers i)) ∧
    (∀ e ∈ serialLoops N, ∀ s,
      Sys.Reachable (serial k yieldingMemfillAndCompute locals e) m₀ s → s.running = .exited →
      ∀ i < N, Filled inputSize (m₀.buffers i) (s.mem.buffers i)) ∧
    ∀ e ∈ coreLoops N timestamps idx, ∀ t ∈ memfillCoreRequests, ∀ s,
      Sys.Reachable (core k t locals e) m₀ s → s.running = .exited →
      ∀ i < N, Filled inputSize (m₀.buffers i) (s.mem.buffers i) := by
  refine ⟨fun e he s hr hexit i hi => ?_, fun e he s hr hexit i hi => ?_,
    fun e he t ht s hr hexit i hi => ?_⟩
  · exact filled_of_run rfl (hin i hi) (leaves_closed he (by decide) hm s hr hexit i hi trivial)
  · exact filled_of_run rfl (hin i hi) (leaves_serial he (by decide) hm s hr hexit i hi trivial)
  · obtain ⟨heffects, hwhole, hcounts⟩ := memfillCoreRequests_spec t ht
    exact filled_of_run heffects (hin i hi)
      (leaves_core hroom he hwhole hcounts hm s hr hexit i hi (.inl rfl))

/-- The indices `2, 0, 2` and `1`, and arrays that have not been filled. -/
def twoScattered : Mem Scattered :=
  ⟨fun i => (fun _ => 0x7fc00000#32, if i = 0 then [2, 0, 2] else [1]),
    fun _ => compStatusPending, fun _ => .idle, true, 0, fun _ _ => 0⟩

theorem memfill_filled_two :
    ∃ s, Sys.schedule (Mem.move (memfillAndCompute 16))
        (closed (memfillAndCompute 16) yieldingMemfillAndCompute (fun _ _ => 0)
          (executeYieldingRequestsClosedSystemRequestBreakdown 2))
        twoScattered (List.replicate 13 none ++
          [some (.writes 1), some (.writes 0), some (.completes 1), none, some (.completes 0)] ++
          List.replicate 14 none) = some s ∧
      ((List.range 4).map (s.mem.buffers 0).1 =
        [floatOne, 0x00000000#32, floatOne, 0x00000000#32]) ∧
      Filled 16 (twoScattered.buffers 0) (s.mem.buffers 0) := by
  have hmove : ∀ m a m', Mem.move (memfillAndCompute 16) m a = some m' →
      (Mem.hardware (memfillAndCompute 16)).Moves m m' := fun _ a _ h => ⟨a, h⟩
  have hquiet : twoScattered.Quiet := ⟨fun _ => rfl, fun _ => rfl⟩
  obtain ⟨hclosed, -⟩ := memfill_filled 16 2 1 2 0 le_rfl (fun _ _ => 0) hquiet (by decide)
  refine ⟨_, rfl, by decide, ?_⟩
  exact hclosed (executeYieldingRequestsClosedSystemRequestBreakdown 2) (by simp [closedLoops]) _
    (Sys.reachable_of_schedule hmove (l := List.replicate 13 none ++
      [some (.writes 1), some (.writes 0), some (.completes 1), none, some (.completes 0)] ++
      List.replicate 14 none) rfl) rfl 0 Nat.two_pos

end XMPGym.TwoPhase
