import XMPGym.Board
import XMPGym.ClosedLoop

/-!
# The order of three-phase requests

Under the two yielding executors of the three-phase requests the requests are started in order and
resumed in order, each once, whatever the device does to the records and when.
-/

open Relation Transition

namespace XMPGym

variable {M : Type*}

/-- An executor with `yieldingThreePhaseRequest`s for its requests. -/
def ClosedLoop.yieldingThreePhase (e : ClosedLoop) (hw : Hardware M) (fns : ThreePhaseFns M)
    (args : ℕ → OffArgs) (timed : Bool) : Program ClosedFrame ThreePhaseLocals M :=
  e.program hw (fun i => (yieldingThreePhaseRequest timed).map (ThreePhaseOp.instr fns (args i)))
    fun i => .init (args i)

theorem twoSwaps_yieldingThreePhase (e : ClosedLoop) (hw : Hardware M) (fns : ThreePhaseFns M)
    (args : ℕ → OffArgs) (timed : Bool) : TwoSwaps (e.yieldingThreePhase hw fns args timed) := by
  intro i
  refine (swapsLeft_map_instr fns (args i) (yieldingThreePhaseRequest timed)).trans ?_
  cases timed <;> rfl

/-- In every reachable state of the two executors: no index is out of bounds and no context is
used before it is stored; the two indices are in order and at most `N`; requests are started in
index order, each at most once, and resumed in index order, each at most once and through the
context that its start stored; and on exit each has been started and resumed. -/
theorem threePhase_inOrder (N idx : ℕ) (e : ClosedLoop)
    (he : e ∈ [executeYieldingThreePhaseRequestThroughput N idx,
      executeThreePhaseYieldingRequestsClosedSystemRequestBreakdown N])
    (hw : Hardware M) (fns : ThreePhaseFns M) (args : ℕ → OffArgs) (timed : Bool)
    (submitted : M → ℕ → Prop) {m₀ : M}
    (hc : RecordContract (e.yieldingThreePhase hw fns args timed) submitted m₀)
    {s : Sys ClosedFrame ThreePhaseLocals M}
    (hr : Sys.Reachable (e.yieldingThreePhase hw fns args timed) m₀ s) :
    s.running ≠ .fault ∧
    s.frame.nextRequestOffloadToCompleteIdx ≤ s.frame.nextUnstartedReqIdx ∧
    s.frame.nextUnstartedReqIdx ≤ N ∧
    (∃ k ≤ N, s.starts = List.range k) ∧
    (∃ k ≤ N, s.resumes = List.range k) ∧
    (∀ w ∈ s.swaps, ∀ i, w.resume = some i → i < s.frame.nextUnstartedReqIdx ∧
      ∃ x, s.frame.offloadReqXfer i = some x ∧ x.prevContext = w.target) ∧
    (s.running = .exited → s.starts = List.range N ∧ s.resumes = List.range N) := by
  obtain ⟨htotal, hon, hsamp, hpend⟩ : e.totalRequests = N ∧ e.onCompleted = false ∧
      e.sampling = none ∧ e.ready compStatusPending = false := by
    simp only [List.mem_cons, List.not_mem_nil, or_false] at he
    rcases he with rfl | rfl <;> exact ⟨rfl, rfl, rfl, rfl⟩
  have hon' : e.onCompleted = true → CompletesOnce (e.yieldingThreePhase hw fns args timed) := by
    simp [hon]
  obtain ⟨d, h⟩ := closedInv_of_reachable (twoSwaps_yieldingThreePhase e hw fns args timed) hc hon'
    hpend hr
  obtain ⟨hle, hleN⟩ := h.indices_le
  rw [← htotal]
  refine ⟨fun hf => ?_, hle, hleN, h.follows.starts ▸ d.starts_eq,
    h.follows.resumes ▸ d.resumes_eq, h.jumped, h.exited hon'⟩
  rcases h.running (h.follows.scheduler (by rw [hf]; rfl)) with h' | ⟨h', -⟩ | ⟨-, h'⟩
  · simp [hf] at h'
  · simp [hf] at h'
  · exact h' hsamp

/-- Two requests on a board: the second job ends first, and with an error. -/
def twoRequests : List (Option BoardMove) :=
  List.replicate 15 none ++ [some (.ends 1 9), none, some (.ends 0 1)] ++ List.replicate 12 none

theorem threePhase_inOrder_two :
    ∃ s, Board.schedule ((executeYieldingThreePhaseRequestThroughput 2 0).yieldingThreePhase
        Board.hardware Board.fns Board.args false) twoRequests = some s ∧
      s.running = .exited ∧ s.starts = [0, 1] ∧ s.resumes = [0, 1] :=
  ⟨_, rfl, rfl, (threePhase_inOrder 2 0 _ (List.mem_cons_self) _ _ _ false _
    (Board.recordContract_threePhase _ _ _)
    (Board.reachable_of_schedule (l := twoRequests) rfl rfl)).2.2.2.2.2.2 rfl⟩

end XMPGym
