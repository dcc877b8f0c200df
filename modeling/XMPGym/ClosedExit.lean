import XMPGym.FailedOffload
import XMPGym.Progress
import XMPGym.TimerUtils

/-!
# The closed loops come to their end

In a fair run whose operations end and whose records are written, every closed loop returns, and
all its requests have been started and resumed.  The only place where it can wait is the test of the
head record with nothing left to start; everywhere else the thread gets closer to its end.
-/

open Relation Transition

namespace XMPGym

variable {L M : Type*}

/-- Where the thread stands between two instructions of the requests. -/
def closedWeight (s : Sys ClosedFrame L M) : ℕ :=
  match s.running with
  | .at .executor =>
      match s.frame.pc with
      | .begin | .started | .resumed => 3
      | .loop => 2
      | .finish => 1
  | .at _ => 1
  | _ => 0

/-- How far the thread is from its end. -/
def ClosedLoop.left (e : ClosedLoop) (s : Sys ClosedFrame L M) : ℕ :=
  3 * codeLeft e.totalRequests s + closedWeight s

/-- The executor finds nothing to do but to wait for the record of request `i`. -/
structure ClosedLoop.Waits (e : ClosedLoop) (hw : Hardware M) (i : ℕ) (s : Sys ClosedFrame L M) :
    Prop where
  checks : e.Checks s
  head : s.frame.nextRequestOffloadToCompleteIdx = i
  pending : e.ready (hw.status s.mem i) = false

section closed

variable {e : ClosedLoop} {hw : Hardware M} {request : ℕ → List (Instr L M)} {locals : ℕ → L}
  {submitted : M → ℕ → Prop} {m₀ : M} {d : InOrder e.totalRequests} {s t : Sys ClosedFrame L M}

theorem closedWeight_le (s : Sys ClosedFrame L M) : closedWeight s ≤ 3 := by
  unfold closedWeight
  split
  · split <;> omega
  · omega
  · omega

/-- A step of the executor: it waits, or it gets closer to the end. -/
theorem ClosedInv.executor_left
    (hpend : e.ready compStatusPending = false)
    (h : ClosedInv e (e.program hw request locals) submitted d s)
    (hrun : s.running = .at .executor) :
    (∃ i, e.Waits hw i s) ∧ s.executorStep (e.program hw request locals) = s ∨
      e.left (s.executorStep (e.program hw request locals)) < e.left s := by
  -- the executor itself does not touch the requests
  have closer (t : Sys ClosedFrame L M) (hcode : ∀ i, (t.request i).code = (s.request i).code)
      (hlt : closedWeight t < closedWeight s) : e.left t < e.left s := by
    unfold ClosedLoop.left
    rw [codeLeft_congr hcode]
    omega
  unfold Sys.executorStep
  cases hact : (e.program hw request locals).executor s.frame s.arrived s.requestsCompleted
      s.mem with
  | goto f =>
      simp only
      rcases ClosedLoop.executor_goto hact with ⟨hpc, hf, -⟩ | ⟨hpc, rfl⟩ | ⟨hpc, -, rfl⟩ |
        ⟨hpc, rfl⟩ | ⟨hpc, f', -, rfl⟩
      · exact .inr (closer _ (fun _ => rfl) (by simp [closedWeight, hrun, hpc, hf]))
      · have hle := h.indices_le
        have hact' : e.executor hw s.frame s.arrived s.requestsCompleted s.mem =
          .goto s.frame := hact
        simp only [ClosedLoop.executor, hpc] at hact'
        split_ifs at hact' with h₁ h₂ h₃ h₄
        · split at hact' <;> cases hact'
        · exact .inl ⟨⟨_, ⟨hrun, hpc, by omega, h₂⟩, rfl, by simpa using h₃⟩, rfl⟩
        · simpa [hpc] using congrArg ClosedFrame.pc (Act.goto.inj hact')
      · exact .inr (closer _ (fun _ => rfl) (by simp [closedWeight, hrun, hpc]))
      · exact .inr (closer _ (fun _ => rfl) (by simp [closedWeight, hrun, hpc]))
      · exact .inr (closer _ (fun _ => rfl) (by simp [closedWeight, hrun, hpc]))
  | swap x y f =>
      obtain ⟨hpc, -, -⟩ := ClosedLoop.executor_swap hact
      refine .inr (closer _ (fun _ => by simp) ?_)
      obtain ⟨-, -, -, ⟨z, n, -, -, rfl, -⟩ | ⟨rfl, -⟩⟩ := h.swap_target hpend hrun hact <;>
        simp [closedWeight, hrun, hpc, fcontextCreate]
  | exit f =>
      obtain ⟨hpc, -⟩ := ClosedLoop.executor_exit hact
      exact .inr (closer _ (fun _ => rfl) (by simp [closedWeight, hrun, hpc]))
  | fault =>
      refine .inr (closer _ (fun _ => rfl) ?_)
      simp only [closedWeight, hrun]
      split <;> omega

/-- A step of the thread: the executor waits, a request repeats an operation, or the thread gets
closer to its end. -/
theorem ClosedInv.thread_left (hret : NeverReturns (e.program hw request locals))
    (hpend : e.ready compStatusPending = false)
    (h : ClosedInv e (e.program hw request locals) submitted d s)
    (hs : s.thread (e.program hw request locals) = some t) :
    (∃ i, e.Waits hw i s) ∧ t = s ∨
      (∃ i c, AtCode i c s ∧ AtCode i c t ∧ e.left t = e.left s) ∨ e.left t < e.left s := by
  simp only [Sys.thread] at hs
  split at hs
  · next hrun =>
      obtain rfl := Option.some.inj hs
      exact (h.executor_left hpend hrun).imp_right .inr
  · next i hrun =>
      obtain rfl := Option.some.inj hs
      right
      rcases h.follows.request_left hret hrun with ⟨c, hi, hi', heq⟩ | hlt
      · refine .inl ⟨i, c, hi, hi', ?_⟩
        simp only [ClosedLoop.left, closedWeight, heq, hi.running, hi'.running]
      · have hle := closedWeight_le (s.requestStep i)
        have hone : closedWeight s = 1 := by simp [closedWeight, hrun]
        refine .inr ?_
        unfold ClosedLoop.left
        omega
  · next i hrun => exact absurd hrun (h.running_ne_filler i)
  · cases hs

/-- Without samples there is nothing to go wrong. -/
theorem ClosedInv.ne_fault (h : ClosedInv e (e.program hw request locals) submitted d s)
    (hs : e.sampling = none) : s.running ≠ .fault := by
  intro hf
  rcases h.running (h.follows.scheduler (by rw [hf]; rfl)) with h' | ⟨h', -⟩ | ⟨-, h'⟩
  · simp [hf] at h'
  · simp [hf] at h'
  · exact h' hs

/-- The hardware does not make the executor wait. -/
theorem ClosedLoop.Waits.of_hw {m : M} {i : ℕ}
    (hkeep : ∀ i, e.ready (hw.status s.mem i) = true → e.ready (hw.status m i) = true)
    (h : e.Waits hw i { s with mem := m }) : e.Waits hw i s := by
  obtain ⟨hch, hhead, hnot⟩ := h
  refine ⟨⟨hch.running, hch.pc, hch.started, hch.outstanding⟩, hhead, ?_⟩
  by_contra hready
  rw [hkeep _ (by simpa using hready)] at hnot
  cases hnot

theorem ClosedInv.descends (hret : NeverReturns (e.program hw request locals))
    (hpend : e.ready compStatusPending = false)
    (hkeep : ∀ m m', hw.Moves m m' → ∀ i,
      e.ready (hw.status m i) = true → e.ready (hw.status m' i) = true)
    (h : ClosedInv e (e.program hw request locals) submitted d s) :
    Descends (e.program hw request locals) e.left (e.Waits hw) s where
  thread _ hs := h.thread_left hret hpend hs
  hw _ hm := .inr ⟨rfl, fun _ hwait => hwait.of_hw (hkeep _ _ hm)⟩
  unique _ _ hi hj := hi.head.symm.trans hj.head
  running _ hi j := by simp [hi.checks.running]

/-- The request that is waited for has been started. -/
theorem ClosedInv.yielded {i : ℕ} (h : ClosedInv e (e.program hw request locals) submitted d s)
    (hwait : e.Waits hw i s) : i < e.totalRequests ∧ Yielded i s := by
  obtain ⟨hch, rfl, -⟩ := hwait
  have hlt := hch.outstanding
  have hag := h.agrees
  simp only [ClosedFrame.Agrees, hch.pc] at hag
  refine ⟨hlt, ?_, by simp [hch.running]⟩
  rw [h.follows.starts, InOrder.starts, List.mem_range, if_neg (by simp [hag.1]), ← hag.2.1,
    hch.started]
  exact hlt

/-! ## Towards the end -/

section fair

variable {r : FairRun (Sys.processes (e.program hw request locals))}
  (hP : TwoSwaps (e.program hw request locals))
  (hc : RecordContract (e.program hw request locals) submitted m₀)
  (hon : e.onCompleted = true → CompletesOnce (e.program hw request locals))
  (hpend : e.ready compStatusPending = false)

include hP hc hon hpend

/-- The thread comes to its end. -/
theorem ClosedLoop.leadsTo_end (hret : NeverReturns (e.program hw request locals))
    (hkeep : ∀ m m', hw.Moves m m' → ∀ i,
      e.ready (hw.status m i) = true → e.ready (hw.status m' i) = true)
    (hops : OpsEnd r)
    (hrec : ∀ i < e.totalRequests,
      r.LeadsTo (Yielded i) fun s => e.ready (hw.status s.mem i) = true) :
    r.LeadsTo (Sys.Reachable (e.program hw request locals) m₀)
      fun s => s.thread (e.program hw request locals) = none := by
  refine Descends.leadsTo_end e.left (e.Waits hw) (fun s hr => ?_) hops fun i n hn => ?_
  · obtain ⟨d, h⟩ := closedInv_of_reachable hP hc hon hpend hr
    exact h.descends hret hpend hkeep
  · obtain ⟨hr, hwait⟩ := hn
    obtain ⟨d, h⟩ := closedInv_of_reachable hP hc hon hpend hr
    obtain ⟨hlt, hy⟩ := h.yielded hwait
    obtain ⟨k, hk, hready⟩ := hrec i hlt n hy
    refine ⟨k, hk, fun hwait' => ?_⟩
    rw [hwait'.pending] at hready
    cases hready

/-- The executor returns, with all requests done. -/
theorem ClosedLoop.exits (hret : NeverReturns (e.program hw request locals))
    (hkeep : ∀ m m', hw.Moves m m' → ∀ i,
      e.ready (hw.status m i) = true → e.ready (hw.status m' i) = true)
    (hfault : ∀ s, Sys.Reachable (e.program hw request locals) m₀ s → s.running ≠ .fault)
    (hr : r.state 0 = .init (e.program hw request locals) m₀)
    (hops : OpsEnd r)
    (hrec : ∀ i < e.totalRequests,
      r.LeadsTo (Yielded i) fun s => e.ready (hw.status s.mem i) = true) :
    ∃ n, (r.state n).running = .exited ∧
      (r.state n).starts = List.range e.totalRequests ∧
      (r.state n).resumes = List.range e.totalRequests ∧
      (CompletesOnce (e.program hw request locals) →
        (r.state n).requestsCompleted = e.totalRequests) := by
  obtain ⟨n, -, hend⟩ := ClosedLoop.leadsTo_end hP hc hon hpend hret hkeep hops hrec 0
    (Sys.reachable_fairRun hr 0)
  have hreach := Sys.reachable_fairRun hr n
  obtain ⟨d, h⟩ := closedInv_of_reachable hP hc hon hpend hreach
  have hexit : (r.state n).running = .exited := by
    cases hrun : (r.state n).running with
    | «at» c => cases c <;> simp [Sys.thread, hrun] at hend
    | exited => rfl
    | returned i =>
        refine absurd hrun (hret.ne_returned (fun s hs i hi => ?_) hreach i)
        obtain ⟨d, h⟩ := closedInv_of_reachable hP hc hon hpend hs
        exact h.follows.inBody hi
    | fault => exact absurd hrun (hfault _ hreach)
  obtain ⟨hst, hre⟩ := h.exited hon hexit
  refine ⟨n, hexit, hst, hre, fun hP' => ?_⟩
  obtain ⟨ht, hres, -⟩ := h.all_resumed hon hexit
  have hcount := (h.counted hP').count
  simpa [ht, hres] using hcount

end fair

end closed

/-! ## The executors -/

theorem neverReturns_yieldingThreePhase {M : Type*} (e : ClosedLoop) (hw : Hardware M)
    (fns : ThreePhaseFns M) (args : ℕ → OffArgs) (timed : Bool) :
    NeverReturns (e.yieldingThreePhase hw fns args timed) ∧
      NeverRepeats (e.yieldingThreePhase hw fns args timed) := by
  have key : ∀ i f, Instr.op f ∈ (e.yieldingThreePhase hw fns args timed).request i →
      ∀ l m, (f l m).2.2 = .next := by
    intro i f hf l m
    obtain ⟨op, hop, hf⟩ := List.mem_map.1 hf
    cases op with
    | postOffload => cases timed <;> simp [yieldingThreePhaseRequest, genericYieldingThreePhase,
        genericYieldingThreePhaseTimed, completeRequestAndSwitchToScheduler] at hop
    | swap => cases hf
    | _ => simp only [ThreePhaseOp.instr, Instr.op.injEq] at hf; subst hf; rfl
  exact ⟨fun i f hf l m => by simp [key i f hf l m], fun i f hf l m => by simp [key i f hf l m]⟩

/-- The two yielding executors of three-phase requests, of which there is one at least, return in
every fair run in which the records of the requests that have yielded are written in the end, with
whatever status and in whatever order: every request has then been started once and resumed once, in
index order, and the averages of the breakdown form can be taken. -/
theorem threePhase_exits (N idx : ℕ) (hN : 1 ≤ N) (e : ClosedLoop)
    (he : e ∈ [executeYieldingThreePhaseRequestThroughput N idx,
      executeThreePhaseYieldingRequestsClosedSystemRequestBreakdown N])
    (hw : Hardware M) (fns : ThreePhaseFns M) (args : ℕ → OffArgs) (timed : Bool)
    (submitted : M → ℕ → Prop) {m₀ : M}
    (hc : RecordContract (e.yieldingThreePhase hw fns args timed) submitted m₀)
    (hkeep : ∀ m m', hw.Moves m m' → ∀ i,
      hw.status m i ≠ compStatusPending → hw.status m' i ≠ compStatusPending)
    (r : FairRun (Sys.processes (e.yieldingThreePhase hw fns args timed)))
    (hr : r.state 0 = .init (e.yieldingThreePhase hw fns args timed) m₀)
    (hrec : ∀ i < N, r.LeadsTo (Yielded i) fun s => hw.status s.mem i ≠ compStatusPending) :
    ∃ n, (r.state n).running = .exited ∧
      (r.state n).starts = List.range N ∧ (r.state n).resumes = List.range N ∧
      ∀ diff ts, requestBreakdown N diff ts ≠ none := by
  obtain ⟨htotal, hon, hsamp, hready⟩ : e.totalRequests = N ∧ e.onCompleted = false ∧
      e.sampling = none ∧ e.ready = notPending := by
    simp only [List.mem_cons, List.not_mem_nil, or_false] at he
    rcases he with rfl | rfl <;> exact ⟨rfl, rfl, rfl, rfl⟩
  have hon' : e.onCompleted = true → CompletesOnce (e.yieldingThreePhase hw fns args timed) := by
    simp [hon]
  have hP := twoSwaps_yieldingThreePhase e hw fns args timed
  have hpend : e.ready compStatusPending = false := by rw [hready]; rfl
  obtain ⟨hret, hrep⟩ := neverReturns_yieldingThreePhase e hw fns args timed
  have hfault : ∀ s, Sys.Reachable (e.yieldingThreePhase hw fns args timed) m₀ s →
      s.running ≠ .fault := by
    intro s hs
    obtain ⟨d, h⟩ := closedInv_of_reachable hP hc hon' hpend hs
    exact h.ne_fault hsamp
  have hops : OpsEnd r := opsEnd_of_neverRepeats hret hrep hr fun s hs i hi => by
    obtain ⟨d, h⟩ := closedInv_of_reachable hP hc hon' hpend hs
    exact h.follows.inBody hi
  obtain ⟨n, hexit, hst, hre, -⟩ := ClosedLoop.exits hP hc hon' hpend hret
    (fun m m' hm i h => by
      rw [hready] at h ⊢
      simpa [notPending] using hkeep m m' hm i (by simpa [notPending] using h))
    hfault hr hops fun i hi => (hrec i (htotal ▸ hi)).mono (fun _ h => h) fun s h => by
      simpa [hready, notPending] using h
  rw [htotal] at hst hre
  exact ⟨n, hexit, hst, hre, requestBreakdown_ne_none hN⟩

theorem threePhase_exits_two :
    ∃ r : FairRun (Sys.processes ((executeYieldingThreePhaseRequestThroughput 2
        0).yieldingThreePhase Board.hardware Board.fns Board.args false)),
      ∃ n, (r.state n).running = .exited ∧ (r.state n).resumes = [0, 1] := by
  obtain ⟨s, hs, hend, hwritten⟩ : ∃ s, Board.schedule
      ((executeYieldingThreePhaseRequestThroughput 2 0).yieldingThreePhase Board.hardware Board.fns
        Board.args false) twoRequests = some s ∧ s.running = .exited ∧
      ∀ i < 2, s.mem.status i ≠ compStatusPending := ⟨_, rfl, rfl, by decide⟩
  obtain ⟨r, hr, hlast⟩ := Sys.exists_fairRun
    (fun _ b _ hb => show Board.hardware.Moves _ _ from ⟨b, hb⟩) hs (by simp [Sys.thread, hend])
  obtain ⟨n, hn⟩ := threePhase_exits 2 0 (by decide) _ List.mem_cons_self _ _ _ false _
    (Board.recordContract_threePhase _ _ _)
    (fun m m' h i hi => by
      rw [show Board.hardware.status m' i = _ from Board.status_of_moves h hi]
      exact hi) r hr
    fun i hi n _ => ⟨max n twoRequests.length, Nat.le_max_left _ _, by
      rw [hlast _ (Nat.le_max_right _ _)]
      exact hwritten i hi⟩
  exact ⟨r, n, hn.1, hn.2.2.1⟩

end XMPGym
