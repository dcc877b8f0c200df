import XMPGym.Filler
import XMPGym.Sampling
import XMPGym.ThreePhaseOrder

/-!
# Failed offloads

What an executor does about a record that says that the accelerator has failed.  The executors of
the three-phase requests test for a record that is not pending, so they resume the request.  All
others test for a completed one: they, and the fillers that probe for them, go on waiting.
-/

open Relation Transition

namespace XMPGym

variable {F L M : Type*}

/-- The thread gets to resume request `i` by its own steps, without having resumed another. -/
def Sys.Resumes (P : Program F L M) (s : Sys F L M) (i : ℕ) : Prop :=
  ∃ n s', iter (Sys.thread P) n s = some s' ∧ s'.resumes = s.resumes ++ [i]

theorem Sys.Resumes.of_step {P : Program F L M} {s s' : Sys F L M} {i : ℕ}
    (h : s.thread P = some s') (hr : s'.resumes = s.resumes ++ [i]) : s.Resumes P i :=
  ⟨1, s', by rw [iter_succ_of_eq h, iter_zero], hr⟩

theorem Sys.Resumes.step {P : Program F L M} {s s' : Sys F L M} {i : ℕ}
    (h : s.thread P = some s') (hr : s'.resumes = s.resumes) (h' : s'.Resumes P i) :
    s.Resumes P i := by
  obtain ⟨n, t, ht, hrt⟩ := h'
  exact ⟨n + 1, t, by rw [iter_succ_of_eq h, ht], hr ▸ hrt⟩

/-- What the thread preserves and what excludes a resumption. -/
theorem Sys.not_resumes {P : Program F L M} {s : Sys F L M} {i : ℕ} {I : Sys F L M → Prop}
    (hI : Preserved (StepsTo (Sys.thread P)) I) (hs : I s)
    (hres : ∀ s', I s' → s'.resumes = s.resumes) : ¬ s.Resumes P i := by
  rintro ⟨n, s', hn, hr⟩
  rw [hres s' (iter_preserved hI hn hs)] at hr
  simpa using congrArg List.length hr

/-! ## Closed loops -/

/-- The executor is at the test of the head record, all requests are started and not all are
complete. -/
structure ClosedLoop.Checks (e : ClosedLoop) (s : Sys ClosedFrame L M) : Prop where
  running : s.running = .at .executor
  pc : s.frame.pc = .loop
  started : s.frame.nextUnstartedReqIdx = e.totalRequests
  outstanding : s.frame.nextRequestOffloadToCompleteIdx < e.totalRequests

section closed

variable {e : ClosedLoop} {hw : Hardware M} {request : ℕ → List (Instr L M)} {locals : ℕ → L}
  {submitted : M → ℕ → Prop} {d : InOrder e.totalRequests} {s : Sys ClosedFrame L M}

theorem ClosedInv.count_lt
    (hon : e.onCompleted = true → CompletesOnce (e.program hw request locals))
    (h : ClosedInv e (e.program hw request locals) submitted d s) (hc : e.Checks s) :
    e.count s.frame s.requestsCompleted < e.totalRequests := by
  have ht := h.follows.scheduler_of_executor hc.running
  have hag := h.agrees
  have hlt := hc.outstanding
  simp only [ClosedFrame.Agrees, hc.pc] at hag
  unfold ClosedLoop.count
  split_ifs with hc'
  · have := (h.counted (hon hc')).count
    simp only [ht, reduceCtorEq, if_false, Nat.add_zero] at this
    omega
  · exact hlt

/-- The head request is resumed if and only if its record passes the executor's test. -/
theorem ClosedInv.resumes_iff
    (hon : e.onCompleted = true → CompletesOnce (e.program hw request locals))
    (h : ClosedInv e (e.program hw request locals) submitted d s) (hc : e.Checks s) :
    s.Resumes (e.program hw request locals) s.frame.nextRequestOffloadToCompleteIdx ↔
      e.ready (hw.status s.mem s.frame.nextRequestOffloadToCompleteIdx) = true := by
  have hcount := h.count_lt hon hc
  have hlt := hc.outstanding
  have hthread : s.thread (e.program hw request locals) =
      some (s.executorStep (e.program hw request locals)) := by
    simp [Sys.thread, hc.running]
  constructor
  · intro hr
    by_contra hready
    -- the executor spins
    have hstep : s.executorStep (e.program hw request locals) = s := by
      have : e.executor hw s.frame s.arrived s.requestsCompleted s.mem = .goto s.frame := by
        simp [ClosedLoop.executor, hc.pc, hcount, hlt, hready, hc.started]
      unfold Sys.executorStep
      rw [show (e.program hw request locals).executor s.frame s.arrived s.requestsCompleted s.mem =
        .goto s.frame from this]
    refine Sys.not_resumes (I := fun t => t = s) ?_ rfl (fun t ht => by rw [ht]) hr
    rintro t t' hstep' rfl
    rw [StepsTo, hthread, hstep] at hstep'
    exact (Option.some.inj hstep').symm
  · intro hready
    obtain ⟨x, n, hx, hown⟩ := h.stored s.frame.nextRequestOffloadToCompleteIdx
      (by rw [hc.started]; exact hlt)
    refine .of_step hthread ?_
    have : e.executor hw s.frame s.arrived s.requestsCompleted s.mem =
        .swap x.prevContext .null { s.frame with pc := .resumed } := by
      simp [ClosedLoop.executor, hc.pc, hcount, hlt, hready, hx]
    unfold Sys.executorStep
    rw [show (e.program hw request locals).executor s.frame s.arrived s.requestsCompleted s.mem =
      .swap x.prevContext .null { s.frame with pc := .resumed } from this]
    simp [Sys.resumes, Swap.resume, hown]

end closed

/-! ## Serial loops -/

/-- The executor, or its filler, waits for the record of the request that was started. -/
def SerialFrame.Waits (s : Sys SerialFrame L M) : Prop :=
  s.running = .at .executor ∧ (s.frame.pc = .wait ∨ s.frame.pc = .filled) ∨
    ∃ j, s.running = .at (.filler j)

section serial

variable {e : SerialLoop} {hw : Hardware M} {request : ℕ → List (Instr L M)} {locals : ℕ → L}
  {d : InOrder e.totalRequests} {s s' : Sys SerialFrame L M}

theorem SerialInv.resumes_of_wait (h : SerialInv e (e.program hw request locals) d s)
    (hrun : s.running = .at .executor) (hpc : s.frame.pc = .wait)
    (hst : hw.status s.mem s.requestsCompleted = compStatusCompleted) :
    s.Resumes (e.program hw request locals) s.requestsCompleted := by
  have hn := h.count (h.follows.scheduler_of_executor hrun)
  have hag := h.agrees
  have hle := d.started_le
  simp only [SerialFrame.Agrees, hpc] at hag
  obtain ⟨-, hstd, x, n, hx, hown⟩ := hag
  have hact : e.executor hw s.frame s.arrived s.requestsCompleted s.mem =
      .swap x.prevContext .null { s.frame with pc := .loop } := by
    simp [SerialLoop.executor, hpc, show s.requestsCompleted < e.totalRequests by omega, hst,
      isCompleted, show s.frame.offloadReqXfer s.requestsCompleted = some x by rw [hn, hx]]
  have hthread : s.thread (e.program hw request locals) =
      some (s.executorStep (e.program hw request locals)) := by
    simp [Sys.thread, hrun]
  refine .of_step hthread ?_
  unfold Sys.executorStep
  rw [show (e.program hw request locals).executor s.frame s.arrived s.requestsCompleted s.mem =
    .swap x.prevContext .null { s.frame with pc := .loop } from hact]
  simp [Sys.resumes, Swap.resume, hown, hn]

theorem SerialInv.resumes_of_filled (h : SerialInv e (e.program hw request locals) d s)
    (hrun : s.running = .at .executor) (hpc : s.frame.pc = .filled)
    (hst : hw.status s.mem s.requestsCompleted = compStatusCompleted) :
    s.Resumes (e.program hw request locals) s.requestsCompleted := by
  have hact : e.executor hw s.frame s.arrived s.requestsCompleted s.mem =
      .goto { s.frame with pc := .wait, xfer := some s.arrived, interleavedStarted := true } := by
    simp [SerialLoop.executor, hpc]
  have hthread : s.thread (e.program hw request locals) =
      some (s.executorStep (e.program hw request locals)) := by
    simp [Sys.thread, hrun]
  refine .step hthread ?_ ?_
  all_goals
    unfold Sys.executorStep
    rw [show (e.program hw request locals).executor s.frame s.arrived s.requestsCompleted s.mem =
      .goto { s.frame with pc := .wait, xfer := some s.arrived, interleavedStarted := true }
      from hact]
  · rfl
  · exact (h.goto hrun hact).resumes_of_wait hrun rfl hst

theorem SerialInv.resumes_of_probe (h : SerialInv e (e.program hw request locals) d s)
    (hfil : FillerInv e.fill s) {i : ℕ} (hrun : s.running = .at (.filler i))
    (hprobe : (s.filler i).pc = .probe)
    (hst : hw.status s.mem s.requestsCompleted = compStatusCompleted) :
    s.Resumes (e.program hw request locals) s.requestsCompleted := by
  obtain ⟨-, hpc, -⟩ := h.of_filler hrun
  have hthread : s.thread (e.program hw request locals) = some (s.fillerStep hw i) := by
    simp [Sys.thread, hrun, SerialLoop.program]
  have hm := hfil.move hw hrun
  have hnext := h.filler hfil hrun
  generalize s.fillerStep hw i = t at hm hthread hnext
  cases hm with
  | wait _ hne => exact absurd hst hne
  | probe ctx hown hctx =>
      rcases hctx with ⟨h', -⟩ | ⟨h', -⟩ <;> simp [hprobe] at h'
  | back n x _ hctx _ =>
      refine .step hthread (Sys.resumes_swap_executor _ _ _ _) ?_
      have := hnext.resumes_of_filled (Sys.swap_running _ _ _ _)
        (by simpa [Sys.setFillerPc] using hpc) (by simpa [Sys.setFillerPc] using hst)
      simpa [Sys.setFillerPc] using this

theorem SerialInv.resumes_of_filler (h : SerialInv e (e.program hw request locals) d s)
    (hfil : FillerInv e.fill s) {i : ℕ} (hrun : s.running = .at (.filler i))
    (hst : hw.status s.mem s.requestsCompleted = compStatusCompleted) :
    s.Resumes (e.program hw request locals) s.requestsCompleted := by
  by_cases hprobe : (s.filler i).pc = .probe
  · exact h.resumes_of_probe hfil hrun hprobe hst
  · have hthread : s.thread (e.program hw request locals) = some (s.fillerStep hw i) := by
      simp [Sys.thread, hrun, SerialLoop.program]
    have hnext := h.filler hfil hrun
    have hm := hfil.move hw hrun
    generalize s.fillerStep hw i = t at hm hthread hnext
    cases hm with
    | wait h' _ => exact absurd h' hprobe
    | back n x h' _ _ => exact absurd h' hprobe
    | probe ctx hown hctx =>
        refine .step hthread rfl ?_
        exact hnext.resumes_of_probe (hfil.probe h hrun hown) hrun (by simp [Sys.setFillerPc]) hst

/-- What the thread keeps while it waits for a record that is not completed. -/
structure SerialLoop.StillWaits (e : SerialLoop) (P : Program SerialFrame L M)
    (s t : Sys SerialFrame L M) : Prop where
  inv : ∃ d : InOrder e.totalRequests, SerialInv e P d t
  fillers : e.fill ≠ .pause → FillerInv e.fill t
  waits : SerialFrame.Waits t
  mem : t.mem = s.mem
  requestsCompleted : t.requestsCompleted = s.requestsCompleted
  resumes : t.resumes = s.resumes

theorem preserved_stillWaits (hP : TwoSwaps (e.program hw request locals))
    (hP' : CompletesOnce (e.program hw request locals))
    (hne : hw.status s.mem s.requestsCompleted ≠ compStatusCompleted) :
    Preserved (StepsTo (Sys.thread (e.program hw request locals)))
      (e.StillWaits (e.program hw request locals) s) := by
  rintro t t' hs ⟨⟨d, hinv⟩, hfil, hw', hm, hn, hr⟩
  have hstep := Sys.Step.thread _ _ hs
  suffices h : SerialFrame.Waits t' ∧ t'.mem = t.mem ∧
      t'.requestsCompleted = t.requestsCompleted ∧ t'.resumes = t.resumes from
    ⟨hinv.step hP hP' hfil hstep, fun hp => (hfil hp).step hP' hinv hp hstep, h.1, h.2.1.trans hm,
      h.2.2.1.trans hn, h.2.2.2.trans hr⟩
  rcases hw' with ⟨hrun, hpc⟩ | ⟨j, hrun⟩
  · simp only [StepsTo, Sys.thread, hrun, Option.some.injEq] at hs
    subst hs
    unfold Sys.executorStep
    split
    · next f hact =>
        refine ⟨.inl ⟨hrun, .inl ?_⟩, rfl, rfl, rfl⟩
        rcases SerialLoop.executor_goto hact with ⟨h', -⟩ | ⟨h', -, -, rfl⟩ | ⟨-, rfl⟩
        · simp [h'] at hpc
        · exact h'
        · rfl
    · next x y f hact =>
        obtain ⟨-, ⟨h', -⟩ | ⟨-, h', -⟩ | ⟨h', -, hp, -, hto, rfl⟩⟩ :=
          SerialLoop.executor_swap hact
        · simp [h'] at hpc
        · simp [isCompleted, hm, hn, hne] at h'
        · obtain ⟨k, rfl, -⟩ := (hfil hp).target hrun h' hto
          exact ⟨.inr ⟨_, rfl⟩, rfl, rfl, Sys.resumes_swap_filler _ _ _ _ _⟩
    · next f hact =>
        obtain ⟨h', -⟩ := SerialLoop.executor_exit hact
        simp [h'] at hpc
    · next hact => exact absurd hact (hinv.no_fault hfil hrun)
  · have hf := hfil (hinv.of_filler hrun).2.2.2
    simp only [StepsTo, Sys.thread, hrun, Option.some.injEq] at hs
    have hmove := hf.move hw hrun
    rw [show t.fillerStep hw j = t' from hs] at hmove
    cases hmove with
    | wait _ _ => exact ⟨.inr ⟨j, hrun⟩, rfl, rfl, rfl⟩
    | probe ctx hown hctx => exact ⟨.inr ⟨j, hrun⟩, rfl, rfl, rfl⟩
    | back n x hprobe hctx hst =>
        rw [hm, hn] at hst
        exact absurd hst hne

/-- The request is resumed if and only if its record is completed. -/
theorem SerialInv.resumes_iff (hP : TwoSwaps (e.program hw request locals))
    (hP' : CompletesOnce (e.program hw request locals))
    (h : SerialInv e (e.program hw request locals) d s)
    (hfil : e.fill ≠ .pause → FillerInv e.fill s) (hwaits : SerialFrame.Waits s) :
    s.Resumes (e.program hw request locals) s.requestsCompleted ↔
      hw.status s.mem s.requestsCompleted = compStatusCompleted := by
  constructor
  · intro hr
    by_contra hne
    exact Sys.not_resumes (preserved_stillWaits hP hP' hne) ⟨⟨d, h⟩, hfil, hwaits, rfl, rfl, rfl⟩
      (fun t ht => ht.resumes) hr
  · intro hst
    rcases hwaits with ⟨hrun, hpc | hpc⟩ | ⟨j, hrun⟩
    · exact h.resumes_of_wait hrun hpc hst
    · exact h.resumes_of_filled hrun hpc hst
    · exact h.resumes_of_filler (hfil (h.of_filler hrun).2.2.2) hrun hst

end serial

/-! ## Which executors resume a failed request -/

/-- At a check with a record that is not pending.  The executors of the three-phase requests
resume its request.  The other executors of requests that yield, and their fillers, do so if and
only if the record is completed. -/
theorem failedOffload_resumed (N k samples idx : ℕ) (hw : Hardware M) {m₀ : M} :
    (∀ e ∈ [executeYieldingThreePhaseRequestThroughput N idx,
        executeThreePhaseYieldingRequestsClosedSystemRequestBreakdown N],
      ∀ fns args timed submitted, RecordContract (e.yieldingThreePhase hw fns args timed)
        submitted m₀ → ∀ s, Sys.Reachable (e.yieldingThreePhase hw fns args timed) m₀ s →
      e.Checks s →
      hw.status s.mem s.frame.nextRequestOffloadToCompleteIdx ≠ compStatusPending →
      s.Resumes (e.yieldingThreePhase hw fns args timed)
        s.frame.nextRequestOffloadToCompleteIdx) ∧
    (∀ e ∈ [executeYieldingRequestsClosedSystemWithSampling k N samples idx,
        executeYieldingRequestsClosedSystemRequestBreakdownSampling k N samples,
        executeYieldingRequestsClosedSystemRequestBreakdown N],
      ∀ (offload work : ℕ → List (L → M → L × M × Next)) locals submitted,
      RecordContract (e.program hw (fun i => yieldingRequest (offload i) (work i)) locals)
        submitted m₀ →
      ∀ s,
      Sys.Reachable (e.program hw (fun i => yieldingRequest (offload i) (work i)) locals) m₀ s →
      e.Checks s →
      hw.status s.mem s.frame.nextRequestOffloadToCompleteIdx ≠ compStatusPending →
      (s.Resumes (e.program hw (fun i => yieldingRequest (offload i) (work i)) locals)
          s.frame.nextRequestOffloadToCompleteIdx ↔
        hw.status s.mem s.frame.nextRequestOffloadToCompleteIdx = compStatusCompleted)) ∧
    (∀ e ∈ [executeYieldingRequestsBestCase N, executeYieldingRequestsMultipleFillerRequests N,
        executeYieldingRequestsInterleaved N],
      ∀ (offload work : ℕ → List (L → M → L × M × Next)) locals,
      ∀ s,
      Sys.Reachable (e.program hw (fun i => yieldingRequest (offload i) (work i)) locals) m₀ s →
      SerialFrame.Waits s →
      hw.status s.mem s.requestsCompleted ≠ compStatusPending →
      (s.Resumes (e.program hw (fun i => yieldingRequest (offload i) (work i)) locals)
          s.requestsCompleted ↔
        hw.status s.mem s.requestsCompleted = compStatusCompleted)) := by
  refine ⟨fun e he fns args timed submitted hc s hr hch hst => ?_,
    fun e he offload work locals submitted hc s hr hch _ => ?_,
    fun e he offload work locals s hr hwaits _ => ?_⟩
  · obtain ⟨hon, hready⟩ : e.onCompleted = false ∧ e.ready = notPending := by
      simp only [List.mem_cons, List.not_mem_nil, or_false] at he
      rcases he with rfl | rfl <;> exact ⟨rfl, rfl⟩
    have hon' : e.onCompleted = true → CompletesOnce (e.yieldingThreePhase hw fns args timed) := by
      simp [hon]
    obtain ⟨d, h⟩ := closedInv_of_reachable (twoSwaps_yieldingThreePhase e hw fns args timed) hc
      hon' (by rw [hready]; rfl) hr
    apply (h.resumes_iff hon' hch).2
    simpa [hready, notPending] using hst
  · have hready : e.ready = isCompleted := by
      simp only [List.mem_cons, List.not_mem_nil, or_false] at he
      rcases he with rfl | rfl | rfl <;> rfl
    have hP' := completesOnce_yieldingRequest (e.program hw
      (fun i => yieldingRequest (offload i) (work i)) locals) rfl
    obtain ⟨d, h⟩ := closedInv_of_reachable (twoSwaps_yieldingRequest _ rfl) hc (fun _ => hP')
      (by rw [hready]; rfl) hr
    rw [h.resumes_iff (fun _ => hP') hch, hready]
    simp [isCompleted]
  · have hP := twoSwaps_yieldingRequest (e.program hw
      (fun i => yieldingRequest (offload i) (work i)) locals) rfl
    have hP' := completesOnce_yieldingRequest (e.program hw
      (fun i => yieldingRequest (offload i) (work i)) locals) rfl
    obtain ⟨⟨d, h⟩, hfil⟩ := serialInv_of_reachable hP hP' hr
    exact h.resumes_iff hP hP' hfil hwaits

/-- One three-phase request, whose job ends with the status 9. -/
def oneThreePhaseFailure : List (Option BoardMove) := List.replicate 8 none ++ [some (.ends 0 9)]

theorem failedOffload_resumed_threePhase :
    ∃ s, Board.schedule ((executeYieldingThreePhaseRequestThroughput 1 0).yieldingThreePhase
        Board.hardware Board.fns Board.args false) oneThreePhaseFailure = some s ∧
      s.Resumes ((executeYieldingThreePhaseRequestThroughput 1 0).yieldingThreePhase
        Board.hardware Board.fns Board.args false) 0 :=
  ⟨_, rfl, (failedOffload_resumed (L := Unit) 1 1 1 0 Board.hardware).1 _ List.mem_cons_self _ _ _ _
    (Board.recordContract_threePhase _ _ _) _
    (Board.reachable_of_schedule (l := oneThreePhaseFailure) rfl rfl)
    ⟨rfl, rfl, rfl, Nat.one_pos⟩ (by decide)⟩

/-- One request, whose job ends with the status 9. -/
def oneFailure : List (Option BoardMove) := List.replicate 5 none ++ [some (.ends 0 9)]

/-- The sampling executor on a board: the only record is not pending, nothing is left to start, and
the request is not resumed. -/
theorem failedOffload_not_resumed :
    ∃ s, Board.schedule (offeredLoad 1 1 0 Board.hardware Board.request fun _ => ()) oneFailure =
        some s ∧
      (yieldingRequestOfferedLoad 1 1 0).Checks s ∧ s.requestsCompleted = 0 ∧
      s.mem.status 0 ≠ compStatusPending ∧
      ¬ s.Resumes (offeredLoad 1 1 0 Board.hardware Board.request fun _ => ()) 0 := by
  refine ⟨_, rfl, ⟨rfl, rfl, rfl, Nat.one_pos⟩, rfl, by decide, fun hr => ?_⟩
  have hP' := completesOnce_yieldingRequest (offeredLoad 1 1 0 Board.hardware Board.request
    fun _ => ()) rfl
  obtain ⟨d, h⟩ := closedInv_of_reachable (twoSwaps_yieldingRequest _ rfl)
    (Board.recordContract_request _ _) (fun _ => hP') rfl
    (Board.reachable_of_schedule (l := oneFailure) rfl rfl)
  have hready := (h.resumes_iff (fun _ => hP') ⟨rfl, rfl, rfl, Nat.one_pos⟩).1 hr
  exact absurd hready (by decide)

end XMPGym
