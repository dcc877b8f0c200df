import XMPGym.Board
import XMPGym.ClosedLoop

/-!
# Sampled execution times

`execute_yielding_requests_closed_system_with_sampling` under `yielding_request_offered_load`: the
sample index follows `requests_completed`, every stamp is stored inside the array and once, and the
execution times written at the end are those of the successive groups of completions.
-/

open Relation Transition

namespace XMPGym

variable {L M : Type*}

/-! ## Arrays of stamps -/

theorem Writes.get_map_range (t : ℕ → ℕ) {n j : ℕ} (h : j < n) :
    Writes.get ((List.range n).map fun i => (i, t i)) j = some (t j) := by
  induction n with
  | zero => omega
  | succ n ih =>
      rw [get, List.range_succ, List.map_append, List.reverse_append]
      simp only [List.map_cons, List.map_nil, List.reverse_singleton, List.singleton_append]
      rcases eq_or_ne n j with rfl | hne
      · simp
      · rw [List.find?_cons_of_neg (by simpa using hne)]
        exact ih (by omega)

theorem exetimeSamples_map_range (t : ℕ → ℕ) (n idx : ℕ) :
    exetimeSamples ((List.range (n + 1)).map fun i => (i, t i)) n idx =
      some ((List.range n).map fun i => (idx + i, stampDiff (t (i + 1)) (t i))) := by
  have key : ∀ l : List ℕ, (∀ i ∈ l, i < n) →
      (l.mapM fun i => do
        let later ← Writes.get ((List.range (n + 1)).map fun i => (i, t i)) (i + 1)
        let earlier ← Writes.get ((List.range (n + 1)).map fun i => (i, t i)) i
        pure (idx + i, stampDiff later earlier)) =
      some (l.map fun i => (idx + i, stampDiff (t (i + 1)) (t i))) := by
    intro l hl
    induction l with
    | nil => rfl
    | cons i l ih =>
        have hi := hl i (by simp)
        rw [List.mapM_cons, ih fun j hj => hl j (by simp [hj]),
          Writes.get_map_range t (show i + 1 < n + 1 by omega),
          Writes.get_map_range t (show i < n + 1 by omega)]
        rfl
  exact key _ fun i hi => List.mem_range.1 hi

/-- The differences of successive stamps add up, as 64-bit numbers. -/
theorem sum_stampDiff (t : ℕ → ℕ) (n : ℕ) :
    ((List.range n).map fun i => stampDiff (t (i + 1)) (t i)).sum % 2 ^ 64 =
      stampDiff (t n) (t 0) := by
  induction n with
  | zero =>
      simp only [List.range_zero, List.map_nil, List.sum_nil, stampDiff]
      omega
  | succ n ih =>
      rw [List.range_succ, List.map_append, List.sum_append]
      simp only [List.map_cons, List.map_nil, List.sum_singleton, stampDiff] at ih ⊢
      omega

/-! ## The invariant of the samples -/

/-- The stamp `t` of index `j` was read in the run to `s`: before the loop for index 0, and
otherwise by the executor on its return from the completion number `j * k`. -/
def StampedAt (P : Program ClosedFrame L M) (m₀ : M) (k : ℕ) (s : Sys ClosedFrame L M)
    (j t : ℕ) : Prop :=
  ∃ s₁, Sys.Reachable P m₀ s₁ ∧ ReflTransGen (Sys.Step P) s₁ s ∧ s₁.running = .at .executor ∧
    s₁.frame.pc = (if j = 0 then .begin else .resumed) ∧ s₁.requestsCompleted = j * k ∧
    P.hw.clock s₁.mem = t

/-- The sample index and the stamps against the number of completions. -/
structure Sampled (P : Program ClosedFrame L M) (m₀ : M) (k : ℕ) (s : Sys ClosedFrame L M) :
    Prop where
  begin : s.frame.pc = .begin →
    s.frame.samplingInterval = 0 ∧ s.frame.nextRequestOffloadToCompleteIdx = 0
  interval : s.frame.pc ≠ .begin →
    s.frame.samplingInterval = 1 + s.frame.nextRequestOffloadToCompleteIdx / k
  times : ∃ t : ℕ → ℕ, s.frame.samplingIntervalCompletionTimes =
      (List.range s.frame.samplingInterval).map (fun j => (j, t j)) ∧
    ∀ j < s.frame.samplingInterval, StampedAt P m₀ k s j (t j)

/-- The executor as `yielding_request_offered_load` runs it. -/
def yieldingRequestOfferedLoad (requestsSamplingInterval totalRequests idx : ℕ) : ClosedLoop :=
  executeYieldingRequestsClosedSystemWithSampling requestsSamplingInterval totalRequests
    (totalRequests / requestsSamplingInterval + 1) idx

section sampled

variable {P : Program ClosedFrame L M} {m₀ : M} {k N idx : ℕ} {s s' : Sys ClosedFrame L M}

theorem StampedAt.mono {j t : ℕ} (h : StampedAt P m₀ k s j t) (hs : Sys.Step P s s') :
    StampedAt P m₀ k s' j t := by
  obtain ⟨s₁, hr, hrun, h⟩ := h
  exact ⟨s₁, hr, hrun.tail hs, h⟩

/-- Steps that leave the frame alone keep the samples. -/
theorem Sampled.congr (h : Sampled P m₀ k s) (hs : Sys.Step P s s') (hf : s'.frame = s.frame) :
    Sampled P m₀ k s' where
  begin := by rw [hf]; exact h.begin
  interval := by rw [hf]; exact h.interval
  times := by
    obtain ⟨t, ht, horig⟩ := h.times
    rw [hf]
    exact ⟨t, ht, fun j hj => (horig j hj).mono hs⟩

end sampled

section executor

variable {hw : Hardware M} {request : ℕ → List (Instr L M)} {locals : ℕ → L}
  {submitted : M → ℕ → Prop} {m₀ : M} {k N idx : ℕ}
  {d : InOrder (yieldingRequestOfferedLoad k N idx).totalRequests}
  {s s' : Sys ClosedFrame L M}

/-- The executor with its requests. -/
abbrev offeredLoad (k N idx : ℕ) (hw : Hardware M) (request : ℕ → List (Instr L M))
    (locals : ℕ → L) : Program ClosedFrame L M :=
  (yieldingRequestOfferedLoad k N idx).program hw request locals

theorem sample_offeredLoad (hk : 1 ≤ k) (f : ClosedFrame) (c clock : ℕ) :
    f.sample (yieldingRequestOfferedLoad k N idx) c clock =
      if c % k = 0 ∧ 0 < c then
        if f.samplingInterval < N / k + 1 then some (f.stamp clock) else none
      else some f := by
  have hk' : k ≠ 0 := by omega
  simp [ClosedFrame.sample, yieldingRequestOfferedLoad,
    executeYieldingRequestsClosedSystemWithSampling, hk']

/-- Taking the next stamp. -/
theorem Sampled.stamp {f : ClosedFrame} {P : Program ClosedFrame L M} (h : Sampled P m₀ k s)
    (hr : Sys.Reachable P m₀ s) (hs : Sys.Step P s s') (hrun : s.running = .at .executor)
    (hpc : s.frame.pc = if s.frame.samplingInterval = 0 then .begin else .resumed)
    (hcount : s.requestsCompleted = s.frame.samplingInterval * k)
    (hf : f.samplingInterval = s.frame.samplingInterval)
    (hf' : f.samplingIntervalCompletionTimes = s.frame.samplingIntervalCompletionTimes) :
    ∃ t : ℕ → ℕ, (f.stamp (P.hw.clock s.mem)).samplingIntervalCompletionTimes =
        (List.range (f.stamp (P.hw.clock s.mem)).samplingInterval).map (fun j => (j, t j)) ∧
      ∀ j < (f.stamp (P.hw.clock s.mem)).samplingInterval, StampedAt P m₀ k s' j (t j) := by
  obtain ⟨t, ht, horig⟩ := h.times
  simp only [ClosedFrame.stamp, hf, hf']
  refine ⟨Function.update t s.frame.samplingInterval (P.hw.clock s.mem), ?_, fun j hj => ?_⟩
  · rw [List.range_succ, List.map_append, ht]
    congr 1
    · refine List.map_congr_left fun j hj => ?_
      rw [Function.update_of_ne (Nat.ne_of_lt (List.mem_range.1 hj))]
    · simp
  · rcases eq_or_ne j s.frame.samplingInterval with rfl | hne
    · rw [Function.update_self]
      exact ⟨s, hr, .single hs, hrun, hpc, hcount, rfl⟩
    · rw [Function.update_of_ne hne]
      exact (horig j (by omega)).mono hs

/-- The number of complete groups after one more completion. -/
theorem succ_div_group (c k : ℕ) :
    (c + 1) / k = if (c + 1) % k = 0 then c / k + 1 else c / k := by
  rw [Nat.succ_div]
  simp only [Nat.dvd_iff_mod_eq_zero]
  split_ifs <;> rfl

/-- What the invariant of the loop says at the return from a resumed request. -/
theorem ClosedInv.resumed (hP : CompletesOnce (offeredLoad k N idx hw request locals))
    (h : ClosedInv _ (offeredLoad k N idx hw request locals) submitted d s)
    (hrun : s.running = .at .executor) (hpc : s.frame.pc = .resumed) :
    s.requestsCompleted = s.frame.nextRequestOffloadToCompleteIdx + 1 ∧
      s.requestsCompleted ≤ N := by
  have ht := h.follows.scheduler_of_executor hrun
  have hag := h.agrees
  have hcount := (h.counted hP).count
  have h₁ := d.resumed_le
  have h₂ : d.started ≤ N := d.started_le
  simp only [ht, reduceCtorEq, if_false, Nat.add_zero] at hcount
  simp only [ClosedFrame.Agrees, hpc, ht, reduceCtorEq, false_and, true_and, false_or] at hag
  omega

/-- Except at the return from a resumed request the two counts agree. -/
theorem ClosedInv.count_eq (hP : CompletesOnce (offeredLoad k N idx hw request locals))
    (h : ClosedInv _ (offeredLoad k N idx hw request locals) submitted d s)
    (hpc : s.frame.pc ≠ .resumed) :
    s.requestsCompleted = s.frame.nextRequestOffloadToCompleteIdx := by
  have hcount := (h.counted hP).count
  have hag := h.agrees
  have ht : d.turn ≠ .resuming := by
    intro ht
    cases hx : s.frame.pc <;> simp [ClosedFrame.Agrees, hx, ht] at hag hpc
  simp only [ht, if_false, Nat.add_zero] at hcount
  cases hx : s.frame.pc <;> simp only [ClosedFrame.Agrees, hx] at hag hpc
  case started => omega
  case resumed => exact absurd rfl hpc
  all_goals omega

/-- A local step of the executor keeps the samples. -/
theorem Sampled.goto (hk : 1 ≤ k) (hP : CompletesOnce (offeredLoad k N idx hw request locals))
    (h : Sampled (offeredLoad k N idx hw request locals) m₀ k s)
    (hinv : ClosedInv _ (offeredLoad k N idx hw request locals) submitted d s)
    (hr : Sys.Reachable (offeredLoad k N idx hw request locals) m₀ s) {g : ClosedFrame}
    (hs : Sys.Step (offeredLoad k N idx hw request locals) s { s with frame := g })
    (hrun : s.running = .at .executor)
    (hact : (yieldingRequestOfferedLoad k N idx).executor hw s.frame s.arrived
      s.requestsCompleted s.mem = .goto g) :
    Sampled (offeredLoad k N idx hw request locals) m₀ k { s with frame := g } := by
  have hag := hinv.agrees
  have ht := hinv.follows.scheduler_of_executor hrun
  obtain ⟨t, hold, horig⟩ := h.times
  -- the new frame has the samples of the old one
  have keep : s.frame.pc ≠ .begin → g.pc ≠ .begin →
      g.samplingInterval = s.frame.samplingInterval →
      g.samplingIntervalCompletionTimes = s.frame.samplingIntervalCompletionTimes →
      g.nextRequestOffloadToCompleteIdx / k = s.frame.nextRequestOffloadToCompleteIdx / k →
      Sampled (offeredLoad k N idx hw request locals) m₀ k { s with frame := g } :=
    fun h₁ h₂ h₃ h₄ h₅ => ⟨fun h' => absurd h' h₂, fun _ => by rw [h₃, h₅, h.interval h₁],
      t, by rw [h₃, h₄, hold], fun j hj => (horig j (h₃ ▸ hj)).mono hs⟩
  rcases ClosedLoop.executor_goto hact with ⟨hpc, -⟩ | ⟨hpc, rfl⟩ | ⟨hpc, -, rfl⟩ |
    ⟨hpc, rfl⟩ | ⟨hpc, f', hf', rfl⟩
  · have hg : { s.frame.stamp (hw.clock s.mem) with pc := .loop } = g := by
      simpa [ClosedLoop.executor, hpc, ClosedLoop.begin, yieldingRequestOfferedLoad,
        executeYieldingRequestsClosedSystemWithSampling, show k ≠ 0 by omega] using hact
    obtain ⟨hzero, hnc⟩ := h.begin hpc
    have hcount : s.requestsCompleted = 0 := by
      have := (hinv.counted hP).count
      simp only [ClosedFrame.Agrees, hpc] at hag
      simp only [ht, reduceCtorEq, if_false, Nat.add_zero] at this
      omega
    obtain ⟨t', ht', horig'⟩ := h.stamp (f := s.frame) hr hs hrun (by rw [hpc, hzero]; rfl)
      (by rw [hcount, hzero, Nat.zero_mul]) rfl rfl
    subst hg
    refine ⟨fun h' => by simp at h', fun _ => ?_, t', ht', horig'⟩
    simp [ClosedFrame.stamp, hzero, hnc]
  · exact keep (by simp [hpc]) (by simp [hpc]) rfl rfl rfl
  · exact keep (by simp [hpc]) (by simp) rfl rfl rfl
  · exact keep (by simp [hpc]) (by simp) rfl rfl rfl
  · obtain ⟨hc, -⟩ := hinv.resumed hP hrun hpc
    rw [sample_offeredLoad hk] at hf'
    have hint := h.interval (by simp [hpc])
    have hne : s.frame.samplingInterval ≠ 0 := by
      rw [hint]
      exact Nat.ne_of_gt (Nat.add_pos_left Nat.one_pos _)
    have hgroup := succ_div_group s.frame.nextRequestOffloadToCompleteIdx k
    split_ifs at hf' with h₁ h₂
    · obtain rfl := Option.some.inj hf'
      rw [hc] at h₁
      rw [if_pos h₁.1] at hgroup
      have hcount : s.requestsCompleted = s.frame.samplingInterval * k := by
        rw [hc, hint, Nat.add_comm 1, ← hgroup]
        exact (Nat.div_mul_cancel (Nat.dvd_of_mod_eq_zero h₁.1)).symm
      obtain ⟨t', ht', horig'⟩ := h.stamp (f := { s.frame with
        nextRequestOffloadToCompleteIdx := s.frame.nextRequestOffloadToCompleteIdx + 1 }) hr hs hrun
        (by rw [hpc, if_neg hne]) hcount rfl rfl
      refine ⟨fun h' => by simp at h', fun _ => ?_, t', ht', horig'⟩
      simp only [ClosedFrame.stamp]
      rw [hint, hgroup]
      omega
    · obtain rfl := Option.some.inj hf'
      refine keep (by simp [hpc]) (by simp) rfl rfl ?_
      rw [hc] at h₁
      rwa [if_neg (fun h' => h₁ ⟨h', by omega⟩)] at hgroup

/-- After the loop all stamps are there, and the execution times can be computed. -/
theorem Sampled.finish (hP : CompletesOnce (offeredLoad k N idx hw request locals))
    (h : Sampled (offeredLoad k N idx hw request locals) m₀ k s)
    (hinv : ClosedInv _ (offeredLoad k N idx hw request locals) submitted d s)
    (hpc : s.frame.pc = .finish) :
    ∃ t : ℕ → ℕ, s.frame.samplingIntervalCompletionTimes =
        (List.range (N / k + 1)).map (fun j => (j, t j)) ∧
      exetimeSamples s.frame.samplingIntervalCompletionTimes (N / k) idx =
        some ((List.range (N / k)).map fun i => (idx + i, stampDiff (t (i + 1)) (t i))) ∧
      ∀ j ≤ N / k, StampedAt (offeredLoad k N idx hw request locals) m₀ k s j (t j) := by
  obtain ⟨t, ht, horig⟩ := h.times
  have hint := h.interval (by simp [hpc])
  have hcount : s.frame.nextRequestOffloadToCompleteIdx = N := by
    have hag := hinv.agrees
    have hc := (hinv.counted hP).count
    have hle : N ≤ s.requestsCompleted := hinv.finished hpc
    have h₁ := d.resumed_le
    have h₂ : d.started ≤ N := d.started_le
    simp only [ClosedFrame.Agrees, hpc] at hag
    simp only [hag.1, reduceCtorEq, if_false, Nat.add_zero] at hc
    omega
  rw [hcount, Nat.add_comm] at hint
  rw [hint] at ht horig
  exact ⟨t, ht, by rw [ht, exetimeSamples_map_range], fun j hj => horig j (by omega)⟩

/-- The samples never leave their array. -/
theorem Sampled.no_fault (hk : 1 ≤ k) (hP : CompletesOnce (offeredLoad k N idx hw request locals))
    (h : Sampled (offeredLoad k N idx hw request locals) m₀ k s)
    (hinv : ClosedInv _ (offeredLoad k N idx hw request locals) submitted d s)
    (hrun : s.running = .at .executor) :
    (yieldingRequestOfferedLoad k N idx).executor hw s.frame s.arrived s.requestsCompleted s.mem ≠
      .fault := by
  intro hact
  have ht := hinv.follows.scheduler_of_executor hrun
  rcases hinv.fault_pc (fun _ => hP) rfl hrun hact with ⟨-, h'⟩ | ⟨hpc, h'⟩ | ⟨hpc, h'⟩
  · simp [ClosedLoop.begin, yieldingRequestOfferedLoad,
      executeYieldingRequestsClosedSystemWithSampling, show k ≠ 0 by omega] at h'
  · obtain ⟨hc, hle⟩ := hinv.resumed hP hrun hpc
    have hint := h.interval (by simp [hpc])
    have hgroup := succ_div_group s.frame.nextRequestOffloadToCompleteIdx k
    rw [sample_offeredLoad hk] at h'
    split_ifs at h' with h₁ h₂
    rw [hc] at h₁
    rw [if_pos h₁.1] at hgroup
    have := Nat.div_le_div_right (c := k) (hc ▸ hle)
    exact h₂ (by simp only; omega)
  · obtain ⟨t, -, hw, -⟩ := h.finish hP hinv hpc
    simp [ClosedLoop.finish, yieldingRequestOfferedLoad,
      executeYieldingRequestsClosedSystemWithSampling, hw] at h'

/-! ## The run -/

/-- The samples of a run, and the execution times, which are written on exit. -/
structure SampledRun (P : Program ClosedFrame L M) (m₀ : M) (k N idx : ℕ)
    (s : Sys ClosedFrame L M) : Prop where
  samples : Sampled P m₀ k s
  noFault : s.running ≠ .fault
  before : s.running ≠ .exited → s.frame.exetime = []
  after : s.running = .exited → ∃ t : ℕ → ℕ,
    s.frame.samplingIntervalCompletionTimes = (List.range (N / k + 1)).map (fun j => (j, t j)) ∧
    s.frame.exetime = (List.range (N / k)).map (fun i => (idx + i, stampDiff (t (i + 1)) (t i))) ∧
    ∀ j ≤ N / k, StampedAt P m₀ k s j (t j)

theorem SampledRun.step (hk : 1 ≤ k) (hP : CompletesOnce (offeredLoad k N idx hw request locals))
    (h : SampledRun (offeredLoad k N idx hw request locals) m₀ k N idx s)
    (hinv : ClosedInv _ (offeredLoad k N idx hw request locals) submitted d s)
    (hr : Sys.Reachable (offeredLoad k N idx hw request locals) m₀ s)
    (hs : Sys.Step (offeredLoad k N idx hw request locals) s s') :
    SampledRun (offeredLoad k N idx hw request locals) m₀ k N idx s' := by
  -- a step of a fiber leaves the frame alone and does not end the executor
  have fiber : s'.frame = s.frame → s.running ≠ .exited → s'.running ≠ .fault →
      s'.running ≠ .exited → SampledRun (offeredLoad k N idx hw request locals) m₀ k N idx s' :=
    fun hf h₁ h₂ h₃ => ⟨h.samples.congr hs hf, h₂, fun _ => by rw [hf, h.before h₁],
      fun h' => absurd h' h₃⟩
  cases hinv.follows.move hs with
  | hw m hm =>
      refine ⟨h.samples.congr hs rfl, h.noFault, h.before, fun hx => ?_⟩
      obtain ⟨t, h₁, h₂, horig⟩ := h.after hx
      exact ⟨t, h₁, h₂, fun j hj => (horig j hj).mono hs⟩
  | goto g hrun hact =>
      have hex : g.exetime = s.frame.exetime := by
        rcases ClosedLoop.executor_goto hact with ⟨-, -, -, he⟩ | ⟨-, rfl⟩ | ⟨-, -, rfl⟩ |
          ⟨-, rfl⟩ | ⟨-, f', hf', rfl⟩
        · exact he
        · rfl
        · rfl
        · rfl
        · exact (ClosedFrame.exetime_sample hf' :)
      exact ⟨h.samples.goto hk hP hinv hr hs hrun hact, h.noFault,
        fun h' => hex.trans (h.before h'), fun h' => by simp [hrun] at h'⟩
  | exit g hrun hact =>
      obtain ⟨hpc, -⟩ := ClosedLoop.executor_exit hact
      obtain ⟨t, ht, hw', horig⟩ := h.samples.finish hP hinv hpc
      have hg : { s.frame with exetime := s.frame.exetime ++
          (List.range (N / k)).map fun i => (idx + i, stampDiff (t (i + 1)) (t i)) } = g := by
        have e : (yieldingRequestOfferedLoad k N idx).executor hw s.frame s.arrived
          s.requestsCompleted s.mem = .exit g := hact
        simpa [ClosedLoop.executor, hpc, ClosedLoop.finish, yieldingRequestOfferedLoad,
          executeYieldingRequestsClosedSystemWithSampling, hw'] using e
      have hbefore := h.before (by simp [hrun])
      obtain ⟨t', ht', horig'⟩ := h.samples.times
      subst hg
      refine ⟨⟨fun h' => by simp [hpc] at h', fun _ => h.samples.interval (by simp [hpc]), t', ht',
        fun j hj => (horig' j hj).mono hs⟩, by simp, fun h' => by simp at h', fun _ => ?_⟩
      exact ⟨t, ht, by simp [hbefore], fun j hj => (horig j hj).mono hs⟩
  | fault hrun hact => exact absurd hact (h.samples.no_fault hk hP hinv hrun)
  | swap t x g hrun hact =>
      obtain ⟨hpc, -, hg⟩ := ClosedLoop.executor_swap hact
      obtain ⟨hpc', hsame⟩ : g.pc ≠ .begin ∧ g = { s.frame with pc := g.pc } := by
        rcases hg with ⟨-, xfer, -, -, rfl⟩ | ⟨-, -, -, rfl⟩ <;> exact ⟨by simp, rfl⟩
      obtain ⟨t', ht', horig'⟩ := h.samples.times
      refine ⟨⟨fun h' => absurd h' (by simpa using hpc'), fun _ => ?_, t', ?_, fun j hj => ?_⟩,
        by simp, fun _ => ?_, fun h' => by simp at h'⟩
      · rw [Sys.swap_frame, hsame]
        exact h.samples.interval (by simp [hpc])
      · rw [Sys.swap_frame, hsame]
        exact ht'
      · rw [Sys.swap_frame, hsame] at hj
        exact (horig' j hj).mono hs
      · rw [Sys.swap_frame, hsame]
        exact h.before (by simp [hrun])
  | op i f c hrun hcode =>
      refine fiber rfl (by simp [hrun]) ?_ ?_ <;>
        (simp only [Sys.instr, hrun]; split_ifs <;> simp)
  | completed i c hrun hcode =>
      exact fiber rfl (by simp [hrun]) (by simp [Sys.setCode, hrun]) (by simp [Sys.setCode, hrun])
  | back i n c x hrun hcode harg =>
      exact fiber rfl (by simp [hrun]) (by simp) (by simp)
  | filler i hrun => exact absurd hrun (hinv.running_ne_filler i)

theorem sampledRun_init :
    SampledRun (offeredLoad k N idx hw request locals) m₀ k N idx
      (.init (offeredLoad k N idx hw request locals) m₀) where
  samples := ⟨fun _ => ⟨rfl, rfl⟩, fun h => absurd rfl h, fun _ => 0, rfl,
    fun j hj => absurd hj (Nat.not_lt_zero j)⟩
  noFault := by simp [Sys.init]
  before _ := rfl
  after h := by simp [Sys.init] at h

theorem sampledRun_of_reachable (hk : 1 ≤ k)
    (hP : CompletesOnce (offeredLoad k N idx hw request locals))
    (hP' : TwoSwaps (offeredLoad k N idx hw request locals))
    (hc : RecordContract (offeredLoad k N idx hw request locals) submitted m₀)
    (hr : Sys.Reachable (offeredLoad k N idx hw request locals) m₀ s) :
    SampledRun (offeredLoad k N idx hw request locals) m₀ k N idx s := by
  induction hr with
  | refl => exact sampledRun_init
  | tail hr hs ih =>
      obtain ⟨d, hinv⟩ := closedInv_of_reachable hP' hc (fun _ => hP) rfl hr
      exact ih.step hk hP hinv hr hs

end executor

/-- In every reachable state of the sampling executor: nothing is used out of bounds;
`requests_completed` equals `next_request_offload_to_complete_idx`, from which it differs only
between a request's increment and the executor's; the sample index counts the complete groups; the
stamps have been stored once each, in order, inside the array; requests are started and resumed in
order.  On exit `exetime` holds the times between the completions number `i * k` and
`(i + 1) * k`, and they add up to the time from the start to the last stamp. -/
theorem withSampling_invariant (k N idx : ℕ) (hk : 1 ≤ k) (hw : Hardware M)
    (offload work : ℕ → List (L → M → L × M × Next)) (locals : ℕ → L)
    (submitted : M → ℕ → Prop) {m₀ : M}
    (hc : RecordContract (offeredLoad k N idx hw
      (fun i => yieldingRequest (offload i) (work i)) locals) submitted m₀)
    {s : Sys ClosedFrame L M}
    (hr : Sys.Reachable (offeredLoad k N idx hw
      (fun i => yieldingRequest (offload i) (work i)) locals) m₀ s) :
    s.running ≠ .fault ∧
    s.frame.nextRequestOffloadToCompleteIdx ≤ s.frame.nextUnstartedReqIdx ∧
    s.frame.nextUnstartedReqIdx ≤ N ∧
    (s.frame.pc ≠ .resumed → s.requestsCompleted = s.frame.nextRequestOffloadToCompleteIdx) ∧
    (s.frame.pc = .resumed → s.running = .at .executor →
      s.requestsCompleted = s.frame.nextRequestOffloadToCompleteIdx + 1) ∧
    (s.frame.pc ≠ .begin →
      s.frame.samplingInterval = 1 + s.frame.nextRequestOffloadToCompleteIdx / k) ∧
    s.frame.samplingInterval ≤ N / k + 1 ∧
    s.frame.samplingIntervalCompletionTimes.map Prod.fst = List.range s.frame.samplingInterval ∧
    (∃ n ≤ N, s.starts = List.range n) ∧ (∃ n ≤ N, s.resumes = List.range n) ∧
    (s.running ≠ .exited → s.frame.exetime = []) ∧
    (s.running = .exited →
      s.starts = List.range N ∧ s.resumes = List.range N ∧
      ∃ t : ℕ → ℕ,
        s.frame.exetime =
          (List.range (N / k)).map (fun i => (idx + i, stampDiff (t (i + 1)) (t i))) ∧
        (s.frame.exetime.map Prod.snd).sum % 2 ^ 64 = stampDiff (t (N / k)) (t 0) ∧
        ∀ j ≤ N / k, StampedAt (offeredLoad k N idx hw
          (fun i => yieldingRequest (offload i) (work i)) locals) m₀ k s j (t j)) := by
  have hP := completesOnce_yieldingRequest (offeredLoad k N idx hw
    (fun i => yieldingRequest (offload i) (work i)) locals) rfl
  have hP' := twoSwaps_yieldingRequest (offeredLoad k N idx hw
    (fun i => yieldingRequest (offload i) (work i)) locals) rfl
  obtain ⟨d, hinv⟩ := closedInv_of_reachable hP' hc (fun _ => hP) rfl hr
  have hrun := sampledRun_of_reachable hk hP hP' hc hr
  obtain ⟨hle, hleN⟩ := hinv.indices_le
  have hinterval := hrun.samples.interval
  refine ⟨hrun.noFault, hle, hleN, fun hpc => ?_, fun hpc hx => (hinv.resumed hP hx hpc).1,
    hinterval, ?_, ?_, hinv.follows.starts ▸ d.starts_eq, hinv.follows.resumes ▸ d.resumes_eq,
    hrun.before, fun hx => ?_⟩
  · exact hinv.count_eq hP hpc
  · rcases eq_or_ne s.frame.pc .begin with hpc | hpc
    · rw [(hrun.samples.begin hpc).1]
      exact Nat.zero_le _
    · rw [hinterval hpc, Nat.add_comm]
      exact Nat.succ_le_succ (Nat.div_le_div_right (Nat.le_trans hle hleN))
  · obtain ⟨t, ht, -⟩ := hrun.samples.times
    rw [ht, List.map_map]
    exact List.map_id' _
  · obtain ⟨h₁, h₂⟩ := hinv.exited (fun _ => hP) hx
    obtain ⟨t, -, hex, horig⟩ := hrun.after hx
    refine ⟨h₁, h₂, t, hex, ?_, horig⟩
    rw [hex, List.map_map]
    exact sum_stampDiff t (N / k)

/-- Three requests on a board, with a sample after the second: its clock reads 2 then. -/
def threeRequests : List (Option BoardMove) :=
  List.replicate 13 none ++ [some (.ends 1 1), some .tick, some (.ends 0 1), some .tick] ++
    List.replicate 10 none ++ [some .tick, none, some (.ends 2 1)] ++ List.replicate 7 none

theorem withSampling_invariant_three :
    ∃ s, Board.schedule (offeredLoad 2 3 5 Board.hardware Board.request fun _ => ())
        threeRequests = some s ∧
      s.frame.exetime = [(5, 2)] ∧ s.starts = List.range 3 ∧ s.frame.samplingInterval ≤ 2 := by
  refine ⟨_, rfl, rfl, ?_⟩
  have h := withSampling_invariant 2 3 5 (by decide) Board.hardware Board.offload Board.work
    (fun _ => ()) _ (Board.recordContract_request _ _)
    (Board.reachable_of_schedule (l := threeRequests) rfl rfl)
  exact ⟨(h.2.2.2.2.2.2.2.2.2.2.2 rfl).1, h.2.2.2.2.2.2.1⟩

end XMPGym
