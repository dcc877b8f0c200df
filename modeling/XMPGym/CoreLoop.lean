import XMPGym.BlockingLoop
import XMPGym.Board
import XMPGym.TimerUtils

/-!
# The loops that count

Seven executors of `src/request_executors.cpp` enter one request after the other until
`requests_completed` has reached the number of requests.  The index of the next context is kept
beside it and not compared with anything.  A request counts itself once before it comes back, so
the loops run like those that test the index.
-/

open Relation Transition

namespace XMPGym

variable {F F' L M : Type*}

/-! ## The loops -/

/-- Where the times before and after the loop are kept. -/
inductive CoreTimes where
  /-- they are not taken -/
  | none
  /-- `start` and `end` -/
  | locals
  /-- `sampling_interval_completion_times`, which has room for `timestamps` -/
  | array (timestamps : ℕ)
  deriving DecidableEq, Repr

/-- Whether there is room for the time at index `i`. -/
def CoreTimes.room : CoreTimes → ℕ → Bool
  | .array timestamps, i => i < timestamps
  | _, _ => true

/-- The local variables of a loop that counts and the arrays it writes; `start` and `end` are kept
as the entries 0 and 1 of the times. -/
structure CoreFrame where
  pc : BlockingPc
  nextUnstartedReqIdx : ℕ
  samplingInterval : ℕ
  times : Writes
  exetime : Writes
  deriving DecidableEq, Repr

/-- The frame in which a loop that counts begins. -/
def CoreFrame.init : CoreFrame := ⟨.begin, 0, 0, [], []⟩

/-- What tells these loops apart: the times they take, and the slot of the execution time. -/
structure CoreLoop where
  totalRequests : ℕ
  times : CoreTimes
  idx : Option ℕ

/-- A time is stored, if any is taken. -/
def CoreLoop.stamp (e : CoreLoop) (f : CoreFrame) (clock : ℕ) : CoreFrame :=
  match e.times with
  | .none => f
  | _ => { f with times := f.times ++ [(f.samplingInterval, clock)] }

/-- After the loop: the last time, and `exetime[idx] = times[sampling_interval] - times[0]`.  The
breakdown forms end before their averages, which need a request and are `requestBreakdown`. -/
def CoreLoop.finish (e : CoreLoop) (f : CoreFrame) (clock : ℕ) : Act CoreFrame :=
  if e.times.room f.samplingInterval then
    match e.idx with
    | none => .exit (e.stamp f clock)
    | some idx =>
        match (e.stamp f clock).times.get f.samplingInterval, (e.stamp f clock).times.get 0 with
        | some later, some earlier =>
            .exit { e.stamp f clock with exetime := f.exetime ++ [(idx, stampDiff later earlier)] }
        | _, _ => .fault
  else .fault

/-- The loop that counts: enter the next context until all requests have counted themselves. -/
def CoreLoop.executor (e : CoreLoop) (hw : Hardware M) : Executor CoreFrame M :=
  fun f _ completed m =>
    match f.pc with
    | .begin =>
        if e.times.room 0 then
          .goto { e.stamp f (hw.clock m) with
            pc := .loop
            samplingInterval := f.samplingInterval + 1 }
        else .fault
    | .loop =>
        if completed < e.totalRequests then
          if f.nextUnstartedReqIdx < e.totalRequests then
            .swap (fcontextCreate (.request f.nextUnstartedReqIdx))
              (.offArgs f.nextUnstartedReqIdx) { f with pc := .returned }
          else .fault
        else .goto { f with pc := .finish }
    | .returned =>
        .goto { f with pc := .loop, nextUnstartedReqIdx := f.nextUnstartedReqIdx + 1 }
    | .finish => e.finish f (hw.clock m)

/-- `execute_blocking_requests_closed_system_with_sampling` -/
def executeBlockingRequestsClosedSystemWithSampling
    (totalRequests samplingIntervalTimestamps idx : ℕ) : CoreLoop :=
  ⟨totalRequests, .array samplingIntervalTimestamps, some idx⟩

/-- `execute_blocking_requests_closed_system_request_breakdown`, the overload that takes sampling
parameters. -/
def executeBlockingRequestsClosedSystemRequestBreakdownSampling
    (totalRequests samplingIntervalTimestamps : ℕ) : CoreLoop :=
  ⟨totalRequests, .array samplingIntervalTimestamps, none⟩

/-- `execute_cpu_requests_closed_system_with_sampling` -/
def executeCpuRequestsClosedSystemWithSampling
    (totalRequests samplingIntervalTimestamps idx : ℕ) : CoreLoop :=
  ⟨totalRequests, .array samplingIntervalTimestamps, some idx⟩

/-- `execute_cpu_requests_closed_system_request_breakdown` -/
def executeCpuRequestsClosedSystemRequestBreakdown
    (totalRequests samplingIntervalTimestamps : ℕ) : CoreLoop :=
  ⟨totalRequests, .array samplingIntervalTimestamps, none⟩

/-- `execute_gpcore_requests_closed_system_request_breakdown` -/
def executeGpcoreRequestsClosedSystemRequestBreakdown (totalRequests : ℕ) : CoreLoop :=
  ⟨totalRequests, .none, none⟩

/-- `execute_gpcore_requests_closed_system_with_sampling` -/
def executeGpcoreRequestsClosedSystemWithSampling (totalRequests idx : ℕ) : CoreLoop :=
  ⟨totalRequests, .locals, some idx⟩

/-- `execute_blocking_requests_closed_system_request_breakdown`, the overload without sampling. -/
def executeBlockingRequestsClosedSystemRequestBreakdown (totalRequests : ℕ) : CoreLoop :=
  ⟨totalRequests, .none, none⟩

/-- The seven loops, for arrays of times with room for `timestamps`. -/
def coreLoops (totalRequests timestamps idx : ℕ) : List CoreLoop :=
  [executeBlockingRequestsClosedSystemWithSampling totalRequests timestamps idx,
    executeBlockingRequestsClosedSystemRequestBreakdownSampling totalRequests timestamps,
    executeCpuRequestsClosedSystemWithSampling totalRequests timestamps idx,
    executeCpuRequestsClosedSystemRequestBreakdown totalRequests timestamps,
    executeGpcoreRequestsClosedSystemRequestBreakdown totalRequests,
    executeGpcoreRequestsClosedSystemWithSampling totalRequests idx,
    executeBlockingRequestsClosedSystemRequestBreakdown totalRequests]

/-- A loop that counts with its requests. -/
def CoreLoop.program (e : CoreLoop) (hw : Hardware M) (request : ℕ → List (Instr L M))
    (locals : ℕ → L) : Program CoreFrame L M :=
  ⟨hw, e.executor hw, .init, request, locals⟩

/-- A request that works, counts itself and goes back to the scheduler for good. -/
def blockingRequest (work : List (L → M → L × M × Next)) : List (Instr L M) :=
  work.map .op ++ [.completed, .swap]

/-- Every request increments `requests_completed` once, before its first swap. -/
def CountsFirst (P : Program F L M) : Prop :=
  ∀ i, completesLeft (P.request i) = 1 ∧ ∀ c, .swap :: c <:+ P.request i → completesLeft c = 0

theorem oneSwap_blockingRequest (P : Program F L M) {work : ℕ → List (L → M → L × M × Next)}
    (h : P.request = fun i => blockingRequest (work i)) : OneSwap P := by
  intro i
  simp [h, blockingRequest, swapsLeft_append]

theorem countsFirst_blockingRequest (P : Program F L M) {work : ℕ → List (L → M → L × M × Next)}
    (h : P.request = fun i => blockingRequest (work i)) : CountsFirst P := by
  intro i
  rw [h]
  refine ⟨by simp [blockingRequest, completesLeft_append], fun c hc => ?_⟩
  rcases suffix_ops_append hc with hc | ⟨ops, hops⟩
  · rcases List.suffix_cons_iff.1 hc with h' | hc
    · cases h'
    · rcases List.suffix_cons_iff.1 hc with h' | hc
      · obtain ⟨-, rfl⟩ := List.cons.inj h'
        rfl
      · cases List.suffix_nil.1 hc
  · cases ops <;> cases hops

/-! ## Frames -/

/-- An action, its frame seen through `g`. -/
def Act.map (g : F → F') : Act F → Act F'
  | .goto f => .goto (g f)
  | .swap t x f => .swap t x (g f)
  | .exit f => .exit (g f)
  | .fault => .fault

/-- A state, its frame seen through `g`. -/
def Sys.mapFrame (g : F → F') (s : Sys F L M) : Sys F' L M where
  running := s.running
  frame := g s.frame
  arrived := s.arrived
  request := s.request
  filler := s.filler
  requestsCompleted := s.requestsCompleted
  pSig := s.pSig
  schedCtx := s.schedCtx
  handles := s.handles
  swaps := s.swaps
  mem := s.mem

namespace Sys

variable {P : Program F L M} {P' : Program F' L M} {g : F → F'} {s : Sys F L M}

theorem mapFrame_swap (self : Ctx) (t : Handle Ctx) (x : Data) :
    (s.mapFrame g).fcontextSwap self t x = (s.fcontextSwap self t x).mapFrame g := by
  obtain ⟨o, n⟩ := t
  cases o <;> rfl

theorem mapFrame_instr (i : ℕ) (c : List (Instr L M)) (ins : Instr L M) :
    (s.mapFrame g).instr i c ins = (s.instr i c ins).mapFrame g := by
  cases ins with
  | op f => rfl
  | completed => rfl
  | swap =>
      simp only [instr]
      split
      · next arg harg =>
          simp only [show (s.request i).arg = some arg from harg]
          exact mapFrame_swap (s := s.setCode i c) _ _ _
      · next harg =>
          simp only [show (s.request i).arg = none from harg]
          rfl

theorem mapFrame_fillerStep (hw : Hardware M) (i : ℕ) :
    (s.mapFrame g).fillerStep hw i = (s.fillerStep hw i).mapFrame g := by
  have hsig : (s.mapFrame g).isSignalSet hw = s.isSignalSet hw := rfl
  simp only [fillerStep, show (s.mapFrame g).filler = s.filler from rfl,
    show (s.mapFrame g).schedCtx = s.schedCtx from rfl, hsig]
  cases (s.filler i).pc with
  | entry => rfl
  | probe =>
      simp only
      split
      · exact mapFrame_swap (s := s.setFillerPc i .resumed) _ _ _
      · rfl
      · rfl
  | resumed => rfl

/-- The thread of one program moves like that of another one with the same requests, where their
executors do. -/
theorem thread_mapFrame (hhw : P'.hw = P.hw)
    (hact : s.running = .at .executor →
      P'.executor (g s.frame) s.arrived s.requestsCompleted s.mem =
        (P.executor s.frame s.arrived s.requestsCompleted s.mem).map g) :
    (s.mapFrame g).thread P' = (s.thread P).map (mapFrame g) := by
  simp only [thread, show (s.mapFrame g).running = s.running from rfl]
  split
  · next hrun =>
      simp only [Option.map_some, executorStep]
      rw [show (s.mapFrame g).frame = g s.frame from rfl,
        show (s.mapFrame g).arrived = s.arrived from rfl,
        show (s.mapFrame g).requestsCompleted = s.requestsCompleted from rfl,
        show (s.mapFrame g).mem = s.mem from rfl, hact hrun]
      cases P.executor s.frame s.arrived s.requestsCompleted s.mem with
      | swap t x f => exact congrArg some (mapFrame_swap (s := { s with frame := f }) _ _ _)
      | _ => rfl
  · next i hrun =>
      simp only [Option.map_some, requestStep, show (s.mapFrame g).request = s.request from rfl]
      split
      · rfl
      · exact congrArg some (mapFrame_instr _ _ _)
  · simp only [Option.map_some, hhw, mapFrame_fillerStep]
  · rfl

end Sys

/-! ## The index and the count -/

/-- A blocking loop has entered the contexts up to its index, each once, and resumed none. -/
structure EnteredInOrder (s : Sys BlockingFrame L M) : Prop where
  starts : s.starts = List.range
    (s.frame.nextUnstartedReqIdx + if s.frame.pc = .returned then 1 else 0)
  resumes : s.resumes = []

/-- The index of a blocking loop is the number of requests that have come back, and they have
counted themselves: the one that runs is the next one, or has just been counted. -/
structure IndexCounts (s : Sys BlockingFrame L M) : Prop where
  between : s.frame.pc ≠ .returned → s.requestsCompleted = s.frame.nextUnstartedReqIdx
  entered : s.frame.pc = .returned → s.running.request = some s.frame.nextUnstartedReqIdx →
    s.requestsCompleted + completesLeft (s.request s.frame.nextUnstartedReqIdx).code =
      s.frame.nextUnstartedReqIdx + 1
  back : s.frame.pc = .returned → s.running = .at .executor →
    s.requestsCompleted = s.frame.nextUnstartedReqIdx + 1

section index

variable {e : BlockingLoop} {hw : Hardware M} {request : ℕ → List (Instr L M)} {locals : ℕ → L}
  {N : ℕ} {m₀ : M} {s s' : Sys BlockingFrame L M}

/-- Every step keeps the log in order. -/
theorem EnteredInOrder.step
    (hinv : BlockingInv e.totalRequests (e.program hw request locals) s) (h : EnteredInOrder s)
    (hs : Sys.Step (e.program hw request locals) s s') : EnteredInOrder s' := by
  have hst := h.starts
  cases hinv.move hs with
  | hw m hm => exact ⟨hst, h.resumes⟩
  | goto g hrun hact =>
      change e.executor hw s.frame s.arrived s.requestsCompleted s.mem = _ at hact
      refine ⟨?_, h.resumes⟩
      rcases BlockingLoop.executor_goto hact with ⟨hpc, hgpc, hi⟩ | ⟨hpc, -, rfl⟩ | ⟨hpc, rfl⟩
      · rw [hpc] at hst
        rw [hgpc, hi]
        exact hst
      · rw [hpc] at hst
        exact hst
      · rw [hpc] at hst
        exact hst
  | swap t x g hrun hact =>
      change e.executor hw s.frame s.arrived s.requestsCompleted s.mem = _ at hact
      obtain ⟨hpc, -, rfl, rfl⟩ := BlockingLoop.executor_swap hact
      rw [hpc] at hst
      refine ⟨?_, ?_⟩
      · simp only [Sys.starts_swap_start, Sys.swap_frame, if_pos, List.range_succ]
        exact congrArg (· ++ _) hst
      · rw [Sys.resumes_swap_start]
        exact h.resumes
  | exit g hrun hact =>
      change e.executor hw s.frame s.arrived s.requestsCompleted s.mem = _ at hact
      obtain ⟨hpc, hgpc, hi⟩ := BlockingLoop.executor_exit hact
      rw [hpc] at hst
      refine ⟨?_, h.resumes⟩
      rw [hgpc, hi]
      exact hst
  | fault hrun hact =>
      change e.executor hw s.frame s.arrived s.requestsCompleted s.mem = _ at hact
      exact (BlockingLoop.executor_fault hact).elim
  | op i f c hrun hc => exact ⟨hst, h.resumes⟩
  | completed i c hrun hc => exact ⟨hst, h.resumes⟩
  | back i n c x hrun hc harg =>
      refine ⟨?_, ?_⟩
      · rw [Sys.starts_swap_executor, Sys.swap_frame]
        exact hst
      · rw [Sys.resumes_swap_executor]
        exact h.resumes
  | filler i hrun => exact (hinv.not_filler hrun).elim

/-- The log is in order in every reachable state. -/
theorem enteredInOrder_of_reachable (hP : OneSwap (e.program hw request locals))
    (hr : Sys.Reachable (e.program hw request locals) m₀ s) : EnteredInOrder s := by
  induction hr with
  | refl => exact ⟨rfl, rfl⟩
  | tail hr hs ih => exact ih.step (blockingInv_of_reachable hP hr) hs

/-- The executor goes on by itself. -/
theorem IndexCounts.goto (h : IndexCounts s) (hrun : s.running = .at .executor)
    {g : BlockingFrame}
    (hact : e.executor hw s.frame s.arrived s.requestsCompleted s.mem = .goto g) :
    IndexCounts { s with frame := g } := by
  rcases BlockingLoop.executor_goto hact with ⟨hpc, hgpc, hi⟩ | ⟨hpc, -, rfl⟩ | ⟨hpc, rfl⟩
  · have hcount := h.between (by simp [hpc])
    refine ⟨fun _ => hcount.trans hi.symm, fun h' => ?_, fun h' => ?_⟩
    · simp [hgpc] at h'
    · simp [hgpc] at h'
  · have hcount := h.between (by simp [hpc])
    exact ⟨fun _ => hcount, fun h' => (by cases h'), fun h' => (by cases h')⟩
  · exact ⟨fun _ => h.back hpc hrun, fun h' => (by cases h'), fun h' => (by cases h')⟩

/-- Every step keeps the index and the count together. -/
theorem IndexCounts.step (hcount : CountsFirst (e.program hw request locals))
    (hinv : BlockingInv e.totalRequests (e.program hw request locals) s) (h : IndexCounts s)
    (hs : Sys.Step (e.program hw request locals) s s') : IndexCounts s' := by
  cases hinv.move hs with
  | hw m hm =>
      obtain ⟨h₁, h₂, h₃⟩ := h
      exact ⟨h₁, h₂, h₃⟩
  | goto g hrun hact => exact h.goto hrun hact
  | swap t x g hrun hact =>
      change e.executor hw s.frame s.arrived s.requestsCompleted s.mem = _ at hact
      obtain ⟨hpc, -, rfl, rfl⟩ := BlockingLoop.executor_swap hact
      have hfresh := hinv.fresh _ (.inr ⟨rfl, by simp [hpc]⟩)
      refine ⟨fun h' => by simp at h', fun _ _ => ?_, fun _ h' => ?_⟩
      · simp only [Sys.swap_frame, Sys.swap_requestsCompleted, Sys.swap_code, hfresh,
          h.between (by simp [hpc])]
        exact congrArg _ (hcount _).1
      · simp [fcontextCreate] at h'
  | exit g hrun hact =>
      change e.executor hw s.frame s.arrived s.requestsCompleted s.mem = _ at hact
      obtain ⟨hpc, hgpc, hi⟩ := BlockingLoop.executor_exit hact
      refine ⟨fun _ => (h.between (by simp [hpc])).trans hi.symm, fun h' => ?_, fun h' => ?_⟩
      · simp [hgpc] at h'
      · simp [hgpc] at h'
  | fault hrun hact =>
      change e.executor hw s.frame s.arrived s.requestsCompleted s.mem = _ at hact
      exact (BlockingLoop.executor_fault hact).elim
  | op i f c hrun hc =>
      obtain ⟨hpc, rfl, -, -⟩ := hinv.of_request (by rw [hrun]; rfl)
      have hleft := h.entered hpc (by rw [hrun]; rfl)
      rw [hc, completesLeft_op] at hleft
      refine ⟨fun h' => absurd hpc h', fun _ _ => ?_, fun _ h' => ?_⟩
      · simp only [Sys.instr, Function.update_self]
        split_ifs
        · simpa using hleft
        · exact hleft
      · simp only [Sys.instr, hrun] at h'
        split_ifs at h'
        simp at h'
  | completed i c hrun hc =>
      obtain ⟨hpc, rfl, -, -⟩ := hinv.of_request (by rw [hrun]; rfl)
      have hleft := h.entered hpc (by rw [hrun]; rfl)
      rw [hc, completesLeft_completed] at hleft
      refine ⟨fun h' => absurd hpc h', fun _ _ => ?_, fun _ h' => ?_⟩
      · simp only [Sys.setCode, Function.update_self]
        omega
      · simp [Sys.setCode, hrun] at h'
  | back i n c x hrun hc harg =>
      obtain ⟨hpc, rfl, -, -, hsuf, -⟩ := hinv.of_request (by rw [hrun]; rfl)
      have hleft := h.entered hpc (by rw [hrun]; rfl)
      rw [hc, completesLeft_swap, (hcount _).2 c (hc ▸ hsuf)] at hleft
      refine ⟨fun h' => absurd hpc (by simpa [Sys.setCode] using h'), fun _ h' => ?_,
        fun _ _ => ?_⟩
      · simp [Running.request] at h'
      · simpa [Sys.setCode] using hleft
  | filler i hrun => exact (hinv.not_filler hrun).elim

/-- The requests have counted themselves in every reachable state. -/
theorem indexCounts_of_reachable (hP : OneSwap (e.program hw request locals))
    (hcount : CountsFirst (e.program hw request locals))
    (hr : Sys.Reachable (e.program hw request locals) m₀ s) : IndexCounts s := by
  induction hr with
  | refl => exact ⟨fun _ => rfl, fun h => (by cases h), fun h => (by cases h)⟩
  | tail hr hs ih => exact ih.step hcount (blockingInv_of_reachable hP hr) hs

end index

/-! ## The loops that count are loops on the index -/

/-- The frame of a loop on the index. -/
def CoreFrame.toBlocking (f : CoreFrame) : BlockingFrame :=
  ⟨f.pc, f.nextUnstartedReqIdx, 0, [], []⟩

/-- The loop on the index. -/
def CoreLoop.toBlocking (e : CoreLoop) : BlockingLoop := ⟨e.totalRequests, none⟩

/-- There is room for both times, and they are taken if their difference is stored. -/
structure CoreLoop.Fits (e : CoreLoop) : Prop where
  room : ∀ i < 2, e.times.room i = true
  taken : e.idx ≠ none → e.times ≠ .none

/-- The times before the loop are stored. -/
def CoreFrame.During (e : CoreLoop) (f : CoreFrame) : Prop :=
  f.samplingInterval = 1 ∧ (∃ t, f.times = if e.times = .none then [] else [(0, t)]) ∧
    f.exetime = []

/-- Both times are stored, and their difference. -/
def CoreFrame.After (e : CoreLoop) (f : CoreFrame) : Prop :=
  ∃ t t', (f.times = if e.times = .none then [] else [(0, t), (1, t')]) ∧
    f.exetime = e.idx.toList.map fun idx => (idx, stampDiff t' t)

/-- What the loop has stored. -/
inductive CoreLoop.Stored (e : CoreLoop) (s : Sys CoreFrame L M) : Prop where
  | before (h : s.frame = .init) (hrun : s.running ≠ .exited)
  | during (hpc : s.frame.pc ≠ .begin) (h : s.frame.During e) (hrun : s.running ≠ .exited)
  | after (h : s.frame.After e) (hrun : s.running = .exited)

section core

variable {e : CoreLoop} {hw : Hardware M} {f g : CoreFrame} {a : FcontextTransfer} {n : ℕ}
  {m : M}

theorem CoreLoop.stamp_pc (e : CoreLoop) (f : CoreFrame) (clock : ℕ) :
    (e.stamp f clock).pc = f.pc ∧
      (e.stamp f clock).nextUnstartedReqIdx = f.nextUnstartedReqIdx ∧
      (e.stamp f clock).samplingInterval = f.samplingInterval ∧
      (e.stamp f clock).exetime = f.exetime := by
  unfold stamp
  split <;> exact ⟨rfl, rfl, rfl, rfl⟩

/-- The last time is stored and their difference is taken. -/
theorem CoreLoop.finish_during (hfits : e.Fits) (h : f.During e) (clock : ℕ) :
    ∃ g, e.finish f clock = .exit g ∧ g.After e ∧ g.toBlocking = f.toBlocking := by
  obtain ⟨hint, ⟨t, ht⟩, hexe⟩ := h
  obtain ⟨hpc, hnext, -, hexe'⟩ := e.stamp_pc f clock
  have hroom : e.times.room f.samplingInterval = true := hfits.room _ (by omega)
  have htimes : (e.stamp f clock).times =
      if e.times = .none then [] else [(0, t), (1, clock)] := by
    unfold stamp
    split
    · next hnone => simpa [hnone] using ht
    · next hne =>
        rw [if_neg hne] at ht ⊢
        simp [ht, hint]
  unfold finish
  rw [if_pos hroom]
  cases hidx : e.idx with
  | none =>
      refine ⟨_, rfl, ⟨t, clock, htimes, ?_⟩, ?_⟩
      · rw [hexe', hexe, hidx]
        rfl
      · simp [CoreFrame.toBlocking, hpc, hnext]
  | some idx =>
      rw [if_neg (hfits.taken (by simp [hidx]))] at htimes
      simp only [htimes, hint, Writes.get]
      refine ⟨_, rfl, ⟨t, clock, ?_, ?_⟩, ?_⟩
      · rw [if_neg (hfits.taken (by simp [hidx]))]
      · simp [hexe, hidx]
      · simp [CoreFrame.toBlocking, hpc, hnext]

/-- The loop that counts does what the loop on the index does, as long as the index and the count
agree. -/
theorem CoreLoop.executor_map (hfits : e.Fits) (hst : f = .init ∨ f.pc ≠ .begin ∧ f.During e)
    (hcount : f.pc = .loop → n = f.nextUnstartedReqIdx) :
    e.toBlocking.executor hw f.toBlocking a n m =
      (e.executor hw f a n m).map CoreFrame.toBlocking := by
  have hpc' : f.toBlocking.pc = f.pc := rfl
  cases hpc : f.pc with
  | begin =>
      have hroom : e.times.room 0 = true := hfits.room 0 (by omega)
      simp only [executor, BlockingLoop.executor, hpc', hpc, hroom, if_true, Act.map]
      rw [show e.toBlocking.idx = none from rfl, if_pos rfl]
      refine congrArg Act.goto ?_
      obtain ⟨-, hnext, -, -⟩ := e.stamp_pc f (hw.clock m)
      simp [CoreFrame.toBlocking, hnext]
  | loop =>
      have hn := hcount hpc
      simp only [executor, BlockingLoop.executor, hpc', hpc]
      rw [show e.toBlocking.totalRequests = e.totalRequests from rfl,
        show f.toBlocking.nextUnstartedReqIdx = f.nextUnstartedReqIdx from rfl, ← hn]
      split_ifs <;> rfl
  | returned => simp only [executor, BlockingLoop.executor, hpc', hpc]; rfl
  | finish =>
      rcases hst with rfl | ⟨-, hst⟩
      · cases hpc
      · obtain ⟨g, hfin, -, hg⟩ := e.finish_during hfits hst (hw.clock m)
        simp only [executor, BlockingLoop.executor, hpc', hpc, hfin, Act.map, hg]
        rfl

/-- What the executor stores. -/
theorem CoreLoop.Stored.executorStep {P : Program CoreFrame L M} {s : Sys CoreFrame L M}
    (hP : P.executor = e.executor hw) (hfits : e.Fits) (h : e.Stored s)
    (hrun : s.running = .at .executor)
    (hcount : s.frame.pc = .loop → s.requestsCompleted = s.frame.nextUnstartedReqIdx) :
    e.Stored (s.executorStep P) := by
  have hne : Running.at Ctx.executor ≠ .exited := by simp
  simp only [Sys.executorStep, hP, CoreLoop.executor]
  cases h with
  | before h =>
      have hroom : e.times.room 0 = true := hfits.room 0 (by omega)
      simp only [h, CoreFrame.init, hroom, if_true]
      refine .during (by simp) ⟨by simp, ⟨hw.clock s.mem, ?_⟩, ?_⟩ (by simp [hrun])
      · unfold stamp
        split
        · next hnone => simp [hnone]
        · next hne' => simp [show e.times ≠ .none from hne']
      · exact (e.stamp_pc _ _).2.2.2
  | during hpc h =>
      obtain ⟨hint, ht, hexe⟩ := h
      cases hpc' : s.frame.pc with
      | begin => exact absurd hpc' hpc
      | loop =>
          have hn := hcount hpc'
          simp only [hn]
          split_ifs
          · refine .during ?_ ?_ ?_ <;> simp
            exact ⟨hint, ht, hexe⟩
          · exact .during (by simp) ⟨hint, ht, hexe⟩ (by simp [hrun])
      | returned => exact .during (by simp) ⟨hint, ht, hexe⟩ (by simp [hrun])
      | finish =>
          obtain ⟨g, hfin, hg, -⟩ := e.finish_during hfits ⟨hint, ht, hexe⟩ (hw.clock s.mem)
          simp only [hfin]
          exact .after hg rfl
  | after h hex => rw [hrun] at hex; cases hex

end core

/-- Only the executor changes its frame, and only it returns. -/
theorem Sys.thread_frame {P : Program F L M} {s t : Sys F L M} (h : s.thread P = some t)
    (hrun : s.running ≠ .at .executor) : t.frame = s.frame ∧ t.running ≠ .exited := by
  simp only [thread] at h
  split at h <;> (try cases h)
  · next h' => exact absurd h' hrun
  · next i hi =>
      unfold requestStep
      split
      · exact ⟨rfl, by simp⟩
      · next ins c hc =>
          cases ins with
          | op f =>
              refine ⟨rfl, ?_⟩
              simp only [instr]
              split_ifs <;> simp [hi]
          | completed => exact ⟨rfl, by simp [instr, setCode, hi]⟩
          | swap =>
              simp only [instr]
              split <;> simp [setCode]
  · next i hi =>
      unfold fillerStep
      split
      · exact ⟨rfl, by simp [setFillerPc, initProbe, hi]⟩
      · split <;> simp [setFillerPc, hi]
      · exact ⟨rfl, by simp [setFillerPc, hi]⟩

section core

variable {e : CoreLoop} {hw : Hardware M} {request : ℕ → List (Instr L M)} {locals : ℕ → L}
  {m₀ : M} {s s' : Sys CoreFrame L M}

theorem CoreLoop.Stored.step {P : Program CoreFrame L M} (hP : P.executor = e.executor hw)
    (hfits : e.Fits) (h : e.Stored s)
    (hcount : s.frame.pc = .loop → s.requestsCompleted = s.frame.nextUnstartedReqIdx)
    (hs : Sys.Step P s s') : e.Stored s' := by
  cases hs with
  | hw m hm =>
      cases h with
      | before h hrun => exact .before h hrun
      | during hpc h hrun => exact .during hpc h hrun
      | after h hrun => exact .after h hrun
  | thread _ hs =>
      by_cases hrun : s.running = .at .executor
      · have hst : s.executorStep P = s' := by simpa [Sys.thread, hrun] using hs
        exact hst ▸ h.executorStep hP hfits hrun hcount
      · obtain ⟨hf, hne⟩ := Sys.thread_frame hs hrun
        cases h with
        | before h => exact .before (hf.trans h) hne
        | during hpc h => exact .during (hf ▸ hpc) (hf ▸ h) hne
        | after h hex => simp [Sys.thread, hex] at hs

theorem CoreLoop.executor_toBlocking (hfits : e.Fits) (hst : e.Stored s)
    (hidx : IndexCounts (s.mapFrame CoreFrame.toBlocking)) (hrun : s.running = .at .executor) :
    e.toBlocking.executor hw s.frame.toBlocking s.arrived s.requestsCompleted s.mem =
      (e.executor hw s.frame s.arrived s.requestsCompleted s.mem).map CoreFrame.toBlocking := by
  refine CoreLoop.executor_map hfits ?_ fun hpc => hidx.between ?_
  · cases hst with
    | before h => exact .inl h
    | during hpc h => exact .inr ⟨hpc, h⟩
    | after h hex => rw [hrun] at hex; cases hex
  · simp [Sys.mapFrame, CoreFrame.toBlocking, hpc]

/-- The thread of a loop that counts moves like that of the loop on the index. -/
theorem CoreLoop.thread_toBlocking (hfits : e.Fits) (hst : e.Stored s)
    (hidx : IndexCounts (s.mapFrame CoreFrame.toBlocking)) :
    (s.mapFrame CoreFrame.toBlocking).thread (e.toBlocking.program hw request locals) =
      (s.thread (e.program hw request locals)).map (Sys.mapFrame CoreFrame.toBlocking) :=
  Sys.thread_mapFrame rfl fun hrun => CoreLoop.executor_toBlocking hfits hst hidx hrun

/-- The loop that counts reaches what the loop on the index reaches. -/
theorem CoreLoop.reachable_toBlocking (hfits : e.Fits)
    (hone : OneSwap (e.program hw request locals))
    (hcount : CountsFirst (e.program hw request locals))
    (hr : Sys.Reachable (e.program hw request locals) m₀ s) :
    Sys.Reachable (e.toBlocking.program hw request locals) m₀ (s.mapFrame CoreFrame.toBlocking) ∧
      e.Stored s := by
  induction hr with
  | refl => exact ⟨.refl, .before rfl (by simp [Sys.init])⟩
  | @tail s t _ hs ih =>
      obtain ⟨hr, hst⟩ := ih
      have hidx := indexCounts_of_reachable hone hcount hr
      refine ⟨?_, hst.step rfl hfits (fun hpc => hidx.between ?_) hs⟩
      · cases hs with
        | hw m hm => exact hr.tail (.hw _ _ hm)
        | thread _ hs =>
            refine hr.tail (.thread _ _ ((CoreLoop.thread_toBlocking hfits hst hidx).trans ?_))
            rw [hs]
            rfl
      · simp [Sys.mapFrame, CoreFrame.toBlocking, hpc]

end core

/-! ## In turn -/

/-- The requests run in turn: those before the `k`th have been entered once and have come back for
good, except for the one that runs, which is the last of them; the others have not been entered.
The count is that of those that have counted themselves. -/
structure InTurn (P : Program F L M) (k : ℕ) (s : Sys F L M) : Prop where
  starts : s.starts = List.range k
  resumes : s.resumes = []
  fresh : ∀ i, k ≤ i → s.request i = ⟨none, P.request i, P.locals i⟩
  done : ∀ i < k, s.running.request ≠ some i → swapsLeft (s.request i).code = 0
  running : ∀ i, s.running.request = some i → k = i + 1 ∧
    s.requestsCompleted + completesLeft (s.request i).code = k
  between : s.running.request = none → s.requestsCompleted = k

theorem BlockingInv.inTurn {P : Program BlockingFrame L M} {N : ℕ} {s : Sys BlockingFrame L M}
    (h : BlockingInv N P s) (hord : EnteredInOrder s) (hidx : IndexCounts s) :
    s.running ≠ .fault ∧ ∃ k ≤ N, InTurn P k s ∧ (s.running = .exited → k = N) := by
  by_cases hpc : s.frame.pc = .returned
  · obtain ⟨hlt, hcur⟩ := h.current hpc
    have hrun : s.running.request = some s.frame.nextUnstartedReqIdx ∨
        s.running = .at .executor := hcur.imp And.left And.left
    refine ⟨?_, s.frame.nextUnstartedReqIdx + 1, hlt, ⟨?_, hord.resumes, fun i hi => ?_,
      fun i hi hne => ?_, fun i hi => ?_, fun hnone => ?_⟩, fun hex => ?_⟩
    · rintro hf
      rcases hrun with hr | hr <;> rw [hf] at hr <;> cases hr
    · have hst := hord.starts
      rwa [if_pos hpc] at hst
    · exact h.fresh i (.inl hi)
    · rcases Nat.lt_succ_iff_lt_or_eq.1 hi with hi | rfl
      · exact h.done i hi
      · rcases hcur with ⟨hr, -⟩ | ⟨-, hz⟩
        · exact absurd hr hne
        · exact hz
    · obtain ⟨-, rfl, -, -⟩ := h.of_request hi
      exact ⟨rfl, hidx.entered hpc hi⟩
    · rcases hrun with hr | hr
      · rw [hnone] at hr
        cases hr
      · exact hidx.back hpc hr
    · rcases hrun with hr | hr <;> rw [hex] at hr <;> cases hr
  · have hrun := h.running hpc
    have hnone : s.running.request = none := by
      rcases hrun with hr | ⟨hr, -⟩ <;> rw [hr] <;> rfl
    refine ⟨?_, s.frame.nextUnstartedReqIdx, h.le, ⟨?_, hord.resumes, fun i hi => ?_,
      fun i hi _ => h.done i hi, fun i hi => ?_, fun _ => hidx.between hpc⟩, fun hex => ?_⟩
    · rcases hrun with hr | ⟨hr, -⟩ <;> simp [hr]
    · have hst := hord.starts
      rwa [if_neg hpc] at hst
    · rcases Nat.lt_or_eq_of_le hi with hi | rfl
      · exact h.fresh i (.inl hi)
      · exact h.fresh _ (.inr ⟨rfl, hpc⟩)
    · rw [hnone] at hi
      cases hi
    · rcases hrun with hr | ⟨-, hfin⟩
      · rw [hr] at hex
        cases hex
      · exact Nat.le_antisymm h.le (h.finished hfin)

/-- A loop that counts enters the contexts in turn, never faults, and returns when all requests have
been counted. -/
theorem CoreLoop.inTurn {e : CoreLoop} {hw : Hardware M} {request : ℕ → List (Instr L M)}
    {locals : ℕ → L} {m₀ : M} {s : Sys CoreFrame L M} (hfits : e.Fits)
    (hone : OneSwap (e.program hw request locals))
    (hcount : CountsFirst (e.program hw request locals))
    (hr : Sys.Reachable (e.program hw request locals) m₀ s) :
    s.running ≠ .fault ∧ ∃ k ≤ e.totalRequests, InTurn (e.program hw request locals) k s ∧
      (s.running = .exited → k = e.totalRequests ∧ s.frame.After e) := by
  obtain ⟨hr', hst⟩ := CoreLoop.reachable_toBlocking hfits hone hcount hr
  obtain ⟨hf, k, hk, h, hex⟩ := (blockingInv_of_reachable hone hr').inTurn
    (enteredInOrder_of_reachable hone hr') (indexCounts_of_reachable hone hcount hr')
  refine ⟨hf, k, hk, ⟨h.starts, h.resumes, h.fresh, h.done, h.running, h.between⟩,
    fun hrun => ⟨hex hrun, ?_⟩⟩
  cases hst with
  | before _ hne => exact absurd hrun hne
  | during _ _ hne => exact absurd hrun hne
  | after h => exact h

theorem fits_of_mem_coreLoops {N timestamps idx : ℕ} (hroom : 2 ≤ timestamps) {e : CoreLoop}
    (he : e ∈ coreLoops N timestamps idx) : e.totalRequests = N ∧ e.Fits := by
  have harray : ∀ i < 2, (CoreTimes.array timestamps).room i = true := fun i hi =>
    decide_eq_true (Nat.lt_of_lt_of_le hi hroom)
  simp only [coreLoops, List.mem_cons, List.not_mem_nil, or_false] at he
  rcases he with rfl | rfl | rfl | rfl | rfl | rfl | rfl
  · exact ⟨rfl, harray, by rintro - ⟨⟩⟩
  · exact ⟨rfl, harray, by rintro - ⟨⟩⟩
  · exact ⟨rfl, harray, by rintro - ⟨⟩⟩
  · exact ⟨rfl, harray, by rintro - ⟨⟩⟩
  · exact ⟨rfl, fun _ _ => rfl, fun h => absurd rfl h⟩
  · exact ⟨rfl, fun _ _ => rfl, by rintro - ⟨⟩⟩
  · exact ⟨rfl, fun _ _ => rfl, fun h => absurd rfl h⟩

/-- The loops that count enter the contexts in order, each once and none behind the last, and never
fault, though only the count is tested: in every state the requests that were entered have come
back for good and have been counted, but for the one that runs.  A loop ends with all of them
counted, with the difference of its two times, if it takes any, stored in its slot, and the averages
of the breakdown forms can be taken. -/
theorem coreLoops_inTurn (N timestamps idx : ℕ) (hN : 1 ≤ N) (hroom : 2 ≤ timestamps)
    (e : CoreLoop) (he : e ∈ coreLoops N timestamps idx) (hw : Hardware M)
    (work : ℕ → List (L → M → L × M × Next)) (locals : ℕ → L) {m₀ : M}
    {s : Sys CoreFrame L M}
    (hr : Sys.Reachable (e.program hw (fun i => blockingRequest (work i)) locals) m₀ s) :
    s.running ≠ .fault ∧ ∃ k ≤ N,
      InTurn (e.program hw (fun i => blockingRequest (work i)) locals) k s ∧
      (s.running = .exited → k = N ∧ s.frame.After e ∧
        ∀ diff ts, requestBreakdown N diff ts ≠ none) := by
  obtain ⟨rfl, hfits⟩ := fits_of_mem_coreLoops hroom he
  obtain ⟨hf, k, hk, h, hend⟩ := CoreLoop.inTurn hfits (oneSwap_blockingRequest _ rfl)
    (countsFirst_blockingRequest _ rfl) hr
  exact ⟨hf, k, hk, h, fun hx =>
    ⟨(hend hx).1, (hend hx).2, requestBreakdown_ne_none hN⟩⟩

/-- Request `i` submits its job to the board and waits for it. -/
def Board.wait (i : ℕ) : List (Unit → Board → Unit × Board × Next) :=
  [fun l m => (l, m.submit i, .next),
    fun l m => (l, m, if m.status i = compStatusPending then .stay else .next)]

/-- Two jobs, each of which ends while its request waits for it. -/
def twoJobs : List (Option BoardMove) :=
  let wait (i : ℕ) := List.replicate 3 none ++ [some (.ends i compStatusCompleted), some .tick] ++
    List.replicate 4 none
  none :: (wait 0 ++ wait 1) ++ List.replicate 2 none

theorem coreLoops_inTurn_two :
    ∃ s, Board.schedule ((executeBlockingRequestsClosedSystemWithSampling 2 2 5).program
        Board.hardware (fun i => blockingRequest (Board.wait i)) fun _ => ()) twoJobs = some s ∧
      s.frame.exetime = [(5, 2)] ∧ s.running ≠ .fault ∧ ∃ k ≤ 2, s.starts = List.range k := by
  obtain ⟨s, hs, hexe⟩ : ∃ s, Board.schedule
      ((executeBlockingRequestsClosedSystemWithSampling 2 2 5).program Board.hardware
        (fun i => blockingRequest (Board.wait i)) fun _ => ()) twoJobs = some s ∧
      s.frame.exetime = [(5, 2)] := ⟨_, rfl, rfl⟩
  obtain ⟨hf, k, hk, h, -⟩ := coreLoops_inTurn 2 2 5 (by decide) le_rfl _ List.mem_cons_self
    Board.hardware Board.wait (fun _ => ()) (Board.reachable_of_schedule rfl hs)
  exact ⟨s, hs, hexe, hf, k, hk, h.starts⟩

end XMPGym
