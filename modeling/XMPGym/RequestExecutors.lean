import XMPGym.Fiber

/-!
# Request executors

The yielding executors of `src/request_executors.cpp`, and the two blocking ones of the three-phase
requests, as programs over a frame of local variables.  The five closed-loop executors differ in
the test of the completion record, in the loop counter and in the time stamps they take; the three
serial ones in what they do while they wait.  The averages that the breakdown executors compute
after their loops are left out.

Arrays of time stamps are kept as the list of the writes to them.
-/

namespace XMPGym

variable {M : Type*}

/-! ## Arrays of time stamps -/

/-- The writes to an array, oldest first. -/
abbrev Writes := List (ℕ × ℕ)

/-- The value at index `i`, if it was written. -/
def Writes.get (w : Writes) (i : ℕ) : Option ℕ := (w.reverse.find? fun e => e.1 = i).map Prod.snd

/-- The difference of two time stamps, as `uint64_t`. -/
def stampDiff (later earlier : ℕ) : ℕ := (later + (2 ^ 64 - earlier % 2 ^ 64)) % 2 ^ 64

/-! ## Closed loops -/

/-- The position in a closed loop. -/
inductive ClosedPc where
  /-- before the loop -/
  | begin
  /-- the test of the loop and of the head record -/
  | loop
  /-- the swap that started a request has returned, or is about to -/
  | started
  /-- the swap that resumed a request has returned, or is about to -/
  | resumed
  /-- after the loop -/
  | finish
  deriving DecidableEq, Repr

/-- The local variables of a closed loop and the arrays it writes. -/
structure ClosedFrame where
  pc : ClosedPc
  nextUnstartedReqIdx : ℕ
  nextRequestOffloadToCompleteIdx : ℕ
  offloadReqXfer : ℕ → Option FcontextTransfer
  samplingInterval : ℕ
  samplingIntervalCompletionTimes : Writes
  start : ℕ
  exeTimeStart : Writes
  exeTimeEnd : Writes
  exetime : Writes

/-- The frame in which a closed loop begins. -/
def ClosedFrame.init : ClosedFrame := ⟨.begin, 0, 0, fun _ => none, 0, [], 0, [], [], []⟩

/-- The two sampling parameters. -/
structure Sampling where
  requestsSamplingInterval : ℕ
  samplingIntervalTimestamps : ℕ

/-- What is done with the time stamps after the loop. -/
inductive Epilogue where
  | none
  /-- `stats->exe_time_start[idx]` and `stats->exe_time_end[idx]` -/
  | stats (idx : ℕ)
  /-- `exetime[idx + i]` for each complete sample `i` -/
  | exetime (idx : ℕ)
  deriving DecidableEq, Repr

/-- What tells the closed loops apart. -/
structure ClosedLoop where
  totalRequests : ℕ
  /-- the test of the head record's status -/
  ready : ℕ → Bool
  /-- the loop runs on `requests_completed`, not on `next_request_offload_to_complete_idx` -/
  onCompleted : Bool
  sampling : Option Sampling
  epilogue : Epilogue

/-- `sampling_interval_completion_times[sampling_interval] = sampleCoderdtsc(); sampling_interval++`
-/
def ClosedFrame.stamp (f : ClosedFrame) (clock : ℕ) : ClosedFrame :=
  { f with
    samplingIntervalCompletionTimes :=
      f.samplingIntervalCompletionTimes ++ [(f.samplingInterval, clock)]
    samplingInterval := f.samplingInterval + 1 }

/-- The sample taken after a resumed request: nothing, or a stamp. -/
def ClosedFrame.sample (e : ClosedLoop) (f : ClosedFrame) (completed clock : ℕ) :
    Option ClosedFrame :=
  match e.sampling with
  | none => some f
  | some p =>
      if p.requestsSamplingInterval = 0 then none
      else if completed % p.requestsSamplingInterval = 0 ∧ 0 < completed then
        if f.samplingInterval < p.samplingIntervalTimestamps then some (f.stamp clock) else none
      else some f

/-- `exetime[idx + i] = times[i + 1] - times[i]`, for each `i` below `samples`. -/
def exetimeSamples (times : Writes) (samples idx : ℕ) : Option Writes :=
  (List.range samples).mapM fun i => do
    let later ← times.get (i + 1)
    let earlier ← times.get i
    pure (idx + i, stampDiff later earlier)

/-- Before the loop: the first time stamp. -/
def ClosedLoop.begin (e : ClosedLoop) (f : ClosedFrame) (clock : ℕ) : Act ClosedFrame :=
  match e.sampling with
  | none => .goto { f with pc := .loop, start := if e.epilogue = .none then f.start else clock }
  | some p =>
      if p.samplingIntervalTimestamps = 0 then .fault
      else if p.requestsSamplingInterval = 0 ∧ e.epilogue ≠ .none then .fault
      else .goto { f.stamp clock with pc := .loop }

/-- After the loop: the times are stored.  The breakdown forms end here as well; the averages that
they take afterwards, which need a request, are `requestBreakdown`. -/
def ClosedLoop.finish (e : ClosedLoop) (f : ClosedFrame) (clock : ℕ) : Act ClosedFrame :=
  match e.epilogue, e.sampling with
  | .stats idx, _ =>
      .exit { f with
        exeTimeStart := f.exeTimeStart ++ [(idx, f.start)]
        exeTimeEnd := f.exeTimeEnd ++ [(idx, clock)] }
  | .exetime idx, some p =>
      match exetimeSamples f.samplingIntervalCompletionTimes
          (e.totalRequests / p.requestsSamplingInterval) idx with
      | some w => .exit { f with exetime := f.exetime ++ w }
      | none => .fault
  | _, _ => .exit f

/-- The count that the loop tests. -/
def ClosedLoop.count (e : ClosedLoop) (f : ClosedFrame) (completed : ℕ) : ℕ :=
  if e.onCompleted then completed else f.nextRequestOffloadToCompleteIdx

/-- The closed loop: resume the head request when its record is ready, otherwise start another. -/
def ClosedLoop.executor (e : ClosedLoop) (hw : Hardware M) : Executor ClosedFrame M :=
  fun f arrived completed m =>
    match f.pc with
    | .begin => e.begin f (hw.clock m)
    | .loop =>
        if e.count f completed < e.totalRequests then
          if f.nextRequestOffloadToCompleteIdx < e.totalRequests then
            if e.ready (hw.status m f.nextRequestOffloadToCompleteIdx) then
              match f.offloadReqXfer f.nextRequestOffloadToCompleteIdx with
              | some xfer => .swap xfer.prevContext .null { f with pc := .resumed }
              | none => .fault
            else if f.nextUnstartedReqIdx < e.totalRequests then
              .swap (fcontextCreate (.request f.nextUnstartedReqIdx))
                (.offArgs f.nextUnstartedReqIdx) { f with pc := .started }
            else .goto f
          else .fault
        else .goto { f with pc := .finish }
    | .started =>
        .goto { f with
          pc := .loop
          offloadReqXfer :=
            Function.update f.offloadReqXfer f.nextUnstartedReqIdx (some arrived)
          nextUnstartedReqIdx := f.nextUnstartedReqIdx + 1 }
    | .resumed =>
        match { f with
            nextRequestOffloadToCompleteIdx := f.nextRequestOffloadToCompleteIdx + 1 }.sample e
              completed (hw.clock m) with
        | some f => .goto { f with pc := .loop }
        | none => .fault
    | .finish => e.finish f (hw.clock m)

/-- `status != COMP_STATUS_PENDING` -/
def notPending (status : ℕ) : Bool := status ≠ compStatusPending

/-- `status == COMP_STATUS_COMPLETED` -/
def isCompleted (status : ℕ) : Bool := status = compStatusCompleted

/-- `execute_yielding_three_phase_request_throughput` -/
def executeYieldingThreePhaseRequestThroughput (totalRequests idx : ℕ) : ClosedLoop :=
  ⟨totalRequests, notPending, false, none, .stats idx⟩

/-- `execute_three_phase_yielding_requests_closed_system_request_breakdown` -/
def executeThreePhaseYieldingRequestsClosedSystemRequestBreakdown (totalRequests : ℕ) :
    ClosedLoop :=
  ⟨totalRequests, notPending, false, none, .none⟩

/-- `execute_yielding_requests_closed_system_with_sampling` -/
def executeYieldingRequestsClosedSystemWithSampling
    (requestsSamplingInterval totalRequests samplingIntervalTimestamps idx : ℕ) : ClosedLoop :=
  ⟨totalRequests, isCompleted, true,
    some ⟨requestsSamplingInterval, samplingIntervalTimestamps⟩, .exetime idx⟩

/-- `execute_yielding_requests_closed_system_request_breakdown`, the overload that takes sampling
parameters. -/
def executeYieldingRequestsClosedSystemRequestBreakdownSampling
    (requestsSamplingInterval totalRequests samplingIntervalTimestamps : ℕ) : ClosedLoop :=
  ⟨totalRequests, isCompleted, true,
    some ⟨requestsSamplingInterval, samplingIntervalTimestamps⟩, .none⟩

/-- `execute_yielding_requests_closed_system_request_breakdown`, the overload without sampling. -/
def executeYieldingRequestsClosedSystemRequestBreakdown (totalRequests : ℕ) : ClosedLoop :=
  ⟨totalRequests, isCompleted, true, none, .none⟩

/-! ## Serial loops -/

/-- The position in a serial loop. -/
inductive SerialPc where
  /-- the test of the loop -/
  | loop
  /-- the swap that started a request has returned, or is about to -/
  | started
  /-- the test of the record of the request -/
  | wait
  /-- the swap to a filler has returned, or is about to -/
  | filled
  deriving DecidableEq, Repr

/-- The local variables of a serial loop. -/
structure SerialFrame where
  pc : SerialPc
  offloadReqXfer : ℕ → Option FcontextTransfer
  interleavedStarted : Bool
  xfer : Option FcontextTransfer

/-- The frame in which a serial loop begins. -/
def SerialFrame.init : SerialFrame := ⟨.loop, fun _ => none, false, none⟩

/-- How a serial loop fills the time in which it waits. -/
inductive Fill where
  /-- it spins -/
  | pause
  /-- each request has its own filler, `filler_req_state[requests_completed]` -/
  | perRequest
  /-- all requests share the filler `interleaved_state` -/
  | shared
  deriving DecidableEq, Repr

/-- What tells the serial loops apart. -/
structure SerialLoop where
  totalRequests : ℕ
  fill : Fill

/-- The filler for the wait of request `completed`. -/
def Fill.filler (fill : Fill) (completed : ℕ) : ℕ :=
  match fill with
  | .perRequest => completed
  | _ => 0

/-- The serial loop: start a request, wait for its record, resume it.  It ends before the averages,
which need a request and are `requestBreakdown`. -/
def SerialLoop.executor (e : SerialLoop) (hw : Hardware M) : Executor SerialFrame M :=
  fun f arrived completed m =>
    match f.pc with
    | .loop =>
        if completed < e.totalRequests then
          .swap (fcontextCreate (.request completed)) (.offArgs completed)
            { f with pc := .started }
        else .exit f
    | .started =>
        .goto { f with
          pc := .wait
          offloadReqXfer := Function.update f.offloadReqXfer completed (some arrived)
          interleavedStarted := if e.fill = .perRequest then false else f.interleavedStarted }
    | .wait =>
        if completed < e.totalRequests then
          if isCompleted (hw.status m completed) then
            match f.offloadReqXfer completed with
            | some xfer => .swap xfer.prevContext .null { f with pc := .loop }
            | none => .fault
          else if e.fill = .pause then .goto f
          else if f.interleavedStarted then
            match f.xfer with
            | some xfer => .swap xfer.prevContext (.comp completed) { f with pc := .filled }
            | none => .fault
          else
            .swap (fcontextCreate (.filler (e.fill.filler completed))) (.comp completed)
              { f with pc := .filled }
        else .fault
    | .filled => .goto { f with pc := .wait, xfer := some arrived, interleavedStarted := true }

/-- `execute_yielding_requests_best_case` -/
def executeYieldingRequestsBestCase (totalRequests : ℕ) : SerialLoop := ⟨totalRequests, .pause⟩

/-- `execute_yielding_requests_multiple_filler_requests` -/
def executeYieldingRequestsMultipleFillerRequests (totalRequests : ℕ) : SerialLoop :=
  ⟨totalRequests, .perRequest⟩

/-- `execute_yielding_requests_interleaved` -/
def executeYieldingRequestsInterleaved (totalRequests : ℕ) : SerialLoop := ⟨totalRequests, .shared⟩

/-! ## Blocking loops -/

/-- The position in a blocking loop. -/
inductive BlockingPc where
  | begin
  | loop
  /-- the swap to a request has returned, or is about to -/
  | returned
  | finish
  deriving DecidableEq, Repr

/-- The local variables of a blocking loop and the arrays it writes. -/
structure BlockingFrame where
  pc : BlockingPc
  nextUnstartedReqIdx : ℕ
  start : ℕ
  exeTimeStart : Writes
  exeTimeEnd : Writes
  deriving DecidableEq, Repr

/-- The frame in which a blocking loop begins. -/
def BlockingFrame.init : BlockingFrame := ⟨.begin, 0, 0, [], []⟩

/-- What tells the blocking loops apart: the slot of the execution time, if it is taken. -/
structure BlockingLoop where
  totalRequests : ℕ
  idx : Option ℕ

/-- The blocking loop: run one request after the other.  The breakdown form ends before its
averages, which need a request and are `requestBreakdown`. -/
def BlockingLoop.executor (e : BlockingLoop) (hw : Hardware M) : Executor BlockingFrame M :=
  fun f _ _ m =>
    match f.pc with
    | .begin => .goto { f with pc := .loop, start := if e.idx = none then f.start else hw.clock m }
    | .loop =>
        if f.nextUnstartedReqIdx < e.totalRequests then
          .swap (fcontextCreate (.request f.nextUnstartedReqIdx))
            (.offArgs f.nextUnstartedReqIdx) { f with pc := .returned }
        else .goto { f with pc := .finish }
    | .returned =>
        .goto { f with pc := .loop, nextUnstartedReqIdx := f.nextUnstartedReqIdx + 1 }
    | .finish =>
        match e.idx with
        | some idx =>
            .exit { f with
              exeTimeStart := f.exeTimeStart ++ [(idx, f.start)]
              exeTimeEnd := f.exeTimeEnd ++ [(idx, hw.clock m)] }
        | none => .exit f

/-- `execute_three_phase_blocking_requests_closed_system_throughput` -/
def executeThreePhaseBlockingRequestsClosedSystemThroughput (totalRequests idx : ℕ) :
    BlockingLoop :=
  ⟨totalRequests, some idx⟩

/-- `execute_three_phase_blocking_requests_closed_system_request_breakdown` -/
def executeThreePhaseBlockingRequestsClosedSystemRequestBreakdown (totalRequests : ℕ) :
    BlockingLoop :=
  ⟨totalRequests, none⟩

end XMPGym
