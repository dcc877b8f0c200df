import XMPGym.Handshake

/-!
# Retries of a submission

What one call of `submit_offload` offers to the accelerator and what it is answered.  The label
`retry` stands after the stores that make an offer, so a call makes one offer; after a rejection it
reads the same answer again until it gives up.
-/

open Relation Transition

namespace XMPGym

/-! ## The offers of a call and their answers -/

/-- The records that the call in progress, or else the last one, has offered, and the answers that
the accelerator has given meanwhile: whether it accepts. -/
structure CallLog where
  offers : List ℕ
  answers : List Bool
  deriving DecidableEq, Repr

/-- The answer that the accelerator gives in its next step. -/
def emulAnswer (pc : EmulPc) : List Bool :=
  match pc with
  | .acceptRelease _ _ => [true]
  | .rejectRelease => [false]
  | _ => []

/-- The log after one choice of the scheduler. -/
def CallLog.next (log : CallLog) (s : OffloadSys) : Choice → CallLog
  | .emul => { log with answers := log.answers ++ emulAnswer s.ax.frame.pc }
  | .call _ _ => ⟨[], []⟩
  | .submit =>
      match s.client with
      | some f =>
          if f.pc = .request then { log with offers := log.offers ++ [s.ax.shared.complAddr] }
          else log
      | none => log
  | .tick _ | .ret => log

/-- One choice of the scheduler, with the log. -/
def performLogged (p : AxParams) (x : OffloadSys × CallLog) (c : Choice) :
    Option (OffloadSys × CallLog) :=
  (x.1.perform p c).map fun s => (s, x.2.next x.1 c)

/-- A step with the log. -/
def LoggedStep (p : AxParams) (x y : OffloadSys × CallLog) : Prop :=
  ∃ c, performLogged p x c = some y

theorem loggedStep_iff {p : AxParams} {x y : OffloadSys × CallLog} :
    LoggedStep p x y ↔ ∃ c, x.1.perform p c = some y.1 ∧ y.2 = x.2.next x.1 c := by
  constructor
  · rintro ⟨c, h⟩
    obtain ⟨s, hs, rfl⟩ := Option.map_eq_some_iff.1 h
    exact ⟨c, hs, rfl⟩
  · rintro ⟨c, h, hlog⟩
    refine ⟨c, ?_⟩
    rw [performLogged, h, Option.map_some, ← hlog]

/-- Every step is a choice of the scheduler. -/
theorem OffloadSys.exists_perform {p : AxParams} {s s' : OffloadSys}
    (h : OffloadSys.Step p s s') : ∃ c, s.perform p c = some s' := by
  cases h with
  | emul => exact ⟨.emul, rfl⟩
  | tick t ht => exact ⟨.tick t, by simp [perform, ht]⟩
  | call comp dst hc => exact ⟨.call comp dst, by simp [perform, hc]⟩
  | submit f hc => exact ⟨.submit, by simp [perform, hc]⟩
  | ret f r hc hr =>
      obtain ⟨pc, comp, dst, n⟩ := f
      obtain rfl : pc = .returned r := hr
      exact ⟨.ret, by simp [perform, hc]⟩

/-- The log only looks on: every run has one. -/
theorem exists_logged {p : AxParams} {s s' : OffloadSys} (h : ReflTransGen (OffloadSys.Step p) s s')
    (log : CallLog) : ∃ log', ReflTransGen (LoggedStep p) (s, log) (s', log') := by
  induction h with
  | refl => exact ⟨log, .refl⟩
  | @tail t t' _ hstep ih =>
      obtain ⟨log', hrun⟩ := ih
      obtain ⟨c, hc⟩ := OffloadSys.exists_perform hstep
      exact ⟨log'.next t c, hrun.tail (loggedStep_iff.2 ⟨c, hc, rfl⟩)⟩

/-! ## What a call should do -/

/-- The record `comp` has been offered again after each rejection, up to `num_retries` further
times; the call is successful exactly when one of the offers was accepted, and fails only when all
of them were rejected. -/
structure Retried (comp : ℕ) (log : CallLog) (r : ℤ) : Prop where
  offers : log.offers = List.replicate log.answers.length comp
  again : log.answers.length ≤ numRetries → log.answers.getLast? ≠ some false
  most : log.answers.length ≤ numRetries + 1
  success : r = statusSuccess ↔ true ∈ log.answers
  fail : r = statusFail → log.answers = List.replicate (numRetries + 1) false

/-! ## The invariant -/

/-- The log of the call in progress. -/
def Logged (client : Option SubmitFrame) (sh : Shared) (log : CallLog) : Prop :=
  match client with
  | none => True
  | some f =>
      match f.pc with
      | .clear | .storeAddr | .request => log = ⟨[], []⟩
      | .storeDst | .wait | .check =>
          log = ⟨[f.comp], if sh.submitFlag = offloadRequested then []
            else [decide (sh.submitStatus ≠ submitFail)]⟩
      | .returned r => ∃ accepted, log = ⟨[f.comp], [accepted]⟩ ∧
          r = if accepted then statusSuccess else statusFail

variable {p : AxParams} {s s' : OffloadSys} {log : CallLog}

/-- The accelerator gives no answer while nothing is pending. -/
theorem emulAnswer_of_quiet {pc : EmulPc} (h : Quiet pc) : emulAnswer pc = [] := by
  cases pc <;> simp [Quiet, emulAnswer] at h ⊢

/-- The answer that a pending request gets is the one the atomics say. -/
theorem Pending.answer {f : SubmitFrame} {a : EmulSys} (h : Pending f a.shared a.frame.pc) :
    emulAnswer a.frame.pc = if (a.emul p).shared.submitFlag = offloadRequested then []
      else [decide ((a.emul p).shared.submitStatus ≠ submitFail)] := by
  obtain ⟨hflag, -, -, hans⟩ := h
  cases hpc : a.frame.pc with
  | resetTotal | release => simp [hpc] at hans
  | acceptRelease t c =>
      simp only [hpc] at hans
      simp [EmulSys.emul, nonblockingEmulAx, emulAnswer, hpc, hans.1, offloadReceived,
        offloadRequested, submitSuccess, submitFail]
  | rejectRelease =>
      simp only [hpc] at hans
      simp [EmulSys.emul, nonblockingEmulAx, emulAnswer, hpc, hans, offloadReceived,
        offloadRequested]
  | complete t =>
      cases hl : a.frame.offloadInFlightList <;>
        simp [EmulSys.emul, nonblockingEmulAx, completeFront, emulAnswer, hpc, hl, hflag]
  | top =>
      cases hr : a.shared.axRunning <;>
        simp [EmulSys.emul, nonblockingEmulAx, emulAnswer, hpc, hr, hflag]
  | count =>
      simp only [EmulSys.emul, nonblockingEmulAx, emulAnswer, hpc]
      split_ifs <;> simp_all
  | time | poll | stamp | loadAddr t | push t c | acceptStatus t | rejectStatus | undefined
  | exited => simp [EmulSys.emul, nonblockingEmulAx, pushEntry, emulAnswer, hpc, hflag]

/-- A step of the accelerator. -/
theorem Logged.emul (hsync : Sync s.client s.ax.shared s.ax.frame.pc)
    (h : Logged s.client s.ax.shared log) :
    Logged s.client (s.ax.emul p).shared (log.next s .emul) := by
  cases hc : s.client with
  | none => trivial
  | some f =>
      rw [hc] at hsync h
      cases hpc : f.pc with
      | clear | storeAddr | request | returned r =>
          simp only [Sync, hpc] at hsync
          simp only [Logged, hpc] at h ⊢
          rw [CallLog.next, emulAnswer_of_quiet hsync.1.2, List.append_nil]
          exact h
      | check =>
          simp only [Sync, hpc] at hsync
          simp only [Logged, hpc] at h ⊢
          obtain ⟨hset, hst, -⟩ := hsync.1.emul (p := p)
          rw [CallLog.next, emulAnswer_of_quiet hsync.1.2, List.append_nil, h, hset.1, hst,
            hsync.1.1]
      | storeDst | wait =>
          simp only [Sync, hpc] at hsync
          simp only [Logged, hpc] at h ⊢
          rcases hsync with hp | ha
          · rw [CallLog.next, hp.answer (p := p), h, if_pos hp.1]
            rfl
          · obtain ⟨hset, hst, -⟩ := ha.1.emul (p := p)
            rw [CallLog.next, emulAnswer_of_quiet ha.1.2, List.append_nil, h, hset.1, hst, ha.1.1]

/-- A step of the submitter. -/
theorem Logged.submit {f : SubmitFrame} (hc : s.client = some f)
    (hsync : Sync s.client s.ax.shared s.ax.frame.pc) (h : Logged s.client s.ax.shared log) :
    Logged (s.submit f).client (s.submit f).ax.shared (log.next s .submit) := by
  have hne : ¬ offloadReceived = offloadRequested := by decide
  simp only [OffloadSys.submit, CallLog.next, hc]
  rw [hc] at hsync h
  cases hpc : f.pc with
  | clear | storeAddr | storeDst =>
      simp only [Logged, hpc] at h
      simpa [submitOffload, hpc, Logged] using h
  | request =>
      simp only [Sync, hpc] at hsync
      simp only [Logged, hpc] at h
      simp [submitOffload, hpc, Logged, h, hsync.2.2]
  | wait =>
      simp only [Logged, hpc] at h
      by_cases hflag : s.ax.shared.submitFlag = offloadRequested <;>
        simpa [submitOffload, hpc, Logged, hflag] using h
  | check =>
      simp only [Sync, hpc] at hsync
      simp only [Logged, hpc, hsync.1.1, if_neg hne] at h
      by_cases hfail : s.ax.shared.submitStatus = submitFail
      · by_cases hpos : 0 < f.retriesRemaining
        · simpa [submitOffload, hpc, hfail, hpos, Logged, hsync.1.1, hne] using h
        · have hzero : f.retriesRemaining = 0 := by omega
          simpa [submitOffload, hpc, hfail, hzero, Logged, statusFail, statusSuccess] using h
      · have h3 : f.retriesRemaining = 3 := hsync.2 hfail
        simpa [submitOffload, hpc, hfail, h3, Logged, statusFail, statusSuccess] using h
  | returned r =>
      simp only [Logged, hpc] at h
      simpa [submitOffload, hpc, Logged] using h

/-- Every step keeps the log right. -/
theorem preserved_logged (lost : List ℕ) : Preserved (LoggedStep p) fun x =>
    Account lost x.1 ∧ Logged x.1.client x.1.ax.shared x.2 := by
  rintro ⟨s, log⟩ ⟨s', log'⟩ hs ⟨hacc, hlog⟩
  obtain ⟨c, hc, rfl⟩ := loggedStep_iff.1 hs
  refine ⟨preserved_account lost (OffloadSys.step_of_perform hc) hacc, ?_⟩
  cases c with
  | emul =>
      obtain rfl := Option.some.inj hc
      exact hlog.emul hacc.sync
  | tick t =>
      simp only [OffloadSys.perform, Option.ite_none_right_eq_some, Option.some.injEq] at hc
      obtain ⟨-, rfl⟩ := hc
      exact hlog
  | call comp dst =>
      simp only [OffloadSys.perform] at hc
      cases hclient : s.client with
      | some f => simp [hclient] at hc
      | none =>
          simp only [hclient, Option.some.injEq] at hc
          subst hc
          simp [Logged, SubmitFrame.init, CallLog.next]
  | submit =>
      obtain ⟨f, hf, rfl⟩ := Option.map_eq_some_iff.1 hc
      exact hlog.submit hf hacc.sync
  | ret =>
      simp only [OffloadSys.perform] at hc
      split at hc
      · obtain rfl := Option.some.inj hc
        trivial
      · cases hc

/-- Of a call with one offer and one answer. -/
theorem retried_one_iff (comp : ℕ) (accepted : Bool) :
    Retried comp ⟨[comp], [accepted]⟩ (if accepted then statusSuccess else statusFail) ↔
      accepted = true := by
  cases accepted with
  | true =>
      refine ⟨fun _ => rfl, fun _ => ⟨rfl, ?_, ?_, ?_, ?_⟩⟩ <;>
        simp [statusSuccess, statusFail]
  | false =>
      refine ⟨fun h => absurd rfl (h.again ?_), fun h => absurd h Bool.false_ne_true⟩
      exact Nat.le_of_ble_eq_true rfl

/-- A call of `submit_offload` that has come to its end has made one offer and got one answer.  It
has retried as it should if and only if that answer, to the initial offer, was that the accelerator
accepts. -/
theorem submitOffload_retried_iff (p : AxParams) {s₀ : OffloadSys} (h₀ : s₀.Polling)
    {s : OffloadSys} {log₀ log : CallLog} (hr : ReflTransGen (LoggedStep p) (s₀, log₀) (s, log))
    {f : SubmitFrame} {r : ℤ} (hc : s.client = some f) (hpc : f.pc = .returned r) :
    log.offers = [f.comp] ∧ log.answers.length = 1 ∧
      (Retried f.comp log r ↔ log.answers.head? = some true) := by
  have hlogged₀ : Logged s₀.client s₀.ax.shared log₀ := by
    rw [h₀.client]
    trivial
  obtain ⟨-, h⟩ := (preserved_logged []).run hr ⟨h₀.account, hlogged₀⟩
  simp only [hc, Logged, hpc] at h
  obtain ⟨accepted, rfl, rfl⟩ := h
  refine ⟨rfl, rfl, ?_⟩
  rw [retried_one_iff]
  exact ⟨fun h => congrArg some h, fun h => Option.some.inj h⟩

/-- The call is accepted at once. -/
theorem submitOffload_retried_one :
    ∃ s, (oneCall.take 13).foldlM (performLogged oneSlot) (pollingSys, ⟨[], []⟩) =
        some (s, ⟨[7], [true]⟩) ∧ Retried 7 ⟨[7], [true]⟩ statusSuccess := by
  refine ⟨_, rfl, ?_⟩
  have hr : ReflTransGen (LoggedStep oneSlot) (pollingSys, ⟨[], []⟩) (_, ⟨[7], [true]⟩) :=
    run_of_choices (performLogged oneSlot) (fun _ c _ h => ⟨c, h⟩) (l := oneCall.take 13) rfl
  exact ((submitOffload_retried_iff oneSlot ⟨rfl, rfl, rfl, rfl, rfl⟩ hr rfl rfl).2.2).2 rfl

/-- A second call, while the only slot of the accelerator is taken. -/
def rejectedCall : List Choice :=
  oneCall ++ [.call 8 9] ++ List.replicate 4 .submit ++ List.replicate 8 .emul ++
    List.replicate 8 .submit

/-- The accelerator rejects once, and the call gives up without another offer. -/
theorem submitOffload_not_retried :
    ∃ s f, rejectedCall.foldlM (performLogged oneSlot) (pollingSys, ⟨[], []⟩) =
        some (s, ⟨[8], [false]⟩) ∧ s.client = some f ∧ f.comp = 8 ∧
      f.pc = .returned statusFail ∧ ¬ Retried 8 ⟨[8], [false]⟩ statusFail :=
  ⟨_, _, rfl, rfl, rfl, rfl, fun h => absurd (h.fail rfl) (by decide)⟩

end XMPGym
