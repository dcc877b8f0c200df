import Mathlib.Logic.Function.Iterate
import XMPGym.Offload

/-!
# The submission handshake

`submit_offload` and `nonblocking_emul_ax` agree on every submission although four atomics carry
the whole exchange and the accelerator releases `submit_flag` before it enqueues.  `Sync` relates
the two program counters and the atomics; `Account` adds that the records taken by the accelerator
are those of the successful calls.  The account has a prefix `lost` of calls that were reported
as accepted and never taken: it is empty unless the accelerator's start wiped a request.
-/

open Relation Transition

namespace XMPGym

variable {p : AxParams} {s s' : OffloadSys}

/-- The accelerator is not handling a request. -/
def Quiet : EmulPc → Prop
  | .resetTotal | .release | .stamp | .acceptStatus _ | .loadAddr _ | .acceptRelease _ _
  | .rejectStatus | .rejectRelease => False
  | _ => True

/-- No request is pending. -/
def Settled (sh : Shared) (pc : EmulPc) : Prop := sh.submitFlag = offloadReceived ∧ Quiet pc

/-- The request of the call `f` is pending: what the accelerator has done about it so far. -/
def Pending (f : SubmitFrame) (sh : Shared) (pc : EmulPc) : Prop :=
  sh.submitFlag = offloadRequested ∧ sh.complAddr = f.comp ∧ f.retriesRemaining = numRetries ∧
    match pc with
    | .loadAddr _ => sh.submitStatus = submitSuccess
    | .acceptRelease _ c => sh.submitStatus = submitSuccess ∧ c = f.comp
    | .rejectRelease => sh.submitStatus = submitFail
    | .resetTotal | .release => False
    | _ => True

/-- The request of the call `f` has been answered; retries are used up by rejections only. -/
def Answered (f : SubmitFrame) (sh : Shared) (pc : EmulPc) : Prop :=
  Settled sh pc ∧ (sh.submitStatus ≠ submitFail → f.retriesRemaining = numRetries)

/-- How the submitter, the atomics and the accelerator fit together. -/
def Sync (client : Option SubmitFrame) (sh : Shared) (pc : EmulPc) : Prop :=
  match client with
  | none => Settled sh pc
  | some f =>
      match f.pc with
      | .clear | .storeAddr => Settled sh pc ∧ f.retriesRemaining = numRetries
      | .request => Settled sh pc ∧ f.retriesRemaining = numRetries ∧ sh.complAddr = f.comp
      | .storeDst | .wait => Pending f sh pc ∨ Answered f sh pc
      | .check => Answered f sh pc
      | .returned r => Settled sh pc ∧ (r = statusSuccess ∨ r = statusFail)

/-- The record of the call in progress, once the answer is that it is accepted. -/
def awarded (client : Option SubmitFrame) (sh : Shared) (pc : EmulPc) : List ℕ :=
  match client with
  | none => []
  | some f =>
      match f.pc with
      | .clear | .storeAddr | .request => []
      | .storeDst | .wait | .check =>
          if sh.submitFlag = offloadRequested then
            match pc with
            | .acceptRelease _ _ => [f.comp]
            | _ => []
          else if sh.submitStatus = submitFail then [] else [f.comp]
      | .returned r => if r = statusSuccess then [f.comp] else []

/-- The invariant of the handshake. -/
structure Account (lost : List ℕ) (s : OffloadSys) : Prop where
  sync : Sync s.client s.ax.shared s.ax.frame.pc
  taken : lost ++ recorded s = successes s ++ awarded s.client s.ax.shared s.ax.frame.pc

/-! ## Steps of the accelerator -/

/-- Without a request the accelerator stays quiet and leaves the handshake alone. -/
theorem Settled.emul {a : EmulSys} (h : Settled a.shared a.frame.pc) :
    Settled (a.emul p).shared (a.emul p).frame.pc ∧
      (a.emul p).shared.submitStatus = a.shared.submitStatus ∧
      (a.emul p).shared.complAddr = a.shared.complAddr := by
  obtain ⟨hflag, hq⟩ := h
  cases hpc : a.frame.pc with
  | resetTotal | release | stamp | acceptStatus t | loadAddr t | acceptRelease t c | rejectStatus
  | rejectRelease => simp [hpc, Quiet] at hq
  | complete t =>
      cases hl : a.frame.offloadInFlightList <;>
        simp [EmulSys.emul, nonblockingEmulAx, completeFront, Settled, Quiet, hpc, hl, hflag]
  | push t c => simp [EmulSys.emul, nonblockingEmulAx, pushEntry, Settled, Quiet, hpc, hflag]
  | undefined | exited => simp [EmulSys.emul, nonblockingEmulAx, Settled, Quiet, hpc, hflag]
  | top =>
      cases hr : a.shared.axRunning <;> cases hf : a.frame.offloadInFlight <;>
        simp [EmulSys.emul, nonblockingEmulAx, Settled, Quiet, hpc, hflag, hr, hf]
  | time =>
      simp only [EmulSys.emul, nonblockingEmulAx, Settled, hpc, hflag]
      split_ifs <;> simp [Quiet]
  | poll =>
      simp [EmulSys.emul, nonblockingEmulAx, Settled, Quiet, hpc, hflag, offloadReceived,
        offloadRequested]
  | count =>
      simp only [EmulSys.emul, nonblockingEmulAx, Settled, hpc]
      split_ifs <;> simp [Quiet, hflag]

/-- The accelerator takes no record while it is quiet. -/
theorem recorded_emul_of_quiet (h : Quiet s.ax.frame.pc) :
    recorded (s.emul p) = recorded s := by
  rw [recorded_emul]
  cases hpc : s.ax.frame.pc <;> simp [hpc, Quiet] at h ⊢

/-- The accelerator either keeps a request pending or answers it, and what it takes is what the
submitter will be told. -/
theorem Pending.emul {f : SubmitFrame} (hw : f.pc = .storeDst ∨ f.pc = .wait)
    (h : Pending f s.ax.shared s.ax.frame.pc) :
    (Pending f (s.emul p).ax.shared (s.emul p).ax.frame.pc ∨
        Answered f (s.emul p).ax.shared (s.emul p).ax.frame.pc) ∧
      ∃ l, recorded (s.emul p) = recorded s ++ l ∧
        awarded (some f) (s.emul p).ax.shared (s.emul p).ax.frame.pc =
          awarded (some f) s.ax.shared s.ax.frame.pc ++ l := by
  obtain ⟨hflag, haddr, hret, hans⟩ := h
  have haw : ∀ (sh : Shared) (pc : EmulPc), awarded (some f) sh pc =
      if sh.submitFlag = offloadRequested then
        match pc with
        | .acceptRelease _ _ => [f.comp]
        | _ => []
      else if sh.submitStatus = submitFail then [] else [f.comp] := by
    intro sh pc
    rcases hw with hw | hw <;> simp only [awarded, hw]
  rw [recorded_emul, haw, haw]
  cases hpc : s.ax.frame.pc with
  | resetTotal | release => simp [hpc] at hans
  | top =>
      cases hr : s.ax.shared.axRunning <;> cases hf : s.ax.frame.offloadInFlight <;>
        simp [OffloadSys.emul, EmulSys.emul, nonblockingEmulAx, Pending, hpc, hr, hf, hflag, haddr,
          hret]
  | time | poll | stamp =>
      simp only [OffloadSys.emul, EmulSys.emul, nonblockingEmulAx, Pending, hpc, hflag]
      split_ifs <;> simp [haddr, hret]
  | complete t =>
      cases hl : s.ax.frame.offloadInFlightList <;>
        simp [OffloadSys.emul, EmulSys.emul, nonblockingEmulAx, completeFront, Pending, hpc, hl,
          hflag, haddr, hret]
  | count =>
      simp only [OffloadSys.emul, EmulSys.emul, nonblockingEmulAx, Pending, hpc]
      split_ifs <;> simp [hflag, haddr, hret]
  | acceptRelease t c =>
      simp only [hpc] at hans
      refine ⟨.inr ⟨⟨?_, ?_⟩, fun _ => hret⟩, [], ?_, ?_⟩ <;>
        simp [OffloadSys.emul, EmulSys.emul, nonblockingEmulAx, hpc, hflag, hans, Quiet,
          submitSuccess, submitFail, offloadReceived, offloadRequested]
  | rejectRelease =>
      simp only [hpc] at hans
      refine ⟨.inr ⟨⟨?_, ?_⟩, fun _ => hret⟩, [], ?_, ?_⟩ <;>
        simp [OffloadSys.emul, EmulSys.emul, nonblockingEmulAx, hpc, hflag, hans, Quiet,
          offloadReceived, offloadRequested]
  | loadAddr t =>
      simp only [hpc] at hans
      simp [OffloadSys.emul, EmulSys.emul, nonblockingEmulAx, Pending, hpc, hflag, haddr, hret,
        hans]
  | push t c | acceptStatus t | rejectStatus | undefined | exited =>
      simp [OffloadSys.emul, EmulSys.emul, nonblockingEmulAx, pushEntry, Pending, hpc, hflag,
        haddr, hret]

/-- While nothing is pending, what the submitter is told does not depend on the accelerator. -/
theorem awarded_congr {c : Option SubmitFrame} {sh sh' : Shared} {pc pc' : EmulPc}
    (hf : sh.submitFlag = offloadReceived) (hf' : sh'.submitFlag = offloadReceived)
    (hs : sh'.submitStatus = sh.submitStatus) : awarded c sh' pc' = awarded c sh pc := by
  have hne : ¬ offloadReceived = offloadRequested := by decide
  cases c with
  | none => rfl
  | some f => simp only [awarded, hf, hf', hs, if_neg hne]

theorem Account.emul {lost : List ℕ} (h : Account lost s) : Account lost (s.emul p) := by
  -- every case but that of a pending request is settled
  have settled : Settled s.ax.shared s.ax.frame.pc →
      (Settled (s.emul p).ax.shared (s.emul p).ax.frame.pc →
        (s.emul p).ax.shared.submitStatus = s.ax.shared.submitStatus →
        (s.emul p).ax.shared.complAddr = s.ax.shared.complAddr →
        Sync s.client (s.emul p).ax.shared (s.emul p).ax.frame.pc) → Account lost (s.emul p) := by
    intro hset hsync
    obtain ⟨hset', hst, haddr⟩ := hset.emul (p := p)
    refine ⟨hsync hset' hst haddr, ?_⟩
    rw [recorded_emul_of_quiet hset.2]
    exact h.taken.trans (congrArg (successes s ++ ·) (awarded_congr hset.1 hset'.1 hst).symm)
  obtain ⟨hsync, htaken⟩ := h
  cases hc : s.client with
  | none =>
      rw [hc] at hsync settled
      exact settled hsync fun h' _ _ => h'
  | some f =>
      rw [hc] at hsync settled
      cases hpc : f.pc with
      | clear | storeAddr | returned r =>
          simp only [Sync, hpc] at hsync settled
          exact settled hsync.1 fun h' _ _ => ⟨h', hsync.2⟩
      | request =>
          simp only [Sync, hpc] at hsync settled
          exact settled hsync.1 fun h' _ ha => ⟨h', hsync.2.1, ha.trans hsync.2.2⟩
      | check =>
          simp only [Sync, hpc] at hsync settled
          exact settled hsync.1 fun h' hst _ => ⟨h', hst ▸ hsync.2⟩
      | storeDst | wait =>
          simp only [Sync, hpc] at hsync settled
          rcases hsync with hp | ha
          · obtain ⟨hnext, l, hl, hl'⟩ := hp.emul (p := p) (by simp [hpc])
            refine ⟨?_, ?_⟩
            · show Sync s.client _ _
              simpa only [hc, Sync, hpc] using hnext
            · show lost ++ recorded (s.emul p) = successes s ++ awarded s.client _ _
              rw [hc] at htaken ⊢
              rw [hl, hl', ← List.append_assoc, htaken, List.append_assoc]
          · exact settled ha.1 fun h' hst _ => .inr ⟨h', hst ▸ ha.2⟩

/-! ## Steps of the submitter -/

/-- A step of the submitter keeps the protocol and changes nothing of what it will be told. -/
theorem Sync.submit {f : SubmitFrame} {sh : Shared} {pc : EmulPc} (h : Sync (some f) sh pc) :
    Sync (some (submitOffload f sh).1) (submitOffload f sh).2 pc ∧
      awarded (some (submitOffload f sh).1) (submitOffload f sh).2 pc = awarded (some f) sh pc := by
  have hne : ¬ offloadReceived = offloadRequested := by decide
  cases hpc : f.pc with
  | clear | storeAddr =>
      simp only [Sync, hpc] at h
      simpa [submitOffload, hpc, Sync, Settled, awarded] using h
  | request =>
      simp only [Sync, hpc] at h
      obtain ⟨⟨-, hq⟩, hret, haddr⟩ := h
      -- a quiet accelerator has not read `submit_flag` yet
      cases pc <;> simp [Quiet] at hq <;>
        simp [submitOffload, hpc, Sync, awarded, Pending, haddr, hret]
  | storeDst =>
      simp only [Sync, hpc] at h
      simpa [submitOffload, hpc, Sync, Pending, Answered, Settled, awarded] using h
  | wait =>
      simp only [Sync, hpc] at h
      rcases h with hp | ha
      · have hp' : Pending { f with pc := .wait } sh pc := hp
        simpa [submitOffload, hpc, hp.1, Sync, awarded] using Or.inl hp'
      · have ha' : Answered { f with pc := .check } sh pc := ha
        simpa [submitOffload, hpc, ha.1.1, hne, Sync, awarded] using ha'
  | check =>
      simp only [Sync, hpc] at h
      obtain ⟨hset, hret⟩ := h
      by_cases hfail : sh.submitStatus = submitFail
      · rcases Nat.eq_zero_or_pos f.retriesRemaining with h0 | hpos
        · simpa [submitOffload, hpc, hfail, h0, Sync, awarded, hset.1, hne, statusFail,
            statusSuccess] using hset
        · simpa [submitOffload, hpc, hfail, hpos, Sync, Answered, awarded, hset.1, hne] using
            Or.inr hset
      · have h3 : f.retriesRemaining = 3 := hret hfail
        simpa [submitOffload, hpc, hfail, h3, Sync, awarded, hset.1, hne] using hset
  | returned r => simpa [submitOffload, hpc] using h

theorem Account.submit {lost : List ℕ} (h : Account lost s) {f : SubmitFrame}
    (hc : s.client = some f) : Account lost (s.submit f) := by
  obtain ⟨hsync, htaken⟩ := h
  rw [hc] at hsync htaken
  obtain ⟨hsync', haw⟩ := hsync.submit
  exact ⟨hsync', htaken.trans (congrArg (successes s ++ ·) haw.symm)⟩

theorem Account.ret {lost : List ℕ} (h : Account lost s) {f : SubmitFrame} {r : ℤ}
    (hc : s.client = some f) (hr : f.pc = .returned r) :
    Account lost { s with client := none, returned := s.returned ++ [(f.comp, r)] } := by
  obtain ⟨hsync, htaken⟩ := h
  rw [hc] at hsync htaken
  simp only [Sync, awarded, hr] at hsync htaken
  refine ⟨hsync.1, htaken.trans ?_⟩
  by_cases hs : r = statusSuccess <;> simp [successes, awarded, List.filter_append, hs]

theorem preserved_account (lost : List ℕ) : Preserved (OffloadSys.Step p) (Account lost) := by
  intro s s' hs h
  cases hs with
  | emul => exact h.emul
  | tick t ht => exact ⟨h.sync, h.taken⟩
  | call comp dst hc =>
      obtain ⟨hsync, htaken⟩ := h
      rw [hc] at hsync htaken
      exact ⟨⟨hsync, rfl⟩, htaken⟩
  | submit f hc => exact h.submit hc
  | ret f r hc hr => exact h.ret hc hr

/-! ## Agreement -/

/-- The accelerator is at the top of its polling loop and no call is in progress; entries and
results are counted from here. -/
structure OffloadSys.Polling (s : OffloadSys) : Prop where
  pc : s.ax.frame.pc = .top
  flag : s.ax.shared.submitFlag = offloadReceived
  client : s.client = none
  history : s.ax.history = []
  returned : s.returned = []

theorem OffloadSys.Polling.account (h : s.Polling) : Account [] s := by
  obtain ⟨hpc, hflag, hc, hh, hr⟩ := h
  refine ⟨?_, ?_⟩
  · simp [hc, hpc, hflag, Sync, Settled, Quiet]
  · simp [hc, hpc, hh, hr, recorded, successes, awarded, pushing, acceptedIn]

/-- Between two calls the records taken by the accelerator are those of the successful calls. -/
theorem Account.recorded_eq {lost : List ℕ} (h : Account lost s) (hc : s.client = none) :
    lost ++ recorded s = successes s := by
  simpa [hc, awarded] using h.taken

/-- A call returns one of the two statuses. -/
theorem returned_status {s₀ : OffloadSys} {lost : List ℕ} (h₀ : Account lost s₀)
    (hs₀ : ∀ c ∈ s₀.returned, c.2 = statusSuccess ∨ c.2 = statusFail)
    (hr : ReflTransGen (OffloadSys.Step p) s₀ s) :
    ∀ c ∈ s.returned, c.2 = statusSuccess ∨ c.2 = statusFail := by
  have key : Preserved (OffloadSys.Step p) fun s => Account lost s ∧
      ∀ c ∈ s.returned, c.2 = statusSuccess ∨ c.2 = statusFail := by
    refine (preserved_account lost).and_of fun s s' hs h hret => ?_
    cases hs with
    | emul | tick | call | submit => exact hret
    | ret f r hc hpc =>
        intro c hc'
        rcases List.mem_append.1 hc' with hc' | hc'
        · exact hret c hc'
        · obtain rfl := List.mem_singleton.1 hc'
          have := h.sync
          simp only [hc, Sync, hpc] at this
          exact this.2
  exact (key.run hr ⟨h₀, hs₀⟩).2

/-- The accelerator appends the entry it has taken in its own next two steps. -/
theorem recorded_pushed (p : AxParams) (s : OffloadSys) :
    ∃ n ≤ 2, (acceptedIn ((OffloadSys.emul p)^[n] s).ax.history).map OffloadEntry.comp =
      recorded s := by
  cases hpc : s.ax.frame.pc with
  | acceptRelease t c =>
      refine ⟨2, Nat.le_refl 2, ?_⟩
      simp [recorded, pushing, hpc, OffloadSys.emul, EmulSys.emul, emulEvent, nonblockingEmulAx,
        acceptedIn, newEntry]
  | push t c =>
      refine ⟨1, by omega, ?_⟩
      simp [recorded, pushing, hpc, OffloadSys.emul, EmulSys.emul, emulEvent, acceptedIn, newEntry]
  | _ => exact ⟨0, by omega, by simp [recorded, pushing, hpc]⟩

theorem preserved_tallied (l₀ : List OffloadEntry) :
    Preserved (OffloadSys.Step p) fun s => s.ax.Tallied l₀ := by
  intro s s' hs h
  cases hs with
  | emul => exact h.emul
  | tick | call | submit | ret => exact h

/-- A call that returned `STATUS_SUCCESS` made the accelerator take exactly one entry, with its own
completion record; a call that returned `STATUS_FAIL` made it take none; and the accelerator
takes no entry outside of a call.  What it has taken it appends in its next two steps, and what it
has appended is on `offload_in_flight_list`, behind what was there at the beginning, until it is
completed. -/
theorem submitOffload_reported (p : AxParams) {s₀ : OffloadSys} (h₀ : s₀.Polling)
    (hr : ReflTransGen (OffloadSys.Step p) s₀ s) :
    (s.client = none → recorded s = successes s) ∧
    (s.ax.frame.pc = .top → (acceptedIn s.ax.history).map OffloadEntry.comp = recorded s) ∧
    (∃ n ≤ 2, (acceptedIn ((OffloadSys.emul p)^[n] s).ax.history).map OffloadEntry.comp =
      recorded s) ∧
    s₀.ax.frame.offloadInFlightList ++ acceptedIn s.ax.history =
      (completedIn s.ax.history).map Prod.fst ++ s.ax.frame.offloadInFlightList ∧
    ∀ s', ReflTransGen (OffloadSys.Step p) s s' → s.client = none → s'.client = none →
      (s'.returned = s.returned → recorded s' = recorded s) ∧
      ∀ c r, s'.returned = s.returned ++ [(c, r)] →
        r = statusSuccess ∧ recorded s' = recorded s ++ [c] ∨
          r = statusFail ∧ recorded s' = recorded s := by
  have h := (preserved_account []).run hr h₀.account
  have hstart : s₀.ax.Tallied s₀.ax.frame.offloadInFlightList := by
    simp [EmulSys.Tallied, h₀.history]
  refine ⟨fun hc => h.recorded_eq hc, fun hpc => by simp [recorded, pushing, hpc],
    recorded_pushed p s, (preserved_tallied _).run hr hstart, ?_⟩
  intro s' hr' hc hc'
  have h' := (preserved_account []).run hr' h
  have e : recorded s = successes s := h.recorded_eq hc
  have e' : recorded s' = successes s' := h'.recorded_eq hc'
  refine ⟨fun hret => by rw [e', e, successes, successes, hret], fun c r hret => ?_⟩
  have hstat := returned_status h₀.account (by simp [h₀.returned]) (hr.trans hr') (c, r)
    (by simp [hret])
  rw [e', e, successes, successes, hret, List.filter_append, List.map_append]
  rcases hstat with rfl | rfl
  · exact .inl ⟨rfl, by simp⟩
  · exact .inr ⟨rfl, by simp [statusFail, statusSuccess]⟩

/-- The accelerator polls and no call has been made. -/
def pollingSys : OffloadSys where
  ax := { frame := { EmulFrame.init with pc := .top }, clock := 0, history := []
          shared := { Shared.zero with submitFlag := offloadReceived, axRunning := true } }
  client := none
  returned := []

/-- A call that is taken while the submitter waits and appended after the call has ended. -/
def oneCall : List Choice :=
  [.call 7 9, .submit, .submit, .submit, .submit, .emul, .emul, .emul, .emul, .emul, .emul, .submit,
    .submit, .ret, .emul]

theorem submitOffload_reported_one :
    ∃ s, pollingSys.schedule oneSlot oneCall = some s ∧ s.returned = [(7, statusSuccess)] ∧
      s.ax.frame.offloadInFlightList = [⟨0, 5, 7⟩] ∧ recorded s = [7] ∧ recorded s = successes s ∧
      pollingSys.ax.frame.offloadInFlightList ++ acceptedIn s.ax.history =
        (completedIn s.ax.history).map Prod.fst ++ s.ax.frame.offloadInFlightList := by
  have hr := OffloadSys.run_of_schedule (p := oneSlot) (s := pollingSys) (l := oneCall) rfl
  obtain ⟨hsucc, -, -, hlist, -⟩ := submitOffload_reported oneSlot ⟨rfl, rfl, rfl, rfl, rfl⟩ hr
  exact ⟨_, rfl, rfl, rfl, rfl, hsucc rfl, hlist⟩

end XMPGym
