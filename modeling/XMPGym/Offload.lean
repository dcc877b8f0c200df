import XMPGym.EmulAx
import XMPGym.Lib.Transition

/-!
# Submission to the emulated accelerator

`submit_offload` (`src/offload.cpp`) as a program that performs one shared access per step, and the
system of one submitting thread and the thread `nonblocking_emul_ax`.  The two interleave at every
access, under sequential consistency.
-/

open Relation Transition

namespace XMPGym

/-! ## `submit_offload` -/

/-- The position in `submit_offload`, named by what it does next. -/
inductive SubmitPc where
  /-- `comp->status = COMP_STATUS_PENDING` -/
  | clear
  /-- `compl_addr = (uint64_t)comp` -/
  | storeAddr
  /-- `submit_flag = OFFLOAD_REQUESTED` -/
  | request
  /-- `p_dst_buf = (uint64_t)dst_payload` -/
  | storeDst
  /-- `while(submit_flag.load() == OFFLOAD_REQUESTED)`, at the label `retry` -/
  | wait
  /-- `submit_status == SUBMIT_FAIL && retries_remaining > 0` -/
  | check
  /-- the call has returned `status` -/
  | returned (status : ℤ)
  deriving DecidableEq, Repr

/-- `num_retries` -/
def numRetries : ℕ := 3

/-- The arguments and local variables of a call of `submit_offload`. -/
structure SubmitFrame where
  pc : SubmitPc
  comp : ℕ
  dstPayload : ℕ
  retriesRemaining : ℕ
  deriving DecidableEq, Repr

/-- A call of `submit_offload` that begins. -/
def SubmitFrame.init (comp dstPayload : ℕ) : SubmitFrame := ⟨.clear, comp, dstPayload, numRetries⟩

/-- One step of `submit_offload`. -/
def submitOffload (f : SubmitFrame) (sh : Shared) : SubmitFrame × Shared :=
  match f.pc with
  | .clear =>
      ({ f with pc := .storeAddr },
        { sh with comps := Function.update sh.comps f.comp compStatusPending })
  | .storeAddr => ({ f with pc := .request }, { sh with complAddr := f.comp })
  | .request => ({ f with pc := .storeDst }, { sh with submitFlag := offloadRequested })
  | .storeDst => ({ f with pc := .wait }, { sh with pDstBuf := f.dstPayload })
  | .wait => ({ f with pc := if sh.submitFlag = offloadRequested then .wait else .check }, sh)
  | .check =>
      if sh.submitStatus = submitFail ∧ 0 < f.retriesRemaining then
        -- `goto retry`: the label stands after the stores that make the request
        ({ f with pc := .wait, retriesRemaining := f.retriesRemaining - 1 }, sh)
      else if f.retriesRemaining = 0 then ({ f with pc := .returned statusFail }, sh)
      else ({ f with pc := .returned statusSuccess, retriesRemaining := numRetries }, sh)
  | .returned _ => (f, sh)

theorem submitOffload_comp (f : SubmitFrame) (sh : Shared) :
    (submitOffload f sh).1.comp = f.comp := by
  unfold submitOffload
  split <;> try rfl
  split_ifs <;> rfl

/-! ## One submitter and the accelerator -/

/-- The accelerator thread, the submitting thread (`none` between two calls) and the results of
its finished calls, oldest first. -/
structure OffloadSys where
  ax : EmulSys
  client : Option SubmitFrame
  returned : List (ℕ × ℤ)

/-- The accelerator thread moves. -/
def OffloadSys.emul (p : AxParams) (s : OffloadSys) : OffloadSys := { s with ax := s.ax.emul p }

/-- The submitter makes one step of its call `f`. -/
def OffloadSys.submit (s : OffloadSys) (f : SubmitFrame) : OffloadSys :=
  { s with
    ax := { s.ax with shared := (submitOffload f s.ax.shared).2 }
    client := some (submitOffload f s.ax.shared).1 }

/-- The accelerator moves, the clock advances, or the submitter begins, continues or ends a call. -/
inductive OffloadSys.Step (p : AxParams) : OffloadSys → OffloadSys → Prop where
  | emul (s : OffloadSys) : Step p s (s.emul p)
  | tick (s : OffloadSys) (t : ℕ) (h : s.ax.clock ≤ t) :
      Step p s { s with ax := { s.ax with clock := t } }
  | call (s : OffloadSys) (comp dst : ℕ) (h : s.client = none) :
      Step p s { s with client := some (.init comp dst) }
  | submit (s : OffloadSys) (f : SubmitFrame) (h : s.client = some f) : Step p s (s.submit f)
  | ret (s : OffloadSys) (f : SubmitFrame) (r : ℤ) (h : s.client = some f)
      (hr : f.pc = .returned r) :
      Step p s { s with client := none, returned := s.returned ++ [(f.comp, r)] }

/-- Forgetting the submitter leaves a run of the accelerator thread in some environment. -/
theorem OffloadSys.simulates_ax (p : AxParams) :
    Simulates (OffloadSys.Step p) (EmulSys.Step p) fun s t => s.ax = t := by
  rintro s s' _ hs rfl
  cases hs with
  | emul => exact ⟨_, .single (.emul _), rfl⟩
  | tick t ht => exact ⟨_, .single (.tick _ t ht), rfl⟩
  | submit f hf => exact ⟨_, .single (.env _ _), rfl⟩
  | call comp dst h => exact ⟨_, .refl, rfl⟩
  | ret f r h hr => exact ⟨_, .refl, rfl⟩

/-! ## Schedules -/

/-- One choice of the scheduler. -/
inductive Choice where
  | emul
  | tick (t : ℕ)
  | call (comp dst : ℕ)
  | submit
  | ret
  deriving DecidableEq, Repr

/-- The step that a choice stands for, where it is enabled. -/
def OffloadSys.perform (p : AxParams) (s : OffloadSys) : Choice → Option OffloadSys
  | .emul => some (s.emul p)
  | .tick t => if s.ax.clock ≤ t then some { s with ax := { s.ax with clock := t } } else none
  | .call comp dst =>
      match s.client with
      | none => some { s with client := some (.init comp dst) }
      | some _ => none
  | .submit => s.client.map s.submit
  | .ret =>
      match s.client with
      | some ⟨.returned r, comp, _, _⟩ =>
          some { s with client := none, returned := s.returned ++ [(comp, r)] }
      | _ => none

/-- The run that a list of choices makes. -/
def OffloadSys.schedule (p : AxParams) (s : OffloadSys) (l : List Choice) : Option OffloadSys :=
  l.foldlM (OffloadSys.perform p) s

theorem OffloadSys.step_of_perform {p : AxParams} {s s' : OffloadSys} {c : Choice}
    (h : s.perform p c = some s') : OffloadSys.Step p s s' := by
  cases c with
  | emul =>
      obtain rfl := Option.some.inj h
      exact .emul s
  | tick t =>
      simp only [perform, Option.ite_none_right_eq_some, Option.some.injEq] at h
      obtain ⟨ht, rfl⟩ := h
      exact .tick s t ht
  | call comp dst =>
      simp only [perform] at h
      split at h
      · next hc =>
          obtain rfl := Option.some.inj h
          exact .call s comp dst hc
      · cases h
  | submit =>
      obtain ⟨f, hf, rfl⟩ := Option.map_eq_some_iff.1 h
      exact .submit s f hf
  | ret =>
      simp only [perform] at h
      split at h
      · next r comp dst n hc =>
          obtain rfl := Option.some.inj h
          exact .ret s _ r hc rfl
      · cases h

theorem OffloadSys.run_of_schedule {p : AxParams} {s s' : OffloadSys} {l : List Choice}
    (h : s.schedule p l = some s') : ReflTransGen (OffloadSys.Step p) s s' :=
  run_of_choices (OffloadSys.perform p) (fun _ _ _ => step_of_perform) h

/-! ## Accepted submissions -/

/-- The record of the entry that is being built and is not on the list yet. -/
def pushing (f : EmulFrame) : List ℕ :=
  match f.pc with
  | .acceptRelease _ c | .push _ c => [c]
  | _ => []

/-- The records of the entries the accelerator has taken, in order: those pushed on
`offload_in_flight_list` (completed since or not) and the one that is being pushed. -/
def recorded (s : OffloadSys) : List ℕ :=
  (acceptedIn s.ax.history).map OffloadEntry.comp ++ pushing s.ax.frame

/-- The records of the calls that returned `STATUS_SUCCESS`, in order. -/
def successes (s : OffloadSys) : List ℕ :=
  (s.returned.filter fun c => c.2 = statusSuccess).map Prod.fst

/-- Only the load of `compl_addr` on the accepting branch takes a new record. -/
theorem recorded_emul (p : AxParams) (s : OffloadSys) :
    recorded (s.emul p) = recorded s ++
      match s.ax.frame.pc with
      | .loadAddr _ => [s.ax.shared.complAddr]
      | _ => [] := by
  cases hpc : s.ax.frame.pc with
  | top =>
      cases hr : s.ax.shared.axRunning <;> cases hf : s.ax.frame.offloadInFlight <;>
        simp [recorded, OffloadSys.emul, EmulSys.emul, nonblockingEmulAx, emulEvent, pushing, hpc,
          hr, hf]
  | time | poll | stamp =>
      simp only [recorded, OffloadSys.emul, EmulSys.emul, nonblockingEmulAx, emulEvent, pushing,
        hpc]
      split_ifs <;> simp
  | complete t =>
      cases hl : s.ax.frame.offloadInFlightList <;>
        simp [recorded, OffloadSys.emul, EmulSys.emul, nonblockingEmulAx, emulEvent, pushing, hpc,
          hl, completeFront, acceptedIn]
  | push t c =>
      simp [recorded, OffloadSys.emul, EmulSys.emul, nonblockingEmulAx, emulEvent, pushing, hpc,
        pushEntry, acceptedIn, newEntry]
  | resetTotal | release | acceptStatus t | loadAddr t | acceptRelease t c | count | rejectStatus
  | rejectRelease | undefined | exited =>
      simp [recorded, OffloadSys.emul, EmulSys.emul, nonblockingEmulAx, emulEvent, pushing, hpc,
        acceptedIn]

end XMPGym
