import Mathlib.Algebra.Ring.Int.Defs
import Mathlib.Algebra.Ring.Nat
import Mathlib.Data.Int.Notation
import Mathlib.Data.List.Basic
import Mathlib.Data.Nat.Notation
import Mathlib.Logic.Function.Basic

/-!
# The emulated accelerator

`nonblocking_emul_ax` (`src/emul_ax.cpp`) as a thread that performs one shared access per step.
Completion records are addressed by natural numbers; 64-bit sums are taken modulo `2 ^ 64`.
-/

namespace XMPGym

/-! ## Constants of `emul_ax.h`, `status.h` and `print_utils.h` -/

def submitSuccess : ℤ := 0
def submitFail : ℤ := 1
def offloadReceived : ℤ := 1
def offloadRequested : ℤ := 0
def compStatusCompleted : ℕ := 1
def compStatusPending : ℕ := 0
def statusSuccess : ℤ := 0
def statusFail : ℤ := -1
def logMonitor : ℤ := 2
def logDebug : ℤ := 3

/-! ## Shared memory -/

/-- The atomics of `emul_ax.cpp`, the status words of the completion records and the flag
`*ax_running`. -/
structure Shared where
  submitFlag : ℤ
  submitStatus : ℤ
  complAddr : ℕ
  pDstBuf : ℕ
  totalOffloads : ℕ
  comps : ℕ → ℕ
  axRunning : Bool

/-- The shared memory of a process that has not started an accelerator. -/
def Shared.zero : Shared := ⟨0, 0, 0, 0, 0, fun _ => 0, false⟩

/-- An `offload_entry`, without the field `id`, which nothing reads. -/
structure OffloadEntry where
  startTime : ℕ
  compTime : ℕ
  comp : ℕ
  deriving DecidableEq, Repr

/-- The thread's parameters and the two globals it reads. -/
structure AxParams where
  maxInflights : ℤ
  offloadTime : ℕ
  gLogLevel : ℤ
  gDebugParam : Bool

/-- An accelerator with one slot. -/
def oneSlot : AxParams := ⟨1, 5, 0, false⟩

/-! ## The thread -/

/-- The thread's position, named by what it does next. -/
inductive EmulPc where
  /-- `total_offloads = 0`, when monitoring is on -/
  | resetTotal
  /-- `submit_flag = OFFLOAD_RECEIVED`, before the loop -/
  | release
  /-- `while(*keep_running)` -/
  | top
  /-- `cur_time = sampleCoderdtsc()` -/
  | time
  /-- completion of the front entry -/
  | complete (curTime : ℕ)
  /-- `submit_flag.load() == OFFLOAD_REQUESTED` -/
  | poll
  /-- `start_time = sampleCoderdtsc()` and the test of `in_flight` -/
  | stamp
  /-- `submit_status = SUBMIT_SUCCESS` -/
  | acceptStatus (startTime : ℕ)
  /-- `compl_addr.load()` -/
  | loadAddr (startTime : ℕ)
  /-- `submit_flag = OFFLOAD_RECEIVED` on the accepting branch -/
  | acceptRelease (startTime comp : ℕ)
  /-- the entry is built and appended -/
  | push (startTime comp : ℕ)
  /-- `total_offloads++`, when monitoring is on -/
  | count
  /-- `submit_status = SUBMIT_FAIL` -/
  | rejectStatus
  /-- `submit_flag = OFFLOAD_RECEIVED` on the rejecting branch -/
  | rejectRelease
  /-- `front()` was called on an empty list -/
  | undefined
  /-- the thread has left the loop -/
  | exited
  deriving DecidableEq, Repr

/-- The thread's local variables. -/
structure EmulFrame where
  pc : EmulPc
  offloadInFlight : Bool
  offloadInFlightList : List OffloadEntry
  nextOffloadCompletionTime : ℕ
  inFlight : ℤ
  totalOffloads : ℕ
  offloadDurationSum : ℕ
  rejectedOffloads : ℕ
  deriving DecidableEq, Repr

/-- The frame with which `nonblocking_emul_ax` starts. -/
def EmulFrame.init : EmulFrame where
  pc := .resetTotal
  offloadInFlight := false
  offloadInFlightList := []
  nextOffloadCompletionTime := 2 ^ 64 - 1
  inFlight := 0
  totalOffloads := 0
  offloadDurationSum := 0
  rejectedOffloads := 0

/-- The entry built for the record `comp`, accepted at `startTime`. -/
def newEntry (p : AxParams) (startTime comp : ℕ) : OffloadEntry :=
  ⟨startTime, (startTime + p.offloadTime) % 2 ^ 64, comp⟩

/-- Complete the front entry: write its record, drop it, and look up the next deadline. -/
def completeFront (p : AxParams) (curTime : ℕ) (f : EmulFrame) (sh : Shared) :
    EmulFrame × Shared :=
  match f.offloadInFlightList with
  | [] => ({ f with pc := .undefined }, sh)
  | e :: rest =>
      ({ f with
          pc := .poll
          inFlight := f.inFlight - 1
          offloadDurationSum :=
            if p.gDebugParam then
              (f.offloadDurationSum + (curTime + 2 ^ 64 - e.startTime) % 2 ^ 64) % 2 ^ 64
            else f.offloadDurationSum
          offloadInFlightList := rest
          offloadInFlight := !rest.isEmpty
          nextOffloadCompletionTime :=
            match rest with
            | [] => f.nextOffloadCompletionTime
            | e' :: _ => e'.compTime },
        { sh with comps := Function.update sh.comps e.comp compStatusCompleted })

/-- Append the accepted entry. -/
def pushEntry (p : AxParams) (startTime comp : ℕ) (f : EmulFrame) : EmulFrame :=
  { f with
    pc := .count
    offloadInFlightList := f.offloadInFlightList ++ [newEntry p startTime comp]
    inFlight := f.inFlight + 1
    offloadInFlight := true
    nextOffloadCompletionTime :=
      if (f.offloadInFlightList ++ [newEntry p startTime comp]).length = 1 then
        (newEntry p startTime comp).compTime
      else f.nextOffloadCompletionTime
    totalOffloads := f.totalOffloads + 1 }

/-- One step of `nonblocking_emul_ax`, with `clock` the value `sampleCoderdtsc` returns now. -/
def nonblockingEmulAx (p : AxParams) (clock : ℕ) (f : EmulFrame) (sh : Shared) :
    EmulFrame × Shared :=
  match f.pc with
  | .resetTotal =>
      ({ f with pc := .release },
        if logMonitor = p.gLogLevel then { sh with totalOffloads := 0 } else sh)
  | .release => ({ f with pc := .top }, { sh with submitFlag := offloadReceived })
  | .top =>
      if sh.axRunning then
        ({ f with pc := if f.offloadInFlight then .time else .poll }, sh)
      else ({ f with pc := .exited }, sh)
  | .time =>
      ({ f with
          pc := if f.nextOffloadCompletionTime ≤ clock then .complete clock else .poll }, sh)
  | .complete curTime => completeFront p curTime f sh
  | .poll => ({ f with pc := if sh.submitFlag = offloadRequested then .stamp else .top }, sh)
  | .stamp =>
      ({ f with pc := if f.inFlight < p.maxInflights then .acceptStatus clock
                      else .rejectStatus }, sh)
  | .acceptStatus t => ({ f with pc := .loadAddr t }, { sh with submitStatus := submitSuccess })
  | .loadAddr t => ({ f with pc := .acceptRelease t sh.complAddr }, sh)
  | .acceptRelease t c => ({ f with pc := .push t c }, { sh with submitFlag := offloadReceived })
  | .push t c => (pushEntry p t c f, sh)
  | .count =>
      ({ f with pc := .top },
        if p.gLogLevel = logMonitor then { sh with totalOffloads := sh.totalOffloads + 1 } else sh)
  | .rejectStatus => ({ f with pc := .rejectRelease }, { sh with submitStatus := submitFail })
  | .rejectRelease =>
      ({ f with pc := .top, rejectedOffloads := f.rejectedOffloads + 1 },
        { sh with submitFlag := offloadReceived })
  | .undefined => (f, sh)
  | .exited => (f, sh)

/-! ## Runs of the thread -/

/-- What the thread does to its list, as recorded in the history of a run. -/
inductive EmulEvent where
  | accepted (e : OffloadEntry)
  | completed (e : OffloadEntry) (curTime : ℕ)
  | rejected
  deriving DecidableEq, Repr

/-- The event of the next step. -/
def emulEvent (p : AxParams) (f : EmulFrame) : Option EmulEvent :=
  match f.pc with
  | .complete t => f.offloadInFlightList.head?.map (.completed · t)
  | .push t c => some (.accepted (newEntry p t c))
  | .rejectStatus => some .rejected
  | _ => none

/-- The entries appended in a history, oldest first. -/
def acceptedIn (h : List EmulEvent) : List OffloadEntry :=
  h.filterMap fun | .accepted e => some e | _ => none

/-- The entries completed in a history with the clock readings, oldest first. -/
def completedIn (h : List EmulEvent) : List (OffloadEntry × ℕ) :=
  h.filterMap fun | .completed e t => some (e, t) | _ => none

@[simp] theorem acceptedIn_append (h h' : List EmulEvent) :
    acceptedIn (h ++ h') = acceptedIn h ++ acceptedIn h' := List.filterMap_append

@[simp] theorem completedIn_append (h h' : List EmulEvent) :
    completedIn (h ++ h') = completedIn h ++ completedIn h' := List.filterMap_append

@[simp] theorem acceptedIn_nil : acceptedIn [] = [] := rfl

@[simp] theorem completedIn_nil : completedIn [] = [] := rfl

@[simp] theorem acceptedIn_accepted (e : OffloadEntry) : acceptedIn [.accepted e] = [e] := rfl

@[simp] theorem acceptedIn_completed (e : OffloadEntry) (t : ℕ) :
    acceptedIn [.completed e t] = [] := rfl

@[simp] theorem acceptedIn_rejected : acceptedIn [.rejected] = [] := rfl

@[simp] theorem completedIn_accepted (e : OffloadEntry) : completedIn [.accepted e] = [] := rfl

@[simp] theorem completedIn_completed (e : OffloadEntry) (t : ℕ) :
    completedIn [.completed e t] = [(e, t)] := rfl

@[simp] theorem completedIn_rejected : completedIn [.rejected] = [] := rfl

/-- The thread, the memory it shares, the time-stamp counter and the history of the run. -/
structure EmulSys where
  frame : EmulFrame
  shared : Shared
  clock : ℕ
  history : List EmulEvent

/-- The thread moves. -/
def EmulSys.emul (p : AxParams) (s : EmulSys) : EmulSys where
  frame := (nonblockingEmulAx p s.clock s.frame s.shared).1
  shared := (nonblockingEmulAx p s.clock s.frame s.shared).2
  clock := s.clock
  history := s.history ++ (emulEvent p s.frame).toList

/-- The next step completes `e` at the clock reading `t`: it takes it from the front of the list and
writes its record. -/
structure EmulSys.Completes (p : AxParams) (s : EmulSys) (e : OffloadEntry) (t : ℕ) : Prop where
  pc : s.frame.pc = .complete t
  list : s.frame.offloadInFlightList = e :: (s.emul p).frame.offloadInFlightList
  comps : (s.emul p).shared.comps =
    Function.update s.shared.comps e.comp compStatusCompleted
  history : completedIn (s.emul p).history = completedIn s.history ++ [(e, t)]

/-- The next step completes nothing. -/
structure EmulSys.CompletesNone (p : AxParams) (s : EmulSys) : Prop where
  comps : (s.emul p).shared.comps = s.shared.comps
  history : completedIn (s.emul p).history = completedIn s.history

/-- Records are written and completions logged at the same steps. -/
theorem EmulSys.completes_or_none (p : AxParams) (s : EmulSys) :
    (∃ e t, s.Completes p e t) ∨ s.CompletesNone p := by
  cases hpc : s.frame.pc with
  | complete t =>
      cases hl : s.frame.offloadInFlightList with
      | nil => exact .inr (by constructor <;>
          simp [emul, nonblockingEmulAx, emulEvent, completeFront, hpc, hl])
      | cons e rest => exact .inl ⟨e, t, by constructor <;>
          simp [emul, nonblockingEmulAx, emulEvent, completeFront, hpc, hl]⟩
  | top =>
      cases hr : s.shared.axRunning <;>
        exact .inr (by constructor <;> simp [emul, nonblockingEmulAx, emulEvent, hpc, hr])
  | resetTotal | count =>
      refine .inr ⟨?_, by simp [emul, emulEvent, hpc]⟩
      simp only [emul, nonblockingEmulAx, hpc]
      split_ifs <;> rfl
  | _ => exact .inr (by constructor <;> simp [emul, nonblockingEmulAx, emulEvent, hpc])

/-- An entry that is completed after a step was completed before it, or is completed by it. -/
theorem EmulSys.completedIn_emul {p : AxParams} {s : EmulSys} {m t : ℕ} {e : OffloadEntry}
    (h : (completedIn (s.emul p).history)[m]? = some (e, t)) :
    (completedIn s.history)[m]? = some (e, t) ∨
      (completedIn s.history).length = m ∧ s.Completes p e t := by
  rcases s.completes_or_none p with ⟨e', t', hc⟩ | hnone
  · rw [hc.history] at h
    by_cases hlt : m < (completedIn s.history).length
    · left
      rwa [List.getElem?_append_left hlt] at h
    · right
      rw [List.getElem?_append_right (Nat.le_of_not_lt hlt), List.getElem?_singleton] at h
      split_ifs at h with hzero
      cases h
      exact ⟨by omega, hc⟩
  · left
    rwa [hnone.history] at h

/-- The entries of the list, with `l₀` on it at the beginning: those that were accepted and have not
been completed. -/
def EmulSys.Tallied (l₀ : List OffloadEntry) (s : EmulSys) : Prop :=
  l₀ ++ acceptedIn s.history =
    (completedIn s.history).map Prod.fst ++ s.frame.offloadInFlightList

/-- What the thread logs is what it does to its list. -/
theorem EmulSys.Tallied.emul {p : AxParams} {l₀ : List OffloadEntry} {s : EmulSys}
    (h : s.Tallied l₀) : (s.emul p).Tallied l₀ := by
  unfold Tallied at h ⊢
  cases hpc : s.frame.pc with
  | complete t =>
      cases hl : s.frame.offloadInFlightList <;>
        simp [EmulSys.emul, nonblockingEmulAx, emulEvent, completeFront, hpc, hl, h]
  | push t c =>
      simp [EmulSys.emul, nonblockingEmulAx, emulEvent, pushEntry, hpc, ← List.append_assoc, h]
  | top =>
      cases hr : s.shared.axRunning <;>
        simpa [EmulSys.emul, nonblockingEmulAx, emulEvent, hpc, hr] using h
  | _ => simpa [EmulSys.emul, nonblockingEmulAx, emulEvent, hpc] using h

/-- The thread moves, the clock advances, or other threads write the shared memory. -/
inductive EmulSys.Step (p : AxParams) : EmulSys → EmulSys → Prop where
  | emul (s : EmulSys) : Step p s (s.emul p)
  | tick (s : EmulSys) (t : ℕ) (h : s.clock ≤ t) : Step p s { s with clock := t }
  | env (s : EmulSys) (sh : Shared) : Step p s { s with shared := sh }

end XMPGym
