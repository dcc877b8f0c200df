import XMPGym.EmulAx
import XMPGym.Lib.DeadlineQueue
import XMPGym.Lib.Transition
import Mathlib.Algebra.Order.Ring.Int

/-!
# The queue of the emulated accelerator

`nonblocking_emul_ax` keeps the same facts in a counter, a flag, a cached deadline and a list.
`Agrees` says that the four match, and `Represents` that the list and the history of the run form
a `DeadlineQueue` of capacity `max(0, max_inflights)`.  Other threads may write the shared memory
at any time.
-/

open Relation Transition

namespace XMPGym

variable {p : AxParams} {s s' : EmulSys}

/-- The abstract queue: entries are due at their completion time. -/
abbrev EmulQueue (p : AxParams) :=
  DeadlineQueue OffloadEntry OffloadEntry.compTime p.maxInflights.toNat

/-- The abstract queue `q` is the list of the thread with the history of its run. -/
structure Represents (q : EmulQueue p) (s : EmulSys) : Prop where
  accepted : q.accepted = acceptedIn s.history
  completed : q.served = completedIn s.history
  list : q.waiting = s.frame.offloadInFlightList

/-- The counter, the flag and the cached deadline agree with the list. -/
structure Agrees (f : EmulFrame) : Prop where
  inFlight : f.inFlight = f.offloadInFlightList.length
  flag : f.offloadInFlight = true ↔ f.offloadInFlightList ≠ []
  deadline : ∀ e, f.offloadInFlightList.head? = some e → f.nextOffloadCompletionTime = e.compTime

/-- What the thread knows at each position inside an iteration. -/
def PcOk (p : AxParams) (clock : ℕ) (f : EmulFrame) : Prop :=
  match f.pc with
  | .time => f.offloadInFlightList ≠ []
  | .complete t => f.offloadInFlightList ≠ [] ∧ f.nextOffloadCompletionTime ≤ t
  | .acceptStatus t | .loadAddr t | .acceptRelease t _ | .push t _ =>
      f.offloadInFlightList.length < p.maxInflights.toNat ∧ t ≤ clock ∧
        t + p.offloadTime < 2 ^ 64 ∧ ∀ e ∈ f.offloadInFlightList, e.startTime ≤ t
  | .undefined => False
  | _ => True

/-- The invariant of the emulated accelerator. -/
structure QueueInv (p : AxParams) (s : EmulSys) : Prop where
  agrees : Agrees s.frame
  queue : ∃ q : EmulQueue p, Represents q s
  stamped : ∀ e ∈ acceptedIn s.history,
    e.startTime ≤ s.clock ∧ e.compTime = e.startTime + p.offloadTime
  pcOk : PcOk p s.clock s.frame

theorem Represents.mem_accepted {q : EmulQueue p} (hq : Represents q s) {e : OffloadEntry}
    (he : e ∈ s.frame.offloadInFlightList) : e ∈ acceptedIn s.history := by
  rw [← hq.accepted, q.history, hq.list]
  exact List.mem_append_right _ he

/-! ## The four variables -/

/-- A step that leaves the four variables alone. -/
theorem Agrees.congr {f f' : EmulFrame} (h : Agrees f)
    (list : f'.offloadInFlightList = f.offloadInFlightList) (inFlight : f'.inFlight = f.inFlight)
    (flag : f'.offloadInFlight = f.offloadInFlight)
    (deadline : f'.nextOffloadCompletionTime = f.nextOffloadCompletionTime) : Agrees f' := by
  refine ⟨?_, ?_, ?_⟩
  · rw [inFlight, list, h.inFlight]
  · rw [flag, list, h.flag]
  · rw [deadline, list]
    exact h.deadline

theorem Agrees.completeFront {f : EmulFrame} (h : Agrees f) (hl : f.offloadInFlightList ≠ [])
    (t : ℕ) (sh : Shared) : Agrees (completeFront p t f sh).1 := by
  obtain ⟨e, rest, hl⟩ := List.exists_cons_of_ne_nil hl
  have hn := h.inFlight
  rw [hl, List.length_cons] at hn
  refine ⟨?_, ?_, ?_⟩
  · simp only [XMPGym.completeFront, hl]
    omega
  · cases rest <;> simp [XMPGym.completeFront, hl]
  · cases rest <;> simp [XMPGym.completeFront, hl]

theorem Agrees.pushEntry {f : EmulFrame} (h : Agrees f) (t c : ℕ) :
    Agrees (pushEntry p t c f) := by
  refine ⟨?_, ?_, fun e he => ?_⟩
  · simp [XMPGym.pushEntry, h.inFlight]
  · simp [XMPGym.pushEntry]
  · -- the cached deadline changes only when the list was empty
    cases hl : f.offloadInFlightList with
    | nil =>
        simp only [XMPGym.pushEntry, hl, List.nil_append, List.head?_cons,
          Option.some.injEq] at he
        simp [XMPGym.pushEntry, hl, he]
    | cons e' rest =>
        simp only [XMPGym.pushEntry, hl, List.cons_append, List.head?_cons,
          Option.some.injEq] at he
        simp [XMPGym.pushEntry, hl, ← he, h.deadline e' (by rw [hl]; rfl)]

/-- A step of the thread; `front()` is called on a list that is not empty. -/
theorem Agrees.emul (h : Agrees s.frame)
    (hl : ∀ t, s.frame.pc = .complete t → s.frame.offloadInFlightList ≠ []) :
    Agrees (s.emul p).frame := by
  cases hpc : s.frame.pc with
  | complete t =>
      simpa [EmulSys.emul, nonblockingEmulAx, hpc] using h.completeFront (hl t hpc) t s.shared
  | push t c => simpa [EmulSys.emul, nonblockingEmulAx, hpc] using h.pushEntry t c
  | top =>
      cases hr : s.shared.axRunning <;>
        exact h.congr (by simp [EmulSys.emul, nonblockingEmulAx, hpc, hr])
          (by simp [EmulSys.emul, nonblockingEmulAx, hpc, hr])
          (by simp [EmulSys.emul, nonblockingEmulAx, hpc, hr])
          (by simp [EmulSys.emul, nonblockingEmulAx, hpc, hr])
  | _ =>
      exact h.congr (by simp [EmulSys.emul, nonblockingEmulAx, hpc])
        (by simp [EmulSys.emul, nonblockingEmulAx, hpc])
        (by simp [EmulSys.emul, nonblockingEmulAx, hpc])
        (by simp [EmulSys.emul, nonblockingEmulAx, hpc])

/-! ## The invariant -/

/-- A step that leaves the four variables and the history of entries alone only has to establish
what the thread knows at its new position. -/
theorem QueueInv.move (h : QueueInv p s)
    (list : s'.frame.offloadInFlightList = s.frame.offloadInFlightList)
    (inFlight : s'.frame.inFlight = s.frame.inFlight)
    (flag : s'.frame.offloadInFlight = s.frame.offloadInFlight)
    (deadline : s'.frame.nextOffloadCompletionTime = s.frame.nextOffloadCompletionTime)
    (acc : acceptedIn s'.history = acceptedIn s.history)
    (comp : completedIn s'.history = completedIn s.history) (clock : s.clock ≤ s'.clock)
    (pcOk : PcOk p s'.clock s'.frame) : QueueInv p s' := by
  obtain ⟨q, hq⟩ := h.queue
  refine ⟨h.agrees.congr list inFlight flag deadline, ⟨q, ⟨?_, ?_, ?_⟩⟩, ?_, pcOk⟩
  · rw [acc, hq.accepted]
  · rw [comp, hq.completed]
  · rw [list, hq.list]
  · rw [acc]
    exact fun e he => ⟨(h.stamped e he).1.trans clock, (h.stamped e he).2⟩

theorem PcOk.mono {clock clock' : ℕ} (hc : clock ≤ clock') {f : EmulFrame}
    (h : PcOk p clock f) : PcOk p clock' f := by
  unfold PcOk at h ⊢
  split at h <;> first | exact h | exact ⟨h.1, h.2.1.trans hc, h.2.2⟩

/-- The front entry is completed: the abstract queue serves its head. -/
theorem QueueInv.complete (h : QueueInv p s) {t : ℕ} (hpc : s.frame.pc = .complete t) :
    QueueInv p (s.emul p) := by
  obtain ⟨q, hq⟩ := h.queue
  have hk := h.pcOk
  simp only [PcOk, hpc] at hk
  obtain ⟨e, rest, hl⟩ := List.exists_cons_of_ne_nil hk.1
  have hdue : e.compTime ≤ t := by
    rw [← h.agrees.deadline e (by rw [hl]; rfl)]
    exact hk.2
  have hframe : (s.emul p).frame = (completeFront p t s.frame s.shared).1 := by
    simp [EmulSys.emul, nonblockingEmulAx, hpc]
  have hhist : (s.emul p).history = s.history ++ [.completed e t] := by
    simp [EmulSys.emul, emulEvent, hpc, hl]
  refine ⟨?_, ⟨q.serve e rest (hq.list.trans hl) t hdue, ⟨?_, ?_, ?_⟩⟩, ?_, ?_⟩
  · rw [hframe]
    exact h.agrees.completeFront hk.1 t s.shared
  · rw [hhist]
    simp [hq.accepted]
  · rw [hhist]
    simp [hq.completed]
  · rw [hframe]
    simp [completeFront, hl]
  · rw [hhist, acceptedIn_append, acceptedIn_completed, List.append_nil]
    exact h.stamped
  · rw [hframe]
    simp [PcOk, completeFront, hl]

/-- An entry is appended: the abstract queue accepts it. -/
theorem QueueInv.push (h : QueueInv p s) {t c : ℕ} (hpc : s.frame.pc = .push t c) :
    QueueInv p (s.emul p) := by
  obtain ⟨q, hq⟩ := h.queue
  have hk := h.pcOk
  simp only [PcOk, hpc] at hk
  obtain ⟨hroom, hclock, hbound, hstart⟩ := hk
  have hdue : (newEntry p t c).compTime = t + p.offloadTime := Nat.mod_eq_of_lt hbound
  have hlast : ∀ e ∈ q.waiting, e.compTime ≤ (newEntry p t c).compTime := by
    intro e he
    rw [hq.list] at he
    have := h.stamped e (hq.mem_accepted he)
    have := hstart e he
    omega
  have hframe : (s.emul p).frame = pushEntry p t c s.frame := by
    simp [EmulSys.emul, nonblockingEmulAx, hpc]
  have hhist : (s.emul p).history = s.history ++ [.accepted (newEntry p t c)] := by
    simp [EmulSys.emul, emulEvent, hpc]
  refine ⟨?_, ⟨q.accept (newEntry p t c) (by rwa [hq.list]) hlast, ⟨?_, ?_, ?_⟩⟩, ?_, ?_⟩
  · rw [hframe]
    exact h.agrees.pushEntry t c
  · rw [hhist]
    simp [hq.accepted]
  · rw [hhist]
    simp [hq.completed]
  · rw [hframe]
    simp [pushEntry, hq.list]
  · rw [hhist, acceptedIn_append]
    intro e he
    rcases List.mem_append.1 he with he | he
    · exact h.stamped e he
    · obtain rfl : e = newEntry p t c := by simpa using he
      exact ⟨hclock, hdue⟩
  · rw [hframe]
    simp [PcOk, pushEntry]

/-- One step of the thread keeps the invariant. -/
theorem QueueInv.emul (h : QueueInv p s) (hb : s.clock + p.offloadTime < 2 ^ 64) :
    QueueInv p (s.emul p) := by
  cases hpc : s.frame.pc with
  | complete t => exact h.complete hpc
  | push t c => exact h.push hpc
  | undefined => exact absurd h.pcOk (by simp [PcOk, hpc])
  | top =>
      cases hrun : s.shared.axRunning <;> apply h.move <;>
        simp [EmulSys.emul, nonblockingEmulAx, emulEvent, hpc, hrun]
      · trivial
      · -- a set flag means that there is an entry whose deadline can be tested
        split_ifs with hf
        · exact h.agrees.flag.1 hf
        · trivial
  | time =>
      have hk := h.pcOk
      simp only [PcOk, hpc] at hk
      apply h.move <;> simp [EmulSys.emul, nonblockingEmulAx, emulEvent, hpc]
      split_ifs with hd
      · exact ⟨hk, hd⟩
      · trivial
  | poll =>
      apply h.move <;> simp [EmulSys.emul, nonblockingEmulAx, emulEvent, hpc]
      split_ifs <;> trivial
  | stamp =>
      apply h.move <;> simp [EmulSys.emul, nonblockingEmulAx, emulEvent, hpc]
      split_ifs with hroom
      · obtain ⟨q, hq⟩ := h.queue
        refine ⟨?_, le_rfl, hb, fun e he => (h.stamped e (hq.mem_accepted he)).1⟩
        have := h.agrees.inFlight
        dsimp only
        omega
      · trivial
  | acceptStatus t | loadAddr t | acceptRelease t c =>
      have hk := h.pcOk
      simp only [PcOk, hpc] at hk
      apply h.move <;> simp [EmulSys.emul, nonblockingEmulAx, emulEvent, hpc]
      exact hk
  | resetTotal | release | count | rejectStatus | rejectRelease | exited =>
      apply h.move <;>
        simp [EmulSys.emul, nonblockingEmulAx, emulEvent, hpc, PcOk]

/-- Steps at whose end a start time plus the offload time still fits 64 bits. -/
def BoundedStep (p : AxParams) (s s' : EmulSys) : Prop :=
  EmulSys.Step p s s' ∧ s'.clock + p.offloadTime < 2 ^ 64

/-- The state in which the new thread starts. -/
structure EmulSys.Started (p : AxParams) (s : EmulSys) : Prop where
  frame : s.frame = EmulFrame.init
  history : s.history = []
  bound : s.clock + p.offloadTime < 2 ^ 64

theorem EmulSys.Started.queueInv (h : s.Started p) : QueueInv p s := by
  obtain ⟨hf, hh, -⟩ := h
  refine ⟨⟨?_, ?_, ?_⟩, ⟨.ofList [] (by simp) (by simp), ⟨?_, ?_, ?_⟩⟩, ?_, ?_⟩ <;>
    simp [hf, hh, EmulFrame.init, completedIn, DeadlineQueue.ofList, PcOk]

theorem preserved_queueInv :
    Preserved (BoundedStep p) fun s => s.clock + p.offloadTime < 2 ^ 64 ∧ QueueInv p s := by
  rintro s s' ⟨hs, hb'⟩ ⟨hb, h⟩
  refine ⟨hb', ?_⟩
  cases hs with
  | emul => exact h.emul hb
  | tick t ht => exact h.move rfl rfl rfl rfl rfl rfl ht (h.pcOk.mono ht)
  | env sh => exact h.move rfl rfl rfl rfl rfl rfl le_rfl h.pcOk

/-- The number of accepted entries that are not completed. -/
def uncompleted (s : EmulSys) : ℕ := (acceptedIn s.history).length - (completedIn s.history).length

theorem QueueInv.uncompleted_eq (h : QueueInv p s) :
    uncompleted s = s.frame.offloadInFlightList.length := by
  obtain ⟨q, hq⟩ := h.queue
  rw [uncompleted, ← hq.accepted, ← hq.completed, ← q.length_waiting, hq.list]

/-- No entry is completed before its time. -/
theorem QueueInv.onTime (h : QueueInv p s) {e : OffloadEntry} {t : ℕ}
    (he : (e, t) ∈ completedIn s.history) : e.startTime + p.offloadTime ≤ t := by
  obtain ⟨q, hq⟩ := h.queue
  have hacc : e ∈ acceptedIn s.history := by
    rw [← hq.accepted]
    apply q.served_prefix.subset
    rw [hq.completed]
    exact List.mem_map_of_mem (f := Prod.fst) he
  rw [← (h.stamped e hacc).2]
  exact q.onTime (e, t) (by rwa [hq.completed])

/-! ## Answers to submissions -/

/-- The clock and the other threads have moved, and the thread has not. -/
structure EmulSys.Others (p : AxParams) (s s' : EmulSys) : Prop where
  frame : s'.frame = s.frame
  history : s'.history = s.history
  clock : s.clock ≤ s'.clock
  bound : s'.clock + p.offloadTime < 2 ^ 64

/-- The thread has seen a request and rejects it: its third step from here stores `SUBMIT_FAIL`, its
fourth one releases the flag, and the list stays as it is, whatever the others do in between. -/
def EmulSys.Rejects (p : AxParams) (s : EmulSys) : Prop :=
  ∀ s₁ s₂ s₃, (s.emul p).Others p s₁ → (s₁.emul p).Others p s₂ → (s₂.emul p).Others p s₃ →
    (s₂.emul p).shared.submitStatus = submitFail ∧
    (s₃.emul p).shared.submitFlag = offloadReceived ∧
    (s₃.emul p).frame.offloadInFlightList = s.frame.offloadInFlightList

/-- The thread has seen a request and accepts it: its third step from here stores `SUBMIT_SUCCESS`,
its fourth one reads the record, its fifth one releases the flag and its sixth one appends the
entry, whatever the others do in between. -/
def EmulSys.Accepts (p : AxParams) (s : EmulSys) : Prop :=
  ∀ s₁ s₂ s₃ s₄ s₅, (s.emul p).Others p s₁ → (s₁.emul p).Others p s₂ →
    (s₂.emul p).Others p s₃ → (s₃.emul p).Others p s₄ → (s₄.emul p).Others p s₅ →
    (s₂.emul p).shared.submitStatus = submitSuccess ∧
    (s₄.emul p).shared.submitFlag = offloadReceived ∧
    (s₅.emul p).frame.offloadInFlightList = s.frame.offloadInFlightList ++
      [⟨s₁.clock, s₁.clock + p.offloadTime, s₃.shared.complAddr⟩]

theorem EmulSys.Others.refl (h : s.clock + p.offloadTime < 2 ^ 64) : s.Others p s :=
  ⟨rfl, rfl, Nat.le_refl _, h⟩

/-- The test of `in_flight` is a test of the capacity. -/
theorem QueueInv.inFlight_lt_iff (h : QueueInv p s) :
    s.frame.inFlight < p.maxInflights ↔ (uncompleted s : ℤ) ≠ max 0 p.maxInflights := by
  obtain ⟨q, hq⟩ := h.queue
  have hcap := q.bounded
  rw [hq.list] at hcap
  rw [h.uncompleted_eq, h.agrees.inFlight]
  omega

section answers

variable {s₁ : EmulSys} (hpc : s.frame.pc = .poll) (hflag : s.shared.submitFlag = offloadRequested)
  (h₁ : (s.emul p).Others p s₁)
include hpc hflag h₁

/-- After the test of the flag comes that of `in_flight`. -/
theorem frame_emul_of_requested : (s₁.emul p).frame = { s.frame with
    pc := if s.frame.inFlight < p.maxInflights then .acceptStatus s₁.clock
      else .rejectStatus } := by
  have hframe : s₁.frame = { s.frame with pc := .stamp } := by
    rw [h₁.frame]
    simp [EmulSys.emul, nonblockingEmulAx, hpc, hflag]
  simp [EmulSys.emul, nonblockingEmulAx, hframe]

end answers

theorem EmulSys.rejects_of_full (hpc : s.frame.pc = .poll)
    (hflag : s.shared.submitFlag = offloadRequested)
    (hfull : ¬ s.frame.inFlight < p.maxInflights) : s.Rejects p := by
  intro s₁ s₂ s₃ h₁ h₂ h₃
  have hframe₂ := frame_emul_of_requested hpc hflag h₁
  rw [if_neg hfull, ← h₂.frame] at hframe₂
  have hframe₃ : s₃.frame = { s.frame with pc := .rejectRelease } := by
    rw [h₃.frame]
    simp [emul, nonblockingEmulAx, hframe₂]
  refine ⟨?_, ?_, ?_⟩
  · simp [emul, nonblockingEmulAx, hframe₂]
  · simp [emul, nonblockingEmulAx, hframe₃]
  · simp [emul, nonblockingEmulAx, hframe₃]

theorem EmulSys.accepts_of_room (hpc : s.frame.pc = .poll)
    (hflag : s.shared.submitFlag = offloadRequested)
    (hroom : s.frame.inFlight < p.maxInflights) : s.Accepts p := by
  intro s₁ s₂ s₃ s₄ s₅ h₁ h₂ h₃ h₄ h₅
  have hframe₂ := frame_emul_of_requested hpc hflag h₁
  rw [if_pos hroom, ← h₂.frame] at hframe₂
  have hframe₃ : s₃.frame = { s.frame with pc := .loadAddr s₁.clock } := by
    rw [h₃.frame]
    simp [emul, nonblockingEmulAx, hframe₂]
  have hframe₄ : s₄.frame =
      { s.frame with pc := .acceptRelease s₁.clock s₃.shared.complAddr } := by
    rw [h₄.frame]
    simp [emul, nonblockingEmulAx, hframe₃]
  have hframe₅ : s₅.frame = { s.frame with pc := .push s₁.clock s₃.shared.complAddr } := by
    rw [h₅.frame]
    simp [emul, nonblockingEmulAx, hframe₄]
  refine ⟨?_, ?_, ?_⟩
  · simp [emul, nonblockingEmulAx, hframe₂]
  · simp [emul, nonblockingEmulAx, hframe₄]
  · simpa [emul, nonblockingEmulAx, hframe₅, pushEntry, newEntry] using h₁.bound

/-- A request is not both accepted and rejected. -/
theorem EmulSys.Rejects.not_accepts (h : s.Rejects p) (hb : s.clock + p.offloadTime < 2 ^ 64) :
    ¬ s.Accepts p := by
  intro h'
  have hfail := (h _ _ _ (.refl hb) (.refl hb) (.refl hb)).1
  have hsucc := (h' _ _ _ _ _ (.refl hb) (.refl hb) (.refl hb) (.refl hb) (.refl hb)).1
  rw [hfail] at hsucc
  exact absurd hsucc (by decide)

/-- A request that the thread sees is rejected if the queue is full, and accepted otherwise. -/
theorem QueueInv.answers (h : QueueInv p s) (hb : s.clock + p.offloadTime < 2 ^ 64)
    (hpc : s.frame.pc = .poll) (hflag : s.shared.submitFlag = offloadRequested) :
    (s.Rejects p ↔ (uncompleted s : ℤ) = max 0 p.maxInflights) ∧
      (s.Accepts p ↔ (uncompleted s : ℤ) ≠ max 0 p.maxInflights) := by
  rw [← h.inFlight_lt_iff, ← not_iff_not (b := (uncompleted s : ℤ) = _),
    ← ne_eq (uncompleted s : ℤ),
    ← h.inFlight_lt_iff]
  by_cases hroom : s.frame.inFlight < p.maxInflights
  · have hacc := EmulSys.accepts_of_room hpc hflag hroom
    exact ⟨iff_of_true (fun hrej => hrej.not_accepts hb hacc) hroom, iff_of_true hacc hroom⟩
  · have hrej := EmulSys.rejects_of_full hpc hflag hroom
    exact ⟨iff_of_false (not_not.2 hrej) hroom, iff_of_false (hrej.not_accepts hb) hroom⟩

/-- The queue of `nonblocking_emul_ax`: between iterations the four variables agree, the list is
sorted and bounded.  The entries that were accepted and not completed are those of the list, so they
are completed in the order of acceptance and at most once; none is early, and the record of each is
written when it is completed, and at no other time.  A request that the thread sees is answered by
`SUBMIT_FAIL` exactly when the queue is full, and by `SUBMIT_SUCCESS` and an entry otherwise. -/
theorem nonblockingEmulAx_queue (p : AxParams) {s₀ s : EmulSys} (h₀ : s₀.Started p)
    (hr : ReflTransGen (BoundedStep p) s₀ s) :
    (s.frame.pc = .top →
      s.frame.inFlight = s.frame.offloadInFlightList.length ∧
      s.frame.inFlight ≤ max 0 p.maxInflights ∧
      (s.frame.offloadInFlight = true ↔ s.frame.offloadInFlightList ≠ []) ∧
      (∀ e, s.frame.offloadInFlightList.head? = some e →
        s.frame.nextOffloadCompletionTime = e.compTime) ∧
      s.frame.offloadInFlightList.Pairwise fun e e' => e.compTime ≤ e'.compTime) ∧
    acceptedIn s.history = (completedIn s.history).map Prod.fst ++ s.frame.offloadInFlightList ∧
    (∀ e t, (e, t) ∈ completedIn s.history → e.startTime + p.offloadTime ≤ t) ∧
    ((∃ e t, s.Completes p e t) ∨ s.CompletesNone p) ∧
    (s.frame.pc = .poll → s.shared.submitFlag = offloadRequested →
      (s.Rejects p ↔ (uncompleted s : ℤ) = max 0 p.maxInflights) ∧
      (s.Accepts p ↔ (uncompleted s : ℤ) ≠ max 0 p.maxInflights)) ∧
    s.frame.pc ≠ .undefined := by
  obtain ⟨hb, h⟩ := preserved_queueInv.run hr ⟨h₀.bound, h₀.queueInv⟩
  obtain ⟨q, hq⟩ := h.queue
  refine ⟨fun _ => ⟨h.agrees.inFlight, ?_, h.agrees.flag, h.agrees.deadline, ?_⟩, ?_,
    fun e t he => h.onTime he, s.completes_or_none p, h.answers hb, ?_⟩
  · have hcap := q.bounded
    rw [hq.list] at hcap
    rw [h.agrees.inFlight]
    omega
  · rw [← hq.list]
    exact q.sorted
  · rw [← hq.accepted, ← hq.completed, ← hq.list]
    exact q.history
  · intro hpc
    have := h.pcOk
    simp [PcOk, hpc] at this

/-! ## A run of the thread alone -/

theorem emul_run (s : EmulSys) (h : s.clock + p.offloadTime < 2 ^ 64) (n : ℕ) :
    ReflTransGen (BoundedStep p) s ((EmulSys.emul p)^[n] s) := by
  induction n generalizing s with
  | zero => exact .refl
  | succ n ih => exact .head (b := s.emul p) ⟨.emul _, h⟩ (ih _ h)

/-- A thread that starts at a clock reading of 3. -/
def startedSys : EmulSys := ⟨.init, { Shared.zero with axRunning := true }, 3, []⟩

/-- A request for the record `comp`. -/
def EmulSys.requested (s : EmulSys) (comp : ℕ) : EmulSys :=
  { s with
    shared := { s.shared with submitFlag := offloadRequested, complAddr := comp } }

/-- The thread polls, and there is a request for record 7. -/
def requestedSys : EmulSys := ((EmulSys.emul oneSlot)^[2] startedSys).requested 7

/-- It has been accepted, and there is one for record 8. -/
def fullSys : EmulSys := ((EmulSys.emul oneSlot)^[8] requestedSys).requested 8

/-- It has been rejected, and the time of the first one is up. -/
def dueSys : EmulSys := { (EmulSys.emul oneSlot)^[6] fullSys with clock := 8 }

theorem requestedSys_run : ReflTransGen (BoundedStep oneSlot) startedSys requestedSys :=
  (emul_run _ (by decide) 2).tail ⟨.env _ _, by decide⟩

theorem fullSys_run : ReflTransGen (BoundedStep oneSlot) startedSys fullSys :=
  (requestedSys_run.trans (emul_run _ (by decide) 8)).tail ⟨.env _ _, by decide⟩

theorem dueSys_run : ReflTransGen (BoundedStep oneSlot) startedSys dueSys :=
  (fullSys_run.trans (emul_run _ (by decide) 6)).tail ⟨.tick _ 8 (by decide), by decide⟩

/-- One request is accepted and completed, another one is rejected in the meantime. -/
theorem nonblockingEmulAx_queue_two :
    ∃ s, ReflTransGen (BoundedStep oneSlot) startedSys s ∧
      s.history = [.accepted ⟨3, 8, 7⟩, .rejected, .completed ⟨3, 8, 7⟩ 8] ∧
      s.shared.comps 7 = compStatusCompleted ∧ s.shared.submitStatus = submitFail ∧
      acceptedIn s.history =
        (completedIn s.history).map Prod.fst ++ s.frame.offloadInFlightList ∧
      ∀ e t, (e, t) ∈ completedIn s.history → e.startTime + 5 ≤ t := by
  have hr := dueSys_run.trans (emul_run (p := oneSlot) dueSys (by decide) 4)
  have h := nonblockingEmulAx_queue oneSlot ⟨rfl, rfl, by decide⟩ hr
  exact ⟨_, hr, by decide, by decide, by decide, h.2.1, h.2.2.1⟩

end XMPGym
