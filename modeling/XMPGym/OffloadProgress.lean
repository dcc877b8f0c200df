import XMPGym.EmulLatency
import XMPGym.Lib.FairRun
import XMPGym.StartUp

/-!
# Progress of submissions

`submit_offload` waits without a limit for the accelerator to release `submit_flag`, and a request
waits for its completion record.  In a fair run of the submitter and the accelerator both waits come
to an end, from the moment at which `start_non_blocking_ax` has returned; the time-stamp counter is
taken not to wrap.
-/

open Relation Transition

namespace XMPGym

variable {p : AxParams} {s t : OffloadSys}

/-- The two threads. -/
inductive Party where
  | accelerator
  | submitter
  deriving DecidableEq, Repr

namespace OffloadSys

/-- The next step of a thread, if it has one. -/
def act (p : AxParams) : Party → OffloadSys → Option OffloadSys
  | .accelerator, s => some (s.emul p)
  | .submitter, s =>
      match s.client with
      | none => none
      | some f =>
          match f.pc with
          | .returned r => some { s with client := none, returned := s.returned ++ [(f.comp, r)] }
          | _ => some (s.submit f)

/-- The two threads, around which time goes by and calls are begun. -/
def processes (p : AxParams) : Processes Party OffloadSys where
  act := act p
  env s t :=
    (∃ c, s.ax.clock ≤ c ∧ c + p.offloadTime < 2 ^ 64 ∧
        t = { s with ax := { s.ax with clock := c } }) ∨
      ∃ comp dst, s.client = none ∧ t = { s with client := some (.init comp dst) }

/-- The submitter makes a step of its call, or ends it. -/
theorem act_submitter (h : (processes p).act .submitter s = some t) : ∃ f, s.client = some f ∧
    ((∀ r, f.pc ≠ .returned r) ∧ t = s.submit f ∨
      ∃ r, f.pc = .returned r ∧
        t = { s with client := none, returned := s.returned ++ [(f.comp, r)] }) := by
  simp only [processes, act] at h
  split at h
  · cases h
  · next f hf =>
      refine ⟨f, hf, ?_⟩
      split at h
      · next r hr => exact .inr ⟨r, hr, (Option.some.inj h).symm⟩
      · next hr => exact .inl ⟨hr, (Option.some.inj h).symm⟩

theorem act_submitter_none (h : s.client = none) : (processes p).act .submitter s = none := by
  simp [processes, act, h]

theorem step_of_processes (h : (processes p).Step s t) : OffloadSys.Step p s t := by
  cases h with
  | act i h =>
      cases i with
      | accelerator =>
          obtain rfl := Option.some.inj h
          exact .emul s
      | submitter =>
          obtain ⟨f, hf, ⟨-, rfl⟩ | ⟨r, hr, rfl⟩⟩ := act_submitter h
          · exact .submit s f hf
          · exact .ret s f r hf hr
  | env h =>
      rcases h with ⟨c, hc, -, rfl⟩ | ⟨comp, dst, hc, rfl⟩
      · exact .tick s c hc
      · exact .call s comp dst hc

end OffloadSys

/-! ## The accelerator stays in its loop -/

/-- The accelerator has not left its loop and is not going to. -/
structure Alive (p : AxParams) (s : OffloadSys) : Prop where
  running : s.ax.shared.axRunning = true
  pc : s.ax.frame.pc ≠ .exited
  clock : s.ax.clock + p.offloadTime < 2 ^ 64
  queue : QueueInv p s.ax

theorem alive_started (sh : Shared) {clock : ℕ} (h : clock + p.offloadTime < 2 ^ 64) :
    Alive p (.started sh clock) where
  running := rfl
  pc := by simp [OffloadSys.started, startNonBlockingAx, EmulFrame.init]
  clock := h
  queue := EmulSys.Started.queueInv ⟨rfl, rfl, h⟩

/-- The accelerator leaves its loop only when it is told to. -/
theorem Alive.emul (h : Alive p s) : Alive p (s.emul p) := by
  have hpc := h.pc
  refine ⟨?_, ?_, h.clock, h.queue.emul h.clock⟩
  · rw [← h.running]
    cases hx : s.ax.frame.pc with
    | complete c =>
        cases hl : s.ax.frame.offloadInFlightList <;>
          simp [OffloadSys.emul, EmulSys.emul, nonblockingEmulAx, completeFront, hx, hl]
    | resetTotal | count =>
        simp only [OffloadSys.emul, EmulSys.emul, nonblockingEmulAx, hx]
        split_ifs <;> rfl
    | top => simp [OffloadSys.emul, EmulSys.emul, nonblockingEmulAx, hx, h.running]
    | _ => simp [OffloadSys.emul, EmulSys.emul, nonblockingEmulAx, hx]
  · cases hx : s.ax.frame.pc with
    | exited => exact absurd hx hpc
    | complete c =>
        cases hl : s.ax.frame.offloadInFlightList <;>
          simp [OffloadSys.emul, EmulSys.emul, nonblockingEmulAx, completeFront, hx, hl]
    | top | time | poll | stamp =>
        simp only [OffloadSys.emul, EmulSys.emul, nonblockingEmulAx, hx, h.running]
        split_ifs <;> simp
    | push c c' => simp [OffloadSys.emul, EmulSys.emul, nonblockingEmulAx, hx, pushEntry]
    | _ => simp [OffloadSys.emul, EmulSys.emul, nonblockingEmulAx, hx]

/-- Neither thread clears `*ax_running`. -/
theorem submitOffload_axRunning (f : SubmitFrame) (sh : Shared) :
    (submitOffload f sh).2.axRunning = sh.axRunning := by
  unfold submitOffload
  split <;> (try split_ifs) <;> rfl

theorem preserved_alive : Preserved (OffloadSys.processes p).Step (Alive p) := by
  intro s t hs h
  obtain ⟨hrun, hpc, hb, hq⟩ := h
  cases hs with
  | act i ht =>
      cases i with
      | accelerator =>
          obtain rfl := Option.some.inj ht
          exact Alive.emul ⟨hrun, hpc, hb, hq⟩
      | submitter =>
          obtain ⟨f, hf, ⟨-, rfl⟩ | ⟨r, hr, rfl⟩⟩ := OffloadSys.act_submitter ht
          · exact ⟨(submitOffload_axRunning _ _).trans hrun, hpc, hb,
              hq.move rfl rfl rfl rfl rfl rfl le_rfl hq.pcOk⟩
          · exact ⟨hrun, hpc, hb, hq⟩
  | env ht =>
      rcases ht with ⟨c, hc, hb', rfl⟩ | ⟨comp, dst, hc, rfl⟩
      · exact ⟨hrun, hpc, hb', hq.move rfl rfl rfl rfl rfl rfl hc (hq.pcOk.mono hc)⟩
      · exact ⟨hrun, hpc, hb, hq⟩

/-! ## The answer -/

/-- The most steps that the accelerator makes before it releases `submit_flag`, when a request is
waiting. -/
def EmulPc.answer : EmulPc → ℕ
  | .release | .acceptRelease _ _ | .rejectRelease => 1
  | .resetTotal | .loadAddr _ | .rejectStatus => 2
  | .acceptStatus _ => 3
  | .stamp => 4
  | .poll => 5
  | .complete _ => 6
  | .time => 7
  | .top => 8
  | .count => 9
  | .push _ _ => 10
  | .undefined | .exited => 0

/-- The submitter waits for the answer. -/
def Waits (s : OffloadSys) : Prop :=
  ∃ f, s.client = some f ∧ f.pc = .wait ∧ s.ax.shared.submitFlag = offloadRequested

/-- The accelerator releases the flag, or it gets nearer to that. -/
theorem Alive.emul_answer (h : Alive p s) (hflag : s.ax.shared.submitFlag = offloadRequested) :
    (s.emul p).ax.shared.submitFlag ≠ offloadRequested ∨
      (s.emul p).ax.frame.pc.answer < s.ax.frame.pc.answer := by
  have hne : offloadReceived ≠ offloadRequested := by decide
  have hk := h.queue.pcOk
  cases hx : s.ax.frame.pc with
  | undefined => simp [PcOk, hx] at hk
  | exited => exact absurd hx h.pc
  | release | acceptRelease c c' | rejectRelease =>
      exact .inl (by simp [OffloadSys.emul, EmulSys.emul, nonblockingEmulAx, hx, hne])
  | complete c =>
      simp only [PcOk, hx] at hk
      obtain ⟨e, rest, hl⟩ := List.exists_cons_of_ne_nil hk.1
      exact .inr (by simp [OffloadSys.emul, EmulSys.emul, nonblockingEmulAx, completeFront, hx, hl,
        EmulPc.answer])
  | push c c' =>
      exact .inr (by simp [OffloadSys.emul, EmulSys.emul, nonblockingEmulAx, pushEntry, hx,
        EmulPc.answer])
  | top | time | stamp =>
      right
      simp only [OffloadSys.emul, EmulSys.emul, nonblockingEmulAx, hx, h.running]
      split_ifs <;> simp_all [EmulPc.answer]
  | poll => exact .inr (by simp [OffloadSys.emul, EmulSys.emul, nonblockingEmulAx, hx, hflag,
      EmulPc.answer])
  | resetTotal | acceptStatus c | loadAddr c | count | rejectStatus =>
      exact .inr (by simp [OffloadSys.emul, EmulSys.emul, nonblockingEmulAx, hx, EmulPc.answer])

/-- Only the submitter makes a request. -/
theorem emul_submitFlag (p : AxParams) (h : s.ax.shared.submitFlag ≠ offloadRequested) :
    (s.emul p).ax.shared.submitFlag ≠ offloadRequested := by
  have hne : offloadReceived ≠ offloadRequested := by decide
  cases hx : s.ax.frame.pc with
  | complete c =>
      cases hl : s.ax.frame.offloadInFlightList <;>
        simpa [OffloadSys.emul, EmulSys.emul, nonblockingEmulAx, completeFront, hx, hl] using h
  | resetTotal | count | top =>
      simp only [OffloadSys.emul, EmulSys.emul, nonblockingEmulAx, hx]
      split_ifs <;> exact h
  | release | acceptRelease c c' | rejectRelease =>
      simp [OffloadSys.emul, EmulSys.emul, nonblockingEmulAx, hx, hne]
  | _ => simpa [OffloadSys.emul, EmulSys.emul, nonblockingEmulAx, hx] using h

/-! ## The call -/

/-- The most steps that a call makes, not counting those in which it waits. -/
def SubmitFrame.left (f : SubmitFrame) : ℕ :=
  match f.pc with
  | .clear => 2 * f.retriesRemaining + 7
  | .storeAddr => 2 * f.retriesRemaining + 6
  | .request => 2 * f.retriesRemaining + 5
  | .storeDst => 2 * f.retriesRemaining + 4
  | .wait => 2 * f.retriesRemaining + 3
  | .check => 2 * f.retriesRemaining + 2
  | .returned _ => 1

/-- A step of a call: it waits, or there is less to do. -/
theorem submitOffload_left (f : SubmitFrame) (sh : Shared) (hpc : ∀ r, f.pc ≠ .returned r) :
    f.pc = .wait ∧ sh.submitFlag = offloadRequested ∧ submitOffload f sh = (f, sh) ∨
      (submitOffload f sh).1.left < f.left := by
  cases hx : f.pc with
  | wait =>
      by_cases hflag : sh.submitFlag = offloadRequested
      · refine .inl ⟨rfl, hflag, ?_⟩
        simp only [submitOffload, hx, hflag, if_true]
        cases f
        simp_all
      · exact .inr (by simp [submitOffload, SubmitFrame.left, hx, hflag])
  | check =>
      right
      simp only [submitOffload, hx]
      split_ifs with h₁ h₂
      · simp only [SubmitFrame.left, hx]
        omega
      · simp [SubmitFrame.left, hx]
      · simp [SubmitFrame.left, hx]
  | returned r => exact absurd hx (hpc r)
  | clear | storeAddr | request | storeDst =>
      exact .inr (by simp [submitOffload, SubmitFrame.left, hx])

/-- The call with record `comp` is in progress, after the calls `calls`. -/
def CallPending (calls : List (ℕ × ℤ)) (comp : ℕ) (s : OffloadSys) : Prop :=
  s.returned = calls ∧ ∃ f, s.client = some f ∧ f.comp = comp

/-- What is left of the call in progress. -/
def callLeft (s : OffloadSys) : ℕ := s.client.elim 0 SubmitFrame.left

section fair

variable {r : FairRun (OffloadSys.processes p)}

/-- The submitter does not wait for ever. -/
theorem waits_leadsTo : r.LeadsTo (fun s => Alive p s ∧ Waits s) fun s => ¬ Waits s := by
  refine .of_descent .accelerator (fun s => s.ax.frame.pc.answer) (fun s t hs h => ?_)
    (fun s _ => Option.some_ne_none _) fun s t h hs => ?_
  · obtain ⟨hal, hwait⟩ := h
    by_cases hw : Waits t
    · refine .inr ⟨⟨preserved_alive hs hal, hw⟩, ?_⟩
      obtain ⟨f, hf, hpc, hflag⟩ := hwait
      cases hs with
      | act i ht =>
          cases i with
          | accelerator =>
              obtain rfl := Option.some.inj ht
              obtain ⟨-, -, -, hflag'⟩ := hw
              exact ((hal.emul_answer hflag).resolve_left fun h => h hflag').le
          | submitter =>
              obtain ⟨g, hg, ⟨-, rfl⟩ | ⟨c, hc, rfl⟩⟩ := OffloadSys.act_submitter ht
              · exact le_rfl
              · exact le_rfl
      | env ht =>
          rcases ht with ⟨c, -, -, rfl⟩ | ⟨comp, dst, hc, rfl⟩ <;> exact le_rfl
    · exact .inl hw
  · obtain rfl := Option.some.inj hs
    obtain ⟨hal, f, hf, hpc, hflag⟩ := h
    refine (hal.emul_answer hflag).imp_left fun hne => ?_
    rintro ⟨-, -, -, hflag'⟩
    exact hne hflag'

/-- A step of the submitter: the call ends, it waits, or there is less left of it. -/
theorem CallPending.submitter {calls : List (ℕ × ℤ)} {comp : ℕ} (h : CallPending calls comp s)
    (ht : (OffloadSys.processes p).act .submitter s = some t) :
    (∃ st, t.returned = calls ++ [(comp, st)]) ∨ CallPending calls comp t ∧
      (Waits s ∧ callLeft t = callLeft s ∨ callLeft t < callLeft s) := by
  obtain ⟨hret, f, hf, hcomp⟩ := h
  obtain ⟨g, hg, ⟨hpc, rfl⟩ | ⟨st, hst, rfl⟩⟩ := OffloadSys.act_submitter ht
  · obtain rfl : g = f := Option.some.inj (hg.symm.trans hf)
    refine .inr ⟨⟨hret, _, rfl, (submitOffload_comp _ _).trans hcomp⟩, ?_⟩
    simp only [callLeft, OffloadSys.submit, hg, Option.elim_some]
    rcases submitOffload_left g s.ax.shared hpc with ⟨hwait, hflag, heq⟩ | hlt
    · exact .inl ⟨⟨g, hg, hwait, hflag⟩, by rw [heq]⟩
    · exact .inr hlt
  · obtain rfl : g = f := Option.some.inj (hg.symm.trans hf)
    exact .inl ⟨st, by rw [hret, hcomp]⟩

/-- A step while a call is in progress: it ends, or there is no more left of it than before, and
only its own steps make it wait. -/
theorem CallPending.step {calls : List (ℕ × ℤ)} {comp : ℕ} (h : CallPending calls comp s)
    (hs : (OffloadSys.processes p).Step s t) :
    (∃ st, t.returned = calls ++ [(comp, st)]) ∨ CallPending calls comp t ∧
      (callLeft t < callLeft s ∨ callLeft t = callLeft s ∧ (¬ Waits s → ¬ Waits t)) := by
  cases hs with
  | act i ht =>
      cases i with
      | accelerator =>
          obtain rfl := Option.some.inj ht
          refine .inr ⟨h, .inr ⟨rfl, fun hnot => ?_⟩⟩
          rintro ⟨g, hg, hpc, hflag⟩
          exact emul_submitFlag p (fun hflag' => hnot ⟨g, hg, hpc, hflag'⟩) hflag
      | submitter =>
          refine (h.submitter ht).imp_right fun h' => ⟨h'.1, ?_⟩
          rcases h'.2 with ⟨hw, heq⟩ | hlt
          · exact .inr ⟨heq, fun hnot => absurd hw hnot⟩
          · exact .inl hlt
  | env ht =>
      rcases ht with ⟨c, -, -, rfl⟩ | ⟨comp', dst, hc, rfl⟩
      · exact .inr ⟨h, .inr ⟨rfl, id⟩⟩
      · obtain ⟨-, f, hf, -⟩ := h
        rw [hf] at hc
        cases hc

/-- A call comes to its end. -/
theorem inCall_leadsTo (calls : List (ℕ × ℤ)) (comp : ℕ) :
    r.LeadsTo (fun s => Alive p s ∧ CallPending calls comp s)
      fun s => ∃ st, s.returned = calls ++ [(comp, st)] := by
  refine .of_stalls .submitter callLeft (fun (_ : Unit) s => Waits s) (fun s t hs h => ?_)
    (fun s h hfree => ?_) fun _ => waits_leadsTo.mono (fun s h => ⟨h.1.1, h.2⟩) fun s h => .inr h
  · refine (h.2.step hs).imp_right fun h' => ⟨⟨preserved_alive hs h.1, h'.1⟩, ?_⟩
    refine h'.2.imp_right fun h' => ⟨h'.1, fun hfree _ => h'.2 (hfree ()), fun _ _ => ?_⟩
    by_cases hw : Waits t
    · exact .inl hw
    · exact .inr fun _ => hw
  · refine .inr ⟨?_, fun t ht => ?_⟩
    · obtain ⟨-, -, f, hf, -⟩ := h
      simp only [OffloadSys.processes, OffloadSys.act, hf]
      split <;> simp
    · refine (h.2.submitter ht).imp_right fun h' => ?_
      exact h'.2.resolve_left fun hw => hfree () hw.1

end fair

/-! ## The completion -/

/-- Histories are only added to, and the clock does not go back. -/
theorem OffloadSys.Step.grows (h : OffloadSys.Step p s t) :
    s.ax.history <+: t.ax.history ∧ s.ax.clock ≤ t.ax.clock ∧ recorded s <+: recorded t := by
  cases h with
  | emul =>
      refine ⟨List.prefix_append _ _, le_rfl, ?_⟩
      rw [recorded_emul]
      exact List.prefix_append _ _
  | tick c hc => exact ⟨List.prefix_rfl, hc, List.prefix_rfl⟩
  | call | submit | ret => exact ⟨List.prefix_rfl, le_rfl, List.prefix_rfl⟩

/-- The steps of the submitter and of time leave the accelerator where it is. -/
theorem OffloadSys.act_or_same (h : (OffloadSys.processes p).Step s t) :
    (OffloadSys.processes p).act .accelerator s = some t ∨
      t.ax.frame = s.ax.frame ∧ t.ax.history = s.ax.history := by
  cases h with
  | act i ht =>
      cases i with
      | accelerator => exact .inl ht
      | submitter =>
          obtain ⟨g, hg, ⟨-, rfl⟩ | ⟨c, hc, rfl⟩⟩ := OffloadSys.act_submitter ht
          · exact .inr ⟨rfl, rfl⟩
          · exact .inr ⟨rfl, rfl⟩
  | env ht =>
      rcases ht with ⟨c, -, -, rfl⟩ | ⟨comp, dst, hc, rfl⟩
      · exact .inr ⟨rfl, rfl⟩
      · exact .inr ⟨rfl, rfl⟩

section completion

variable {r : FairRun (OffloadSys.processes p)} {m : ℕ} {e : OffloadEntry}

/-- Histories are only added to in a run. -/
theorem OffloadSys.grows (r : FairRun (OffloadSys.processes p)) {n k : ℕ} (h : n ≤ k) :
    (r.state n).ax.history <+: (r.state k).ax.history ∧
      recorded (r.state n) <+: recorded (r.state k) := by
  refine r.always (I := fun s => (r.state n).ax.history <+: s.ax.history ∧
    recorded (r.state n) <+: recorded s) (fun s t hs ih => ?_)
    ⟨List.prefix_rfl, List.prefix_rfl⟩ k h
  have := (OffloadSys.step_of_processes hs).grows
  exact ⟨ih.1.trans this.1, ih.2.trans this.2.2⟩

/-- A record that has been taken is appended to the list. -/
theorem recorded_leadsTo : r.LeadsTo (fun s => Alive p s ∧ m < (recorded s).length)
    fun s => m < (acceptedIn s.ax.history).length := by
  have hemul : ∀ s, m < (recorded s).length →
      m < (acceptedIn (s.emul p).ax.history).length ∨
        (s.emul p).ax.frame.pc.left < s.ax.frame.pc.left := by
    intro s hm
    have hle : (acceptedIn s.ax.history).length ≤ (acceptedIn (s.emul p).ax.history).length := by
      simp [OffloadSys.emul, EmulSys.emul]
    simp only [recorded, List.length_append, List.length_map] at hm
    cases hx : s.ax.frame.pc with
    | acceptRelease c c' =>
        exact .inr (by simp [OffloadSys.emul, EmulSys.emul, nonblockingEmulAx, hx, EmulPc.left])
    | push c c' =>
        simp only [pushing, hx, List.length_singleton] at hm
        exact .inl (by simpa [OffloadSys.emul, EmulSys.emul, emulEvent, hx] using hm)
    | _ =>
        simp only [pushing, hx, List.length_nil, Nat.add_zero] at hm
        exact .inl (by omega)
  refine .of_descent .accelerator (fun s => s.ax.frame.pc.left) (fun s t hs h => ?_)
    (fun s _ => Option.some_ne_none _) fun s t h ht => ?_
  · have hal := preserved_alive hs h.1
    have hrec := (OffloadSys.step_of_processes hs).grows.2.2.length_le
    rcases OffloadSys.act_or_same hs with ht | ⟨hframe, -⟩
    · obtain rfl := Option.some.inj ht
      exact (hemul s h.2).imp_right fun hlt => ⟨⟨hal, by omega⟩, hlt.le⟩
    · exact .inr ⟨⟨hal, by omega⟩, by rw [hframe]⟩
  · obtain rfl := Option.some.inj ht
    exact hemul s h.2

/-- An entry whose deadline has passed is completed. -/
theorem due_leadsTo : r.LeadsTo
    (fun s => Alive p s ∧ (acceptedIn s.ax.history)[m]? = some e ∧ e.compTime ≤ s.ax.clock)
    fun s => m < (completedIn s.ax.history).length := by
  -- one entry more weighs as much as the longest way to a completion
  have hle (pc : EmulPc) : pc.left ≤ 10 := by cases pc <;> simp [EmulPc.left]
  have hemul : ∀ s, Alive p s ∧ (acceptedIn s.ax.history)[m]? = some e ∧
      e.compTime ≤ s.ax.clock → m < (completedIn (s.emul p).ax.history).length ∨
        11 * (m - (completedIn (s.emul p).ax.history).length) + (s.emul p).ax.frame.pc.left <
          11 * (m - (completedIn s.ax.history).length) + s.ax.frame.pc.left := by
    rintro s ⟨hal, he, hdue⟩
    have hgrow : (completedIn s.ax.history).length ≤
        (completedIn (s.emul p).ax.history).length := by
      simp [OffloadSys.emul, EmulSys.emul]
    by_cases hwaits : (completedIn s.ax.history).length ≤ m
    · have hpc := hle (s.emul p).ax.frame.pc
      rcases hal.queue.emul_left ⟨⟨e, he, hdue⟩, hwaits⟩ hal.running hal.pc with hone | ⟨heq, hlt⟩
      · have hone : (completedIn (s.emul p).ax.history).length =
            (completedIn s.ax.history).length + 1 := hone
        rcases Nat.lt_or_ge m ((completedIn s.ax.history).length + 1) with hm | hm
        · exact .inl (by omega)
        · exact .inr (by omega)
      · have heq : completedIn (s.emul p).ax.history = completedIn s.ax.history := heq
        have hlt : (s.emul p).ax.frame.pc.left < s.ax.frame.pc.left := hlt
        rw [heq]
        exact .inr (by omega)
    · exact .inl (by omega)
  refine .of_descent .accelerator
    (fun s => 11 * (m - (completedIn s.ax.history).length) + s.ax.frame.pc.left)
    (fun s t hs h => ?_) (fun s _ => Option.some_ne_none _) fun s t h ht => ?_
  · obtain ⟨hgrow, hclock, -⟩ := (OffloadSys.step_of_processes hs).grows
    have h' : Alive p t ∧ (acceptedIn t.ax.history)[m]? = some e ∧ e.compTime ≤ t.ax.clock :=
      ⟨preserved_alive hs h.1, acceptedIn_getElem?_of_grows hgrow h.2.1, h.2.2.trans hclock⟩
    rcases OffloadSys.act_or_same hs with ht | ⟨hframe, hhist⟩
    · obtain rfl := Option.some.inj ht
      exact (hemul s h).imp_right fun hlt => ⟨h', hlt.le⟩
    · exact .inr ⟨h', by rw [hframe, hhist]⟩
  · obtain rfl := Option.some.inj ht
    exact hemul s h

/-- What the accelerator has taken is completed, if time goes on. -/
theorem recorded_completed (hal : ∀ n, Alive p (r.state n))
    (htime : ∀ e, r.LeadsTo (fun s => e ∈ s.ax.frame.offloadInFlightList)
      fun s => e.compTime ≤ s.ax.clock)
    {n c : ℕ} (hm : (recorded (r.state n))[m]? = some c) :
    ∃ k, n ≤ k ∧ ∃ e t, (completedIn (r.state k).ax.history)[m]? = some (e, t) ∧ e.comp = c := by
  have hlt := (List.getElem?_eq_some_iff.1 hm).1
  obtain ⟨k₁, hk₁, hacc⟩ := recorded_leadsTo n ⟨hal n, hlt⟩
  obtain ⟨e, he⟩ : ∃ e, (acceptedIn (r.state k₁).ax.history)[m]? = some e :=
    ⟨_, List.getElem?_eq_getElem hacc⟩
  -- the entry has the record that was taken
  have hcomp : e.comp = c := by
    obtain ⟨l, hl⟩ := (OffloadSys.grows r hk₁).2
    have h₁ : (recorded (r.state k₁))[m]? = some c := by
      rw [← hl, List.getElem?_append_left hlt]
      exact hm
    rw [recorded, List.getElem?_append_left (by simpa using hacc), List.getElem?_map, he] at h₁
    exact Option.some.inj h₁
  obtain ⟨q, hq⟩ := (hal k₁).queue.queue
  -- the deadline passes, unless the entry has been completed before
  obtain ⟨k₂, hk₂, hdone⟩ : ∃ k₂, k₁ ≤ k₂ ∧ m < (completedIn (r.state k₂).ax.history).length := by
    by_cases hwaits : (completedIn (r.state k₁).ax.history).length ≤ m
    · have hmem : e ∈ (r.state k₁).ax.frame.offloadInFlightList := by
        rw [← hq.list]
        refine List.mem_of_getElem? (i := m - q.served.length) ?_
        rw [← q.getElem?_accepted (by rwa [hq.completed]), hq.accepted]
        exact he
      obtain ⟨k₂, hk₂, hdue⟩ := htime e k₁ hmem
      obtain ⟨k₃, hk₃, hdone⟩ := due_leadsTo k₂
        ⟨hal k₂, acceptedIn_getElem?_of_grows (OffloadSys.grows r hk₂).1 he, hdue⟩
      exact ⟨k₃, hk₂.trans hk₃, hdone⟩
    · exact ⟨k₁, le_rfl, by omega⟩
  obtain ⟨t, ht⟩ := (hal k₂).queue.completedIn_getElem?
    (acceptedIn_getElem?_of_grows (OffloadSys.grows r hk₂).1 he) hdone
  exact ⟨k₂, hk₁.trans hk₂, e, t, ht, hcomp⟩

end completion

/-! ## From the start of the accelerator -/

/-- The accelerator is in its loop in every state of a run from its start. -/
theorem alive_of_started {r : FairRun (OffloadSys.processes p)} {sh : Shared} {clock : ℕ}
    (h₀ : r.state 0 = .started sh clock) (hb : clock + p.offloadTime < 2 ^ 64) (n : ℕ) :
    Alive p (r.state n) :=
  r.always preserved_alive (h₀ ▸ alive_started sh hb) n (Nat.zero_le n)

/-- Whatever the shared memory holds when `start_non_blocking_ax` returns: in every fair run of the
submitter and the accelerator from then on in which the 64-bit clock does not wrap around, every
call of `submit_offload` returns, also one that is made before the first store of the accelerator,
and one that is rejected. -/
theorem submitOffload_returns (p : AxParams) (sh : Shared) (clock : ℕ)
    (hb : clock + p.offloadTime < 2 ^ 64) (r : FairRun (OffloadSys.processes p))
    (h₀ : r.state 0 = .started sh clock) (n : ℕ) (f : SubmitFrame)
    (hf : (r.state n).client = some f) :
    ∃ k, n ≤ k ∧ ∃ st, (r.state k).returned = (r.state n).returned ++ [(f.comp, st)] :=
  inCall_leadsTo (r.state n).returned f.comp n ⟨alive_of_started h₀ hb n, rfl, f, hf, rfl⟩

/-- What is completed in a run was completed by one of its steps, a step of the accelerator. -/
theorem exists_completes_step {r : FairRun (OffloadSys.processes p)}
    (h₀ : completedIn (r.state 0).ax.history = []) {k m t : ℕ} {e : OffloadEntry}
    (hm : (completedIn (r.state k).ax.history)[m]? = some (e, t)) :
    ∃ j, r.state (j + 1) = (r.state j).emul p ∧ (r.state j).ax.Completes p e t ∧
      (completedIn (r.state j).ax.history).length = m := by
  induction k with
  | zero => simp [h₀] at hm
  | succ k ih =>
      rcases r.step k with hs | hs
      · generalize hn : r.state (k + 1) = s' at hs hm
        cases OffloadSys.step_of_processes hs with
        | emul =>
            rcases EmulSys.completedIn_emul hm with h | ⟨hlen, hc⟩
            · exact ih h
            · exact ⟨k, hn, hc, hlen⟩
        | tick | call | submit | ret => exact ih hm
      · rw [hs] at hm
        exact ih hm

/-- In every fair run from the start of the accelerator in which time passes the deadline of every
entry and the first store of the accelerator does not wipe a request: the offload of every call that
has returned `STATUS_SUCCESS` is completed, in the order of the calls and not before its time, by a
step of the accelerator that writes the record of the call. -/
theorem submitOffload_completed (p : AxParams) (sh : Shared) (clock : ℕ)
    (hb : clock + p.offloadTime < 2 ^ 64) (r : FairRun (OffloadSys.processes p))
    (h₀ : r.state 0 = .started sh clock)
    (hsafe : ∀ n, ¬ (Wipes (r.state n) ∧ r.state (n + 1) = (r.state n).emul p))
    (htime : ∀ e, r.LeadsTo (fun s => e ∈ s.ax.frame.offloadInFlightList)
      fun s => e.compTime ≤ s.ax.clock)
    (n m c : ℕ) (hm : (successes (r.state n))[m]? = some c) :
    ∃ k e t, r.state (k + 1) = (r.state k).emul p ∧ (r.state k).ax.Completes p e t ∧
      (completedIn (r.state k).ax.history).length = m ∧ e.comp = c ∧
      e.startTime + p.offloadTime ≤ t ∧
      (r.state (k + 1)).ax.shared.comps c = compStatusCompleted := by
  have hal := alive_of_started h₀ hb
  -- no call is told that it was accepted when it was not
  have hacc : ∀ n, Booting (r.state n) ∨ Account [] (r.state n) := by
    intro n
    induction n with
    | zero => exact .inl (h₀ ▸ booting_started sh clock)
    | succ n ih =>
        rcases r.step n with hs | hs
        · exact preserved_safe ⟨OffloadSys.step_of_processes hs, hsafe n⟩ ih
        · rwa [hs]
  have htaken : (recorded (r.state n))[m]? = some c := by
    rcases hacc n with hboot | hacc
    · rw [hboot.successes_eq] at hm
      cases hm
    · have := hacc.taken
      rw [List.nil_append] at this
      rw [this, List.getElem?_append_left (List.getElem?_eq_some_iff.1 hm).1]
      exact hm
  obtain ⟨l, -, e, t, ht, rfl⟩ := recorded_completed hal htime htaken
  have hlate := (hal l).queue.onTime (List.mem_of_getElem? ht)
  obtain ⟨k, hk, hc, hlen⟩ := exists_completes_step (by rw [h₀]; rfl) ht
  have hrecord : (r.state (k + 1)).ax.shared.comps e.comp = compStatusCompleted := by
    rw [hk]
    change ((r.state k).ax.emul p).shared.comps e.comp = _
    rw [hc.comps, Function.update_self]
  exact ⟨k, e, t, hk, hc, hlen, rfl, hlate, hrecord⟩

/-! ## A run with one call -/

/-- The turn that a choice stands for. -/
def OffloadSys.turn (p : AxParams) (s : OffloadSys) : Choice → Option OffloadSys
  | .emul => (processes p).act .accelerator s
  | .submit | .ret => (processes p).act .submitter s
  | .tick c =>
      if s.ax.clock ≤ c ∧ c + p.offloadTime < 2 ^ 64 then
        some { s with ax := { s.ax with clock := c } }
      else none
  | .call comp dst =>
      if s.client.isNone then some { s with client := some (.init comp dst) } else none

theorem OffloadSys.step_of_turn {c : Choice} (h : s.turn p c = some t) :
    (processes p).Step s t := by
  cases c with
  | emul => exact .act _ h
  | submit | ret => exact .act _ h
  | tick c =>
      simp only [turn, Option.ite_none_right_eq_some, Option.some.injEq] at h
      obtain ⟨⟨hc, hb⟩, rfl⟩ := h
      exact .env (.inl ⟨c, hc, hb, rfl⟩)
  | call comp dst =>
      simp only [turn, Option.ite_none_right_eq_some, Option.some.injEq,
        Option.isNone_iff_eq_none] at h
      obtain ⟨hc, rfl⟩ := h
      exact .env (.inr ⟨comp, dst, hc, rfl⟩)

/-- The accelerator starts, a call is accepted and returns, and its time passes. -/
def callAndTick : List Choice :=
  [.emul, .emul, .call 7 9, .submit, .submit, .submit, .submit, .emul, .emul, .emul, .emul, .emul,
    .emul, .submit, .submit, .ret, .emul, .emul, .tick 5, .emul, .emul, .emul]

/-- After the call the accelerator polls for ever. -/
theorem exists_fairRun_callAndTick : ∃ r : FairRun (OffloadSys.processes oneSlot),
    (∀ n ≤ 22, (callAndTick.take n).foldlM (OffloadSys.turn oneSlot) (.started .zero 0) =
      some (r.state n)) ∧
    ∀ n, 22 ≤ n → (r.state n).client = none ∧ acceptedIn (r.state n).ax.history = [⟨0, 5, 7⟩] ∧
      5 ≤ (r.state n).ax.clock ∧ successes (r.state n) = [7] := by
  obtain ⟨t, ht, hcycle, hc, hc', hacc, hacc', hclock, hclock', hs, hs'⟩ : ∃ t,
      callAndTick.foldlM (OffloadSys.turn oneSlot) (.started .zero 0) = some t ∧
      (t.emul oneSlot).emul oneSlot = t ∧ t.client = none ∧ (t.emul oneSlot).client = none ∧
      acceptedIn t.ax.history = [⟨0, 5, 7⟩] ∧
      acceptedIn (t.emul oneSlot).ax.history = [⟨0, 5, 7⟩] ∧
      5 ≤ t.ax.clock ∧ 5 ≤ (t.emul oneSlot).ax.clock ∧ successes t = [7] ∧
      successes (t.emul oneSlot) = [7] :=
    ⟨_, rfl, rfl, rfl, rfl, rfl, rfl, by decide, by decide, rfl, rfl⟩
  have hidle : ∀ n, ((OffloadSys.processes oneSlot).next .accelerator)^[n] t = t ∨
      ((OffloadSys.processes oneSlot).next .accelerator)^[n] t = t.emul oneSlot := by
    intro n
    induction n with
    | zero => exact .inl rfl
    | succ n ih =>
        rw [Function.iterate_succ_apply']
        rcases ih with ih | ih <;> rw [ih]
        · exact .inr rfl
        · exact .inl hcycle
  obtain ⟨r, hfirst, hlast⟩ := Transition.exists_fairRun (OffloadSys.turn oneSlot)
    (fun _ _ _ => OffloadSys.step_of_turn) ht .accelerator fun j hj n => by
      cases j with
      | accelerator => exact absurd rfl hj
      | submitter =>
          rcases hidle n with h | h <;> rw [h]
          · exact OffloadSys.act_submitter_none hc
          · exact OffloadSys.act_submitter_none hc'
  refine ⟨r, hfirst, fun n hn => ?_⟩
  obtain ⟨k, rfl⟩ := Nat.exists_eq_add_of_le hn
  rw [show 22 + k = callAndTick.length + k from rfl, hlast k]
  rcases hidle k with h | h <;> rw [h]
  · exact ⟨hc, hacc, hclock, hs⟩
  · exact ⟨hc', hacc', hclock', hs'⟩

theorem submitOffload_returns_one : ∃ r : FairRun (OffloadSys.processes oneSlot),
    ∃ k, 3 ≤ k ∧ ∃ st, (r.state k).returned = [(7, st)] := by
  obtain ⟨r, hfirst, -⟩ := exists_fairRun_callAndTick
  have h₀ : OffloadSys.started .zero 0 = r.state 0 := Option.some.inj (hfirst 0 (by decide))
  have h₃ := Option.some.inj ((hfirst 3 (by decide)).symm.trans rfl)
  obtain ⟨k, hk, st, hst⟩ := submitOffload_returns oneSlot .zero 0 (by decide) r h₀.symm 3
    (.init 7 9) (by rw [h₃])
  exact ⟨r, k, hk, st, by rw [hst, h₃]; rfl⟩

theorem submitOffload_completed_one : ∃ r : FairRun (OffloadSys.processes oneSlot),
    ∃ k e t, r.state (k + 1) = (r.state k).emul oneSlot ∧ (r.state k).ax.Completes oneSlot e t ∧
      (completedIn (r.state k).ax.history).length = 0 ∧ e.comp = 7 ∧ e.startTime + 5 ≤ t ∧
      (r.state (k + 1)).ax.shared.comps 7 = compStatusCompleted := by
  obtain ⟨r, hfirst, hlast⟩ := exists_fairRun_callAndTick
  have h₀ : OffloadSys.started .zero 0 = r.state 0 := Option.some.inj (hfirst 0 (by decide))
  -- when the accelerator makes its first store there is no call
  have hquiet : ∀ n < 22, ((callAndTick.take n).foldlM (OffloadSys.turn oneSlot)
      (.started .zero 0)).all (fun s => s.client.isNone || s.ax.frame.pc != .release) = true := by
    decide
  have hsafe : ∀ n, ¬ Wipes (r.state n) := by
    rintro n ⟨hpc, -, f, hf, -⟩
    rcases Nat.lt_or_ge n 22 with hlt | hge
    · have := hquiet n hlt
      rw [hfirst n hlt.le] at this
      simp [hf, hpc] at this
    · rw [(hlast n hge).1] at hf
      cases hf
  have htime : ∀ e, r.LeadsTo (fun s => e ∈ s.ax.frame.offloadInFlightList)
      fun s => e.compTime ≤ s.ax.clock := by
    intro e n he
    obtain ⟨q, hq⟩ := (alive_of_started h₀.symm (by decide) n).queue.queue
    obtain ⟨-, hacc, hclock, -⟩ := hlast (max n 22) (Nat.le_max_right _ _)
    obtain ⟨l, hl⟩ := (OffloadSys.grows r (Nat.le_max_left n 22)).1
    have hmem : e ∈ acceptedIn (r.state (max n 22)).ax.history := by
      rw [← hl, acceptedIn_append]
      exact List.mem_append_left _ (hq.mem_accepted he)
    rw [hacc, List.mem_singleton] at hmem
    exact ⟨_, Nat.le_max_left _ _, by rw [hmem]; exact hclock⟩
  have hm : (successes (r.state 22))[0]? = some 7 := by
    rw [(hlast 22 le_rfl).2.2.2]
    rfl
  exact ⟨r, submitOffload_completed oneSlot .zero 0 (by decide) r h₀.symm
    (fun n h => hsafe n h.1) htime 22 0 7 hm⟩

end XMPGym
