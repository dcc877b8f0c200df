import XMPGym.EmulQueue
import XMPGym.Handshake

/-!
# When submissions are granted

The accelerator rejects a submission when its list is full, and after three more looks at
`submit_status` the call of `submit_offload` fails.  That never happens in a run with at most
`max_inflights` calls, and never when `offload_time` is zero; when the list is full and nothing on
it is due, it does.
-/

open Relation Transition

namespace XMPGym

variable {p : AxParams} {s s' : OffloadSys} {a : EmulSys}

/-- The number of calls that have begun. -/
def calls (s : OffloadSys) : ℕ := s.returned.length + if s.client.isSome then 1 else 0

/-- Steps of a run with at most `n` calls. -/
def CallStep (p : AxParams) (n : ℕ) (s s' : OffloadSys) : Prop :=
  OffloadSys.Step p s s' ∧ calls s' ≤ n

/-! ## The list -/

/-- The four variables agree, and there is an entry where the thread expects one. -/
structure Occupied (a : EmulSys) : Prop where
  agrees : Agrees a.frame
  front : (a.frame.pc = .time ∨ ∃ t, a.frame.pc = .complete t) → a.frame.offloadInFlightList ≠ []

theorem Occupied.emul (h : Occupied a) : Occupied (a.emul p) where
  agrees := h.agrees.emul fun t ht => h.front (.inr ⟨t, ht⟩)
  front := by
    cases hpc : a.frame.pc with
    | top =>
        cases hr : a.shared.axRunning <;> cases hf : a.frame.offloadInFlight <;>
          simp [EmulSys.emul, nonblockingEmulAx, hpc, hr, hf]
        exact h.agrees.flag.1 hf
    | time =>
        intro _
        simpa [EmulSys.emul, nonblockingEmulAx, hpc] using h.front (.inl hpc)
    | complete t =>
        obtain ⟨e, rest, hl⟩ := List.exists_cons_of_ne_nil (h.front (.inr ⟨t, hpc⟩))
        simp [EmulSys.emul, nonblockingEmulAx, hpc, completeFront, hl]
    | poll | stamp =>
        simp only [EmulSys.emul, nonblockingEmulAx, hpc]
        split_ifs <;> simp
    | _ => simp [EmulSys.emul, nonblockingEmulAx, pushEntry, hpc]

/-- No more entries are on the list than have been accepted. -/
def NoExtra (a : EmulSys) : Prop :=
  a.frame.offloadInFlightList.length ≤ (acceptedIn a.history).length

theorem NoExtra.emul (h : NoExtra a) : NoExtra (a.emul p) := by
  unfold NoExtra at h ⊢
  cases hpc : a.frame.pc with
  | top =>
      cases hr : a.shared.axRunning <;>
        simpa [EmulSys.emul, nonblockingEmulAx, emulEvent, hpc, hr] using h
  | complete t =>
      cases hl : a.frame.offloadInFlightList with
      | nil => simp [EmulSys.emul, nonblockingEmulAx, emulEvent, hpc, completeFront, hl]
      | cons e rest =>
          rw [hl, List.length_cons] at h
          simp [EmulSys.emul, nonblockingEmulAx, emulEvent, hpc, completeFront, hl]
          omega
  | push t c => simpa [EmulSys.emul, nonblockingEmulAx, emulEvent, hpc, pushEntry] using h
  | _ => simpa [EmulSys.emul, nonblockingEmulAx, emulEvent, hpc] using h

/-- With `offload_time` zero: an entry is due as soon as it is there, and completed before the next
submission is looked at. -/
structure Prompt (a : EmulSys) : Prop where
  due : ∀ e ∈ a.frame.offloadInFlightList, e.compTime ≤ a.clock
  list : match a.frame.pc with
    | .top | .time | .count | .exited => a.frame.offloadInFlightList.length ≤ 1
    | .complete _ => a.frame.offloadInFlightList.length = 1
    | .acceptStatus t | .loadAddr t | .acceptRelease t _ | .push t _ =>
        a.frame.offloadInFlightList = [] ∧ t ≤ a.clock
    | _ => a.frame.offloadInFlightList = []

theorem Prompt.tick (h : Prompt a) {t : ℕ} (ht : a.clock ≤ t) : Prompt { a with clock := t } where
  due e he := (h.due e he).trans ht
  list := by
    have := h.list
    cases hpc : a.frame.pc <;> simp only [hpc] at this ⊢ <;>
      first | exact this | exact ⟨this.1, this.2.trans ht⟩

theorem Prompt.emul (hzero : p.offloadTime = 0) (ho : Occupied a) (h : Prompt a) :
    Prompt (a.emul p) := by
  obtain ⟨hdue, hlist⟩ := h
  cases hpc : a.frame.pc with
  | top =>
      simp only [hpc] at hlist
      cases hr : a.shared.axRunning <;> cases hf : a.frame.offloadInFlight <;>
        refine ⟨?_, ?_⟩ <;> simp [EmulSys.emul, nonblockingEmulAx, hpc, hr, hf] <;>
        first
          | exact hdue
          | exact hlist
          | by_contra hne; exact absurd (ho.agrees.flag.2 hne) (by simp [hf])
  | time =>
      simp only [hpc] at hlist
      obtain ⟨e, rest, hl⟩ := List.exists_cons_of_ne_nil (ho.front (.inl hpc))
      have hd : a.frame.nextOffloadCompletionTime ≤ a.clock := by
        rw [ho.agrees.deadline e (by rw [hl]; rfl)]
        exact hdue e (by rw [hl]; exact List.mem_cons_self)
      refine ⟨?_, ?_⟩ <;> simp [EmulSys.emul, nonblockingEmulAx, hpc, hd]
      · exact hdue
      · rw [hl, List.length_cons] at hlist ⊢
        omega
  | complete t =>
      simp only [hpc] at hlist
      obtain ⟨e, hl⟩ := List.length_eq_one_iff.1 hlist
      refine ⟨?_, ?_⟩ <;> simp [EmulSys.emul, nonblockingEmulAx, hpc, completeFront, hl]
  | push t c =>
      simp only [hpc] at hlist
      obtain ⟨hnil, ht⟩ := hlist
      refine ⟨?_, ?_⟩ <;>
        simp [EmulSys.emul, nonblockingEmulAx, hpc, pushEntry, hnil, newEntry, hzero]
      exact (Nat.mod_le _ _).trans ht
  | poll | stamp =>
      simp only [hpc] at hlist
      refine ⟨?_, ?_⟩ <;> simp only [EmulSys.emul, nonblockingEmulAx, hpc]
      · exact hdue
      · split_ifs <;> simp [hlist]
  | _ =>
      simp only [hpc] at hlist
      refine ⟨?_, ?_⟩ <;> simp [EmulSys.emul, nonblockingEmulAx, hpc]
      · exact hdue
      · first | exact hlist | simp [hlist]

/-! ## Calls that succeed -/

/-- No submission is being rejected, and no call has been told so. -/
structure Granted (s : OffloadSys) : Prop where
  pc : s.ax.frame.pc ≠ .rejectStatus ∧ s.ax.frame.pc ≠ .rejectRelease
  told : ∀ f, s.client = some f → (f.pc = .storeDst ∨ f.pc = .wait ∨ f.pc = .check) →
    s.ax.shared.submitFlag = offloadReceived → s.ax.shared.submitStatus ≠ submitFail
  notFail : ∀ f, s.client = some f → f.pc ≠ .returned statusFail

/-- A step keeps this, if the accelerator has room when it looks at a submission. -/
theorem Granted.step (h : Granted s) (hsync : Sync s.client s.ax.shared s.ax.frame.pc)
    (hroom : s.ax.frame.pc = .stamp → s.ax.frame.inFlight < p.maxInflights)
    (hs : OffloadSys.Step p s s') : Granted s' := by
  obtain ⟨hpc, htold, hnot⟩ := h
  cases hs with
  | tick t ht => exact ⟨hpc, htold, hnot⟩
  | call comp dst hc =>
      refine ⟨hpc, fun f hf hw => ?_, fun f hf => ?_⟩ <;> obtain rfl := Option.some.inj hf
      · simp [SubmitFrame.init] at hw
      · simp [SubmitFrame.init]
  | ret f r hc hr => exact ⟨hpc, fun g hg => (by cases hg), fun g hg => (by cases hg)⟩
  | emul =>
      refine ⟨?_, fun f hf hw hflag => ?_, hnot⟩
      · cases hpc' : s.ax.frame.pc with
        | stamp => simp [OffloadSys.emul, EmulSys.emul, nonblockingEmulAx, hpc', hroom hpc']
        | rejectStatus => exact absurd hpc' hpc.1
        | top =>
            cases hr : s.ax.shared.axRunning <;> cases hf : s.ax.frame.offloadInFlight <;>
              simp [OffloadSys.emul, EmulSys.emul, nonblockingEmulAx, hpc', hr, hf]
        | complete t =>
            cases hl : s.ax.frame.offloadInFlightList <;>
              simp [OffloadSys.emul, EmulSys.emul, nonblockingEmulAx, hpc', completeFront, hl]
        | time | poll =>
            simp only [OffloadSys.emul, EmulSys.emul, nonblockingEmulAx, hpc']
            split_ifs <;> simp
        | _ => simp [OffloadSys.emul, EmulSys.emul, nonblockingEmulAx, pushEntry, hpc']
      · have hf : s.client = some f := hf
        have settled (hset : Settled s.ax.shared s.ax.frame.pc) :
            (s.emul p).ax.shared.submitStatus ≠ submitFail := by
          rw [show (s.emul p).ax.shared.submitStatus = s.ax.shared.submitStatus from
            (hset.emul (p := p)).2.1]
          exact htold f hf hw hset.1
        simp only [hf, Sync] at hsync
        rcases hw with hw | hw | hw <;> simp only [hw] at hsync
        case inr.inr => exact settled hsync.1
        all_goals
          rcases hsync with ⟨hreq, -, -, hans⟩ | hans
          · -- the answer is given by releasing `submit_flag`
            cases hpc' : s.ax.frame.pc <;> simp only [hpc'] at hans
            case acceptRelease t c =>
              simp [OffloadSys.emul, EmulSys.emul, nonblockingEmulAx, hpc', hans.1, submitSuccess,
                submitFail]
            case rejectRelease => exact absurd hpc' hpc.2
            case complete t =>
              cases hl : s.ax.frame.offloadInFlightList <;>
                simp [OffloadSys.emul, EmulSys.emul, nonblockingEmulAx, hpc', completeFront, hl,
                  hreq, offloadReceived, offloadRequested] at hflag
            case top =>
              cases hr : s.ax.shared.axRunning <;>
                simp [OffloadSys.emul, EmulSys.emul, nonblockingEmulAx, hpc', hr, hreq,
                  offloadReceived, offloadRequested] at hflag
            case count =>
              simp only [OffloadSys.emul, EmulSys.emul, nonblockingEmulAx, hpc'] at hflag
              split_ifs at hflag <;>
                simp [hreq, offloadReceived, offloadRequested] at hflag
            all_goals
              simp [OffloadSys.emul, EmulSys.emul, nonblockingEmulAx, hpc', hreq,
                offloadReceived, offloadRequested] at hflag
          · exact settled hans.1
  | submit f hc =>
      have htold := htold f hc
      have hnot := hnot f hc
      simp only [hc, Sync] at hsync
      refine ⟨hpc, fun g hg hw hflag => ?_, fun g hg => ?_⟩ <;> obtain rfl := Option.some.inj hg
      · cases hpc' : f.pc <;>
          simp [OffloadSys.submit, submitOffload, hpc', offloadReceived, offloadRequested]
            at hw hflag htold ⊢
        · exact htold hflag
        · exact htold hflag
        · split_ifs at hw hflag ⊢ with h₁ h₂
          · exact htold hflag
          · simp at hw
          · simp at hw
      · cases hpc' : f.pc <;> simp [submitOffload, hpc']
        · split_ifs <;> simp
        · simp only [hpc', Answered] at hsync
          obtain ⟨hset, hret⟩ := hsync
          have hne := htold (.inr (.inr hpc')) hset.1
          have h3 := hret hne
          simp [hne, h3, numRetries, statusSuccess, statusFail]
        · rw [hpc'] at hnot
          simpa using hnot

/-! ## Runs without a rejection -/

/-- The accelerator is at the top of its polling loop, with nothing to do. -/
structure EmulSys.Idle (a : EmulSys) : Prop where
  pc : a.frame.pc = .top
  running : a.shared.axRunning = true
  flag : a.shared.submitFlag = offloadReceived
  list : a.frame.offloadInFlightList = []
  inFlight : a.frame.inFlight = 0
  offloadInFlight : a.frame.offloadInFlight = false
  history : a.history = []

theorem EmulSys.Idle.polling (h : a.Idle) : OffloadSys.Polling ⟨a, none, []⟩ :=
  ⟨h.pc, h.flag, rfl, h.history, rfl⟩

theorem EmulSys.Idle.occupied (h : a.Idle) : Occupied a where
  agrees := ⟨by simp [h.inFlight, h.list], by simp [h.list, h.offloadInFlight], by simp [h.list]⟩
  front h' := by simp [h.pc] at h'

theorem EmulSys.Idle.granted (h : a.Idle) : Granted ⟨a, none, []⟩ where
  pc := by simp [h.pc]
  told f hf := by cases hf
  notFail f hf := by cases hf

/-- Steps of the handshake are steps of the accelerator, or do not concern it. -/
theorem OffloadSys.Step.ax {I : EmulSys → Prop} (hs : OffloadSys.Step p s s')
    (hemul : I s.ax → I (s.ax.emul p))
    (htick : ∀ t, s.ax.clock ≤ t → I s.ax → I { s.ax with clock := t })
    (henv : ∀ sh, I s.ax → I { s.ax with shared := sh }) (h : I s.ax) : I s'.ax := by
  cases hs with
  | emul => exact hemul h
  | tick t ht => exact htick t ht h
  | call comp dst hc => exact h
  | submit f hc => exact henv _ h
  | ret f r hc hr => exact h

theorem preserved_occupied : Preserved (OffloadSys.Step p) fun s => Occupied s.ax :=
  fun _ _ hs h => hs.ax (I := Occupied) (fun h => h.emul) (fun _ _ h => ⟨h.agrees, h.front⟩)
    (fun _ h => ⟨h.agrees, h.front⟩) h

/-- With at most `max_inflights` calls no submission is rejected. -/
theorem granted_of_few_calls {n : ℕ} (hn : (n : ℤ) ≤ p.maxInflights) (h : a.Idle)
    (hr : ReflTransGen (CallStep p n) ⟨a, none, []⟩ s) : Granted s := by
  have key : Preserved (CallStep p n) fun s => (Account [] s ∧ Occupied s.ax ∧ NoExtra s.ax ∧
      calls s ≤ n) ∧ Granted s := by
    rintro s s' ⟨hs, hcalls'⟩ ⟨⟨hacc, ho, hex, hcalls⟩, hg⟩
    refine ⟨⟨preserved_account [] hs hacc, preserved_occupied hs ho, ?_, hcalls'⟩,
      hg.step hacc.sync (fun hpc => ?_) hs⟩
    · exact hs.ax (fun h => h.emul) (fun _ _ h => h) (fun _ h => h) hex
    · -- the call whose submission is looked at has not been counted yet
      have hsync := hacc.sync
      have htaken := hacc.taken
      have hlen := ho.agrees.inFlight
      unfold NoExtra at hex
      cases hc : s.client with
      | none => simp [hc, Sync, Settled, hpc, Quiet] at hsync
      | some f =>
          have haw : awarded (some f) s.ax.shared .stamp = [] := by
            rw [hc, hpc] at hsync
            cases hf : f.pc <;>
              simp only [Sync, hf, Settled, Answered, Quiet, and_false, false_and, or_false]
                at hsync <;>
              simp [awarded, hf, hsync.1]
          rw [hc, hpc, haw] at htaken
          have hlen' := congrArg List.length htaken
          simp only [recorded, pushing, hpc, List.nil_append, List.append_nil, List.length_map,
            successes] at hlen'
          have hle := List.length_filter_le (fun c => decide (c.2 = statusSuccess)) s.returned
          simp only [calls, hc, Option.isSome_some, if_true] at hcalls
          omega
  refine (key.run hr ⟨⟨h.polling.account, h.occupied, ?_, Nat.zero_le n⟩, h.granted⟩).2
  simp [NoExtra, h.list]

/-- With `offload_time` zero no submission is rejected. -/
theorem granted_of_zero_time (hzero : p.offloadTime = 0) (hM : 1 ≤ p.maxInflights) (h : a.Idle)
    (hr : ReflTransGen (OffloadSys.Step p) ⟨a, none, []⟩ s) : Granted s := by
  have key : Preserved (OffloadSys.Step p) fun s => (Account [] s ∧ Occupied s.ax ∧
      Prompt s.ax) ∧ Granted s := by
    rintro s s' hs ⟨⟨hacc, ho, hpr⟩, hg⟩
    refine ⟨⟨preserved_account [] hs hacc, preserved_occupied hs ho, ?_⟩,
      hg.step hacc.sync (fun hpc => ?_) hs⟩
    · exact hs.ax (fun h => h.emul hzero ho) (fun _ ht h => h.tick ht)
        (fun _ h => ⟨h.due, h.list⟩) hpr
    · have hnil := hpr.list
      simp only [hpc] at hnil
      have hlen := ho.agrees.inFlight
      rw [hnil, List.length_nil] at hlen
      omega
  refine (key.run hr ⟨⟨h.polling.account, h.occupied, ?_, ?_⟩, h.granted⟩).2
  · simp [h.list]
  · simp [h.pc, h.list]

/-! ## A list that fills up -/

/-- `j` entries are on the list, and none of them is due; every record is pending. -/
structure Loaded (j : ℕ) (a : EmulSys) : Prop where
  agrees : Agrees a.frame
  length : a.frame.offloadInFlightList.length = j
  notDue : a.frame.offloadInFlightList ≠ [] → a.clock < a.frame.nextOffloadCompletionTime
  running : a.shared.axRunning = true
  pending : ∀ c, a.shared.comps c = compStatusPending

section loaded

variable {j : ℕ}

/-- The thread comes to look at `submit_flag`. -/
theorem Loaded.poll (h : Loaded j a) (hpc : a.frame.pc = .top) :
    ∃ n, Loaded j ((EmulSys.emul p)^[n] a) ∧ ((EmulSys.emul p)^[n] a).frame.pc = .poll ∧
      ((EmulSys.emul p)^[n] a).shared = a.shared ∧ ((EmulSys.emul p)^[n] a).clock = a.clock := by
  cases hf : a.frame.offloadInFlight with
  | false =>
      have e : a.emul p = { a with frame := { a.frame with pc := .poll } } := by
        simp [EmulSys.emul, nonblockingEmulAx, emulEvent, hpc, h.running, hf]
      refine ⟨1, ?_⟩
      rw [Function.iterate_one, e]
      exact ⟨⟨h.agrees.congr rfl rfl rfl rfl, h.length, h.notDue, h.running, h.pending⟩, rfl, rfl,
        rfl⟩
  | true =>
      have hlt := h.notDue (h.agrees.flag.1 hf)
      have e : (a.emul p).emul p = { a with frame := { a.frame with pc := .poll } } := by
        simp [EmulSys.emul, nonblockingEmulAx, emulEvent, hpc, h.running, hf, hlt]
      refine ⟨2, ?_⟩
      show Loaded j ((a.emul p).emul p) ∧ ((a.emul p).emul p).frame.pc = .poll ∧
        ((a.emul p).emul p).shared = a.shared ∧ ((a.emul p).emul p).clock = a.clock
      rw [e]
      exact ⟨⟨h.agrees.congr rfl rfl rfl rfl, h.length, h.notDue, h.running, h.pending⟩, rfl, rfl,
        rfl⟩

/-- The steps of the thread leave the clock alone. -/
theorem clock_iterate_emul (n : ℕ) (a : EmulSys) :
    ((EmulSys.emul p)^[n] a).clock = a.clock := by
  induction n generalizing a with
  | zero => rfl
  | succ n ih => exact ih (a.emul p)

/-- With room on the list, the thread gets as far as its answer. -/
theorem emul_to_acceptRelease (hpc : a.frame.pc = .poll)
    (hflag : a.shared.submitFlag = offloadRequested) (hin : a.frame.inFlight < p.maxInflights) :
    (EmulSys.emul p)^[4] a =
      { a with
        frame := { a.frame with pc := .acceptRelease a.clock a.shared.complAddr }
        shared := { a.shared with submitStatus := submitSuccess } } := by
  simp [EmulSys.emul, nonblockingEmulAx, emulEvent, hpc, hflag, hin]

/-- With room on the list, the submission is accepted. -/
theorem Loaded.accepts (h : Loaded j a) (hpc : a.frame.pc = .poll)
    (hflag : a.shared.submitFlag = offloadRequested) (hroom : (j : ℤ) < p.maxInflights)
    (hzero : 0 < p.offloadTime) (hb : a.clock + p.offloadTime < 2 ^ 64) :
    Loaded (j + 1) ((EmulSys.emul p)^[7] a) ∧ ((EmulSys.emul p)^[7] a).frame.pc = .top ∧
      ((EmulSys.emul p)^[7] a).shared.submitFlag = offloadReceived ∧
      ((EmulSys.emul p)^[7] a).shared.submitStatus = submitSuccess ∧
      ((EmulSys.emul p)^[7] a).clock = a.clock := by
  have hin : a.frame.inFlight < p.maxInflights := by
    rw [h.agrees.inFlight, h.length]
    exact hroom
  have hsplit : (EmulSys.emul p)^[7] a = _ :=
    (Function.iterate_add_apply _ 3 4 a).trans
      (congrArg (EmulSys.emul p)^[3] (emul_to_acceptRelease hpc hflag hin))
  have hframe : ((EmulSys.emul p)^[7] a).frame =
      { pushEntry p a.clock a.shared.complAddr a.frame with pc := .top } := by
    rw [hsplit]
    simp [EmulSys.emul, nonblockingEmulAx, pushEntry]
  have hshared : ((EmulSys.emul p)^[7] a).shared =
      { a.shared with
        submitStatus := submitSuccess
        submitFlag := offloadReceived
        totalOffloads :=
          if p.gLogLevel = logMonitor then a.shared.totalOffloads + 1
          else a.shared.totalOffloads } := by
    rw [hsplit]
    simp [EmulSys.emul, nonblockingEmulAx, pushEntry]
    split_ifs <;> rfl
  have hclock : ((EmulSys.emul p)^[7] a).clock = a.clock := clock_iterate_emul 7 a
  refine ⟨⟨?_, ?_, ?_, ?_, ?_⟩, by rw [hframe], by rw [hshared], by rw [hshared], hclock⟩
  · rw [hframe]
    exact (h.agrees.pushEntry a.clock a.shared.complAddr).congr rfl rfl rfl rfl
  · rw [hframe]
    simp [pushEntry, h.length]
  · rw [hframe, hclock]
    intro _
    cases hl : a.frame.offloadInFlightList with
    | nil =>
        have hdue : (newEntry p a.clock a.shared.complAddr).compTime = a.clock + p.offloadTime :=
          Nat.mod_eq_of_lt hb
        simp only [pushEntry, hl, List.nil_append, List.length_singleton, if_true, hdue]
        omega
    | cons e rest => simpa [pushEntry, hl] using h.notDue (by simp [hl])
  · rw [hshared]
    exact h.running
  · rw [hshared]
    exact h.pending

/-- With a full list, the submission is rejected. -/
theorem Loaded.rejects (h : Loaded j a) (hpc : a.frame.pc = .poll)
    (hflag : a.shared.submitFlag = offloadRequested) (hfull : p.maxInflights ≤ j) :
    Loaded j ((EmulSys.emul p)^[4] a) ∧ ((EmulSys.emul p)^[4] a).frame.pc = .top ∧
      ((EmulSys.emul p)^[4] a).shared.submitFlag = offloadReceived ∧
      ((EmulSys.emul p)^[4] a).shared.submitStatus = submitFail := by
  have hin : ¬ a.frame.inFlight < p.maxInflights := by
    rw [h.agrees.inFlight, h.length]
    omega
  have hframe : ((EmulSys.emul p)^[4] a).frame =
      { a.frame with pc := .top, rejectedOffloads := a.frame.rejectedOffloads + 1 } := by
    simp [EmulSys.emul, nonblockingEmulAx, hpc, hflag, hin]
  have hshared : ((EmulSys.emul p)^[4] a).shared =
      { a.shared with submitStatus := submitFail, submitFlag := offloadReceived } := by
    simp [EmulSys.emul, nonblockingEmulAx, hpc, hflag, hin]
  refine ⟨⟨?_, ?_, ?_, ?_, ?_⟩, by rw [hframe], by rw [hshared], by rw [hshared]⟩
  · rw [hframe]
    exact h.agrees.congr rfl rfl rfl rfl
  · rw [hframe]
    exact h.length
  · rw [hframe]
    exact h.notDue
  · rw [hshared]
    exact h.running
  · rw [hshared]
    exact h.pending

end loaded

/-! ## Calls against a list that fills up -/

/-- The moves of a call and the accelerator, until the call returns. -/
inductive CallMove (p : AxParams) : SubmitFrame × EmulSys → SubmitFrame × EmulSys → Prop where
  | emul (f : SubmitFrame) (a : EmulSys) : CallMove p (f, a) (f, a.emul p)
  | submit (f : SubmitFrame) (a : EmulSys) (h : ∀ r, f.pc ≠ .returned r) :
      CallMove p (f, a)
        ((submitOffload f a.shared).1, { a with shared := (submitOffload f a.shared).2 })

theorem callMove_emul (f : SubmitFrame) (a : EmulSys) (n : ℕ) :
    ReflTransGen (CallMove p) (f, a) (f, (EmulSys.emul p)^[n] a) := by
  induction n generalizing a with
  | zero => exact .refl
  | succ n ih => exact .head (.emul f a) (ih (a.emul p))

/-- The four stores of a call. -/
theorem callMove_stores (a : EmulSys) (comp dst : ℕ) :
    ReflTransGen (CallMove p) (.init comp dst, a) (⟨.wait, comp, dst, numRetries⟩,
      { a with shared := { a.shared with
        comps := Function.update a.shared.comps comp compStatusPending
        complAddr := comp
        submitFlag := offloadRequested
        pDstBuf := dst } }) := by
  refine .head (.submit _ _ (by simp [SubmitFrame.init])) ?_
  refine .head (.submit _ _ (by simp [SubmitFrame.init, submitOffload])) ?_
  refine .head (.submit _ _ (by simp [SubmitFrame.init, submitOffload])) ?_
  exact .single (.submit _ _ (by simp [SubmitFrame.init, submitOffload]))

/-- A step of the call that only reads. -/
theorem CallMove.read {f g : SubmitFrame} (h : submitOffload f a.shared = (g, a.shared))
    (hr : ∀ r, f.pc ≠ .returned r) : CallMove p (f, a) (g, a) := by
  have := CallMove.submit (p := p) f a hr
  rwa [h] at this

section answers

variable {comp dst n : ℕ}

theorem callMove_wait (hflag : a.shared.submitFlag = offloadReceived) :
    CallMove p (⟨.wait, comp, dst, n⟩, a) (⟨.check, comp, dst, n⟩, a) :=
  .read (by simp [submitOffload, hflag, offloadReceived, offloadRequested]) (by simp)

theorem callMove_success (hst : a.shared.submitStatus = submitSuccess) (hn : n ≠ 0) :
    CallMove p (⟨.check, comp, dst, n⟩, a) (⟨.returned statusSuccess, comp, dst, numRetries⟩, a) :=
  .read (by simp [submitOffload, hst, submitSuccess, submitFail, hn]) (by simp)

/-- A call that keeps reading a rejection uses up its retries and fails. -/
theorem callMove_fail (hflag : a.shared.submitFlag = offloadReceived)
    (hst : a.shared.submitStatus = submitFail) :
    ReflTransGen (CallMove p) (⟨.check, comp, dst, n⟩, a)
      (⟨.returned statusFail, comp, dst, 0⟩, a) := by
  induction n with
  | zero => exact .single (.read (by simp [submitOffload]) (by simp))
  | succ n ih =>
      have hretry : CallMove p (⟨.check, comp, dst, n + 1⟩, a) (⟨.wait, comp, dst, n⟩, a) :=
        .read (by simp [submitOffload, hst]) (by simp)
      exact .head hretry (.head (callMove_wait hflag) ih)

variable {j : ℕ}

/-- A call that begins while the thread is at the top of its loop makes its request and waits, and
the thread comes to look at it. -/
theorem Loaded.request (h : Loaded j a) (hpc : a.frame.pc = .top) (comp dst : ℕ) :
    ∃ b, ReflTransGen (CallMove p) (.init comp dst, a) (⟨.wait, comp, dst, numRetries⟩, b) ∧
      Loaded j b ∧ b.frame.pc = .poll ∧ b.shared.submitFlag = offloadRequested ∧
      b.clock = a.clock := by
  have hl : Loaded j { a with shared := { a.shared with
      comps := Function.update a.shared.comps comp compStatusPending
      complAddr := comp
      submitFlag := offloadRequested
      pDstBuf := dst } } := by
    refine ⟨h.agrees, h.length, h.notDue, h.running, fun c => ?_⟩
    rcases eq_or_ne c comp with rfl | hne
    · exact Function.update_self _ _ _
    · exact (Function.update_of_ne hne _ _).trans (h.pending c)
  obtain ⟨n, hl', hpc', hsh, hclock⟩ := hl.poll (p := p) hpc
  exact ⟨_, (callMove_stores a comp dst).trans (callMove_emul _ _ n), hl', hpc', by rw [hsh],
    hclock⟩

/-- With room on the list the call can succeed, and one more entry is there. -/
theorem Loaded.call_accepted (h : Loaded j a) (hpc : a.frame.pc = .top)
    (hroom : (j : ℤ) < p.maxInflights) (hzero : 0 < p.offloadTime)
    (hb : a.clock + p.offloadTime < 2 ^ 64) (comp dst : ℕ) :
    ∃ b, ReflTransGen (CallMove p) (.init comp dst, a)
        (⟨.returned statusSuccess, comp, dst, numRetries⟩, b) ∧
      Loaded (j + 1) b ∧ b.frame.pc = .top ∧ b.clock = a.clock := by
  obtain ⟨b, hrun, hl, hpoll, hflag, hclock⟩ := h.request (p := p) hpc comp dst
  obtain ⟨hl', htop, hrec, hst, hclock'⟩ := hl.accepts hpoll hflag hroom hzero (by rwa [hclock])
  refine ⟨_, ?_, hl', htop, hclock'.trans hclock⟩
  exact ((hrun.trans (callMove_emul _ _ 7)).tail (callMove_wait hrec)).tail
    (callMove_success hst (by simp [numRetries]))

/-- With a full list the call can fail. -/
theorem Loaded.call_rejected (h : Loaded j a) (hpc : a.frame.pc = .top)
    (hfull : p.maxInflights ≤ j) (comp dst : ℕ) :
    ∃ b, ReflTransGen (CallMove p) (.init comp dst, a)
      (⟨.returned statusFail, comp, dst, 0⟩, b) := by
  obtain ⟨b, hrun, hl, hpoll, hflag, -⟩ := h.request (p := p) hpc comp dst
  obtain ⟨-, -, hrec, hst⟩ := hl.rejects hpoll hflag hfull
  exact ⟨_, ((hrun.trans (callMove_emul _ _ 4)).tail (callMove_wait hrec)).trans
    (callMove_fail hrec hst)⟩

end answers

end XMPGym
