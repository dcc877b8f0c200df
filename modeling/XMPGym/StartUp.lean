import XMPGym.Handshake

/-!
# Submissions around the start of the accelerator

`start_non_blocking_ax` returns without waiting for the thread it creates, whose first store to
`submit_flag` is the same value as the one that answers a request.  A request made before that
store is wiped by it.  What the submitter is then told depends on the old `submit_status` only.
-/

open Relation Transition

namespace XMPGym

variable {p : AxParams} {s s' : OffloadSys}

/-- `start_non_blocking_ax`: the running flag is raised and the new thread is at its first
statement. -/
def startNonBlockingAx (sh : Shared) : EmulFrame × Shared := (.init, { sh with axRunning := true })

/-- `start_non_blocking_ax` has just returned, in a process whose atomics hold anything. -/
def OffloadSys.started (sh : Shared) (clock : ℕ) : OffloadSys where
  ax := { frame := (startNonBlockingAx sh).1, shared := (startNonBlockingAx sh).2, clock := clock
          history := [] }
  client := none
  returned := []

/-- The records of the entries that have been completed, are on `offload_in_flight_list` or are
being pushed. -/
def held (s : OffloadSys) : List ℕ :=
  ((completedIn s.ax.history).map Prod.fst ++ s.ax.frame.offloadInFlightList).map
    OffloadEntry.comp ++ pushing s.ax.frame

/-- Every call that reported success has an entry of its own that has been completed, is on the list
or is being pushed. -/
def NoneLost (s : OffloadSys) : Prop := ∀ c, (successes s).count c ≤ (held s).count c

/-- The next step of the accelerator is its initial store, a request is waiting, and the status
left over from earlier is not that of a rejection. -/
def Wipes (s : OffloadSys) : Prop :=
  s.ax.frame.pc = .release ∧ s.ax.shared.submitStatus ≠ submitFail ∧
    ∃ f, s.client = some f ∧ (f.pc = .storeDst ∨ f.pc = .wait)

/-- Any step but an initial store that wipes a request. -/
def SafeStep (p : AxParams) (s s' : OffloadSys) : Prop :=
  OffloadSys.Step p s s' ∧ ¬ (Wipes s ∧ s' = s.emul p)

/-! ## Before the initial store -/

/-- Before its initial store the accelerator has taken nothing, and no call gets past its wait. -/
structure Booting (s : OffloadSys) : Prop where
  pc : s.ax.frame.pc = .resetTotal ∨ s.ax.frame.pc = .release
  history : s.ax.history = []
  returned : s.returned = []
  client : ∀ f, s.client = some f → f.retriesRemaining = numRetries ∧
    match f.pc with
    | .clear | .storeAddr => True
    | .request => s.ax.shared.complAddr = f.comp
    | .storeDst | .wait =>
        s.ax.shared.submitFlag = offloadRequested ∧ s.ax.shared.complAddr = f.comp
    | .check | .returned _ => False

theorem booting_started (sh : Shared) (clock : ℕ) : Booting (.started sh clock) where
  pc := .inl rfl
  history := rfl
  returned := rfl
  client := by simp [OffloadSys.started]

theorem Booting.recorded_eq (h : Booting s) : recorded s = [] := by
  rcases h.pc with hpc | hpc <;> simp [recorded, pushing, hpc, h.history, acceptedIn]

theorem Booting.successes_eq (h : Booting s) : successes s = [] := by
  simp [successes, h.returned]

theorem Booting.submit (h : Booting s) {f : SubmitFrame} (hc : s.client = some f) :
    Booting (s.submit f) := by
  obtain ⟨hpc, hhist, hret, hcl⟩ := h
  obtain ⟨hr, hf⟩ := hcl f hc
  refine ⟨hpc, hhist, hret, fun g hg => ?_⟩
  obtain rfl := Option.some.inj hg
  cases hx : f.pc <;> simp only [hx] at hf <;>
    simp_all [submitOffload, OffloadSys.submit]

/-- The first step of the thread does not concern the submitter. -/
theorem Booting.reset (h : Booting s) (hpc : s.ax.frame.pc = .resetTotal) :
    Booting (s.emul p) := by
  obtain ⟨-, hhist, hret, hcl⟩ := h
  refine ⟨.inr ?_, ?_, hret, fun f hf => ?_⟩
  · simp [OffloadSys.emul, EmulSys.emul, nonblockingEmulAx, hpc]
  · simp [OffloadSys.emul, EmulSys.emul, emulEvent, hpc, hhist]
  · have hsh : (s.emul p).ax.shared.complAddr = s.ax.shared.complAddr ∧
        (s.emul p).ax.shared.submitFlag = s.ax.shared.submitFlag := by
      simp only [OffloadSys.emul, EmulSys.emul, nonblockingEmulAx, hpc]
      split_ifs <;> exact ⟨rfl, rfl⟩
    rw [hsh.1, hsh.2]
    exact hcl f hf

/-- The initial store begins the account of the polling accelerator.  A waiting request is lost
when the status says that it was accepted, and reported as rejected otherwise. -/
theorem Booting.release (h : Booting s) (hpc : s.ax.frame.pc = .release) :
    (¬ Wipes s → Account [] (s.emul p)) ∧
      (Wipes s → ∃ c, Account [c] (s.emul p)) := by
  have hrec : recorded (s.emul p) = [] := by
    rw [recorded_emul, h.recorded_eq, hpc, List.nil_append]
  have hsucc : successes (s.emul p) = [] := h.successes_eq
  have hset : Settled (s.emul p).ax.shared (s.emul p).ax.frame.pc := by
    simp [OffloadSys.emul, EmulSys.emul, nonblockingEmulAx, hpc, Settled, Quiet]
  have haddr : (s.emul p).ax.shared.complAddr = s.ax.shared.complAddr ∧
      (s.emul p).ax.shared.submitStatus = s.ax.shared.submitStatus := by
    simp [OffloadSys.emul, EmulSys.emul, nonblockingEmulAx, hpc]
  have hcl' : (s.emul p).client = s.client := rfl
  have hne : ¬ offloadReceived = offloadRequested := by decide
  cases hc : s.client with
  | none =>
      refine ⟨fun _ => ⟨?_, ?_⟩, ?_⟩
      · rw [hcl', hc]
        exact hset
      · rw [hrec, hsucc, hcl', hc]
        rfl
      · rintro ⟨-, -, f, hf, -⟩
        simp [hc] at hf
  | some f =>
      obtain ⟨hr, hf⟩ := h.client f hc
      cases hx : f.pc with
      | clear | storeAddr | request =>
          simp only [hx] at hf
          refine ⟨fun _ => ⟨?_, ?_⟩, ?_⟩
          · rw [hcl', hc]
            simp [Sync, hx, hset, hr, haddr.1, hf]
          · rw [hrec, hsucc, hcl', hc]
            simp [awarded, hx]
          · rintro ⟨-, -, g, hg, hg'⟩
            obtain rfl := Option.some.inj (hc.symm.trans hg)
            simp [hx] at hg'
      | storeDst | wait =>
          have hans : Answered f (s.emul p).ax.shared (s.emul p).ax.frame.pc :=
            ⟨hset, fun _ => hr⟩
          have hsync : Sync (s.emul p).client (s.emul p).ax.shared (s.emul p).ax.frame.pc := by
            rw [hcl', hc]
            simp only [Sync, hx]
            exact .inr hans
          have haw : awarded (s.emul p).client (s.emul p).ax.shared (s.emul p).ax.frame.pc =
              if s.ax.shared.submitStatus = submitFail then [] else [f.comp] := by
            rw [hcl', hc]
            simp only [awarded, hx, hset.1, haddr.2, if_neg hne]
          refine ⟨fun hw => ⟨hsync, ?_⟩, fun hw => ⟨f.comp, hsync, ?_⟩⟩
          · have hfail : s.ax.shared.submitStatus = submitFail := by
              by_contra hn
              exact hw ⟨hpc, hn, f, hc, by simp [hx]⟩
            rw [hrec, hsucc, haw, if_pos hfail, List.append_nil]
          · rw [hrec, hsucc, haw, if_neg hw.2.1]
            rfl
      | check | returned r => simp [hx] at hf

/-- Until the initial store the system is booting; a safe run then keeps an account without
losses. -/
theorem preserved_safe : Preserved (SafeStep p) fun s => Booting s ∨ Account [] s := by
  rintro s s' ⟨hs, hsafe⟩ (hb | ha)
  · cases hs with
    | emul =>
        rcases hb.pc with hpc | hpc
        · exact .inl (hb.reset hpc)
        · exact .inr ((hb.release hpc).1 fun hw => hsafe ⟨hw, rfl⟩)
    | tick t ht => exact .inl ⟨hb.pc, hb.history, hb.returned, hb.client⟩
    | call comp dst hc =>
        refine .inl ⟨hb.pc, hb.history, hb.returned, fun f hf => ?_⟩
        obtain rfl := Option.some.inj hf
        exact ⟨rfl, trivial⟩
    | submit f hc => exact .inl (hb.submit hc)
    | ret f r hc hr =>
        have := (hb.client f hc).2
        simp [hr] at this
  · exact .inr (preserved_account [] hs ha)

/-! ## When no submission is lost -/

/-- From an empty list on, the accelerator holds or has completed what it has taken. -/
theorem held_eq_recorded (h : s.ax.Tallied []) : held s = recorded s := by
  unfold EmulSys.Tallied at h
  rw [held, ← h, List.nil_append, recorded]

theorem tallied_of_started {sh : Shared} {clock : ℕ}
    (hr : ReflTransGen (OffloadSys.Step p) (.started sh clock) s) : s.ax.Tallied [] :=
  (preserved_tallied []).run hr rfl

theorem Account.noneLost (h : Account [] s) (ht : s.ax.Tallied []) : NoneLost s := by
  intro c
  have e := congrArg (List.count c) h.taken
  rw [List.nil_append, List.count_append] at e
  rw [held_eq_recorded ht]
  omega

theorem Account.not_noneLost {c : ℕ} (h : Account [c] s) (ht : s.ax.Tallied [])
    (hc : s.client = none) : ¬ NoneLost s := by
  intro hn
  have e := congrArg (List.count c) (h.recorded_eq hc)
  rw [List.count_append, List.count_singleton_self] at e
  have := hn c
  rw [held_eq_recorded ht] at this
  omega

/-- A run is safe up to the first store that wipes a request. -/
theorem safe_or_wipes {s₀ : OffloadSys} (hr : ReflTransGen (OffloadSys.Step p) s₀ s) :
    ReflTransGen (SafeStep p) s₀ s ∨
      ∃ t, ReflTransGen (SafeStep p) s₀ t ∧ Wipes t ∧
        ReflTransGen (OffloadSys.Step p) (t.emul p) s := by
  induction hr with
  | refl => exact .inl .refl
  | @tail s s' _ hs ih =>
      rcases ih with hsafe | ⟨t, ht, hw, hr⟩
      · by_cases hw : Wipes s ∧ s' = s.emul p
        · obtain ⟨hw, rfl⟩ := hw
          exact .inr ⟨s, hsafe, hw, .refl⟩
        · exact .inl (hsafe.tail ⟨hs, hw⟩)
      · exact .inr ⟨t, ht, hw, hr.tail hs⟩

/-- In a run from the start of the accelerator no submission is lost as long as the initial store
does not wipe a request; and once it has, the loss shows as soon as no call is in progress.  An
entry counts as completed when its record has been written. -/
theorem startNonBlockingAx_noneLost (p : AxParams) (sh : Shared) (clock : ℕ) :
    (∀ s, ReflTransGen (SafeStep p) (.started sh clock) s → NoneLost s) ∧
    (∀ s, ReflTransGen (OffloadSys.Step p) (.started sh clock) s → s.client = none →
      (NoneLost s ↔ ReflTransGen (SafeStep p) (.started sh clock) s)) ∧
    ∀ s, ReflTransGen (OffloadSys.Step p) (.started sh clock) s →
      (∃ e t, s.ax.Completes p e t) ∨ s.ax.CompletesNone p := by
  have safe : ∀ s, ReflTransGen (SafeStep p) (.started sh clock) s → NoneLost s := by
    intro s hr
    have ht : s.ax.Tallied [] := tallied_of_started (hr.lift id fun _ _ h => h.1)
    rcases preserved_safe.run hr (.inl (booting_started sh clock)) with hb | ha
    · intro c
      simp [hb.successes_eq]
    · exact ha.noneLost ht
  refine ⟨safe, fun s hr hc => ⟨fun hn => ?_, safe s⟩, fun s _ => s.ax.completes_or_none p⟩
  rcases safe_or_wipes hr with h | ⟨t, ht, hw, hr'⟩
  · exact h
  · exfalso
    rcases preserved_safe.run ht (.inl (booting_started sh clock)) with hb | ha
    · obtain ⟨c, hacc⟩ := (hb.release (p := p) hw.1).2 hw
      exact ((preserved_account [c]).run hr' hacc).not_noneLost (tallied_of_started hr) hc hn
    · -- a polling accelerator is past its initial store
      obtain ⟨hpc, -, f, hf, hx⟩ := hw
      have := ha.sync
      rw [hf, hpc] at this
      rcases hx with hx | hx <;> simp [Sync, hx, Pending, Answered, Settled, Quiet] at this

/-- The first call after the first start: it waits before the accelerator's initial store, which
it takes for the answer, and finds the zero of a status that nobody has written. -/
def firstCall : List Choice :=
  [.call 7 9, .submit, .submit, .submit, .submit, .emul, .emul, .submit, .submit, .ret]

/-- The call reports success; nothing is on the list, is being pushed or has been completed. -/
theorem startNonBlockingAx_lost :
    ∃ s, ReflTransGen (OffloadSys.Step oneSlot) (.started .zero 0) s ∧
      s.returned = [(7, statusSuccess)] ∧ s.ax.frame.offloadInFlightList = [] ∧
      pushing s.ax.frame = [] ∧ completedIn s.ax.history = [] ∧ ¬ NoneLost s := by
  refine ⟨_, OffloadSys.run_of_schedule (l := firstCall) rfl, rfl, rfl, rfl, rfl, fun h => ?_⟩
  exact absurd (h 7) (by decide)

end XMPGym
