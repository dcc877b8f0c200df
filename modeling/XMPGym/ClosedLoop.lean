import XMPGym.Records
import XMPGym.RequestExecutors

/-!
# The closed-loop executors

The executors that start a new request whenever the oldest outstanding record is not ready.  They
keep the discipline of `InOrder` with `next_unstarted_req_idx` and
`next_request_offload_to_complete_idx` as its two counts, for every request body that swaps twice
and every device that writes records after their submission only.
-/

open Relation Transition

namespace XMPGym

variable {L M : Type*}

/-- A closed loop with its requests. -/
def ClosedLoop.program (e : ClosedLoop) (hw : Hardware M) (request : ℕ → List (Instr L M))
    (locals : ℕ → L) : Program ClosedFrame L M :=
  ⟨hw, e.executor hw, .init, request, locals⟩

/-! ## What the executor does -/

section executor

variable {e : ClosedLoop} {hw : Hardware M} {f g : ClosedFrame} {a : FcontextTransfer} {n : ℕ}
  {m : M}

/-- Two frames with the same indices and stored contexts. -/
structure ClosedFrame.SameIndices (f g : ClosedFrame) : Prop where
  unstarted : g.nextUnstartedReqIdx = f.nextUnstartedReqIdx
  toComplete : g.nextRequestOffloadToCompleteIdx = f.nextRequestOffloadToCompleteIdx
  xfer : g.offloadReqXfer = f.offloadReqXfer

theorem ClosedFrame.sameIndices_sample {clock : ℕ} (h : f.sample e n clock = some g) :
    f.SameIndices g := by
  simp only [sample] at h
  split at h
  · obtain rfl := Option.some.inj h
    exact ⟨rfl, rfl, rfl⟩
  · split_ifs at h <;> obtain rfl := Option.some.inj h <;> exact ⟨rfl, rfl, rfl⟩

theorem ClosedFrame.exetime_sample {clock : ℕ} (h : f.sample e n clock = some g) :
    g.exetime = f.exetime := by
  simp only [sample] at h
  split at h
  · obtain rfl := Option.some.inj h
    rfl
  · split_ifs at h <;> obtain rfl := Option.some.inj h <;> rfl

theorem ClosedFrame.sample_of_none {clock : ℕ} (h : e.sampling = none) :
    f.sample e n clock = some f := by
  simp [sample, h]

theorem ClosedLoop.executor_swap {t : Handle Ctx} {x : Data}
    (h : e.executor hw f a n m = .swap t x g) :
    f.pc = .loop ∧ f.nextRequestOffloadToCompleteIdx < e.totalRequests ∧
      ((e.ready (hw.status m f.nextRequestOffloadToCompleteIdx) = true ∧
          ∃ xfer, f.offloadReqXfer f.nextRequestOffloadToCompleteIdx = some xfer ∧
            t = xfer.prevContext ∧ g = { f with pc := .resumed }) ∨
        (e.ready (hw.status m f.nextRequestOffloadToCompleteIdx) = false ∧
          f.nextUnstartedReqIdx < e.totalRequests ∧
          t = fcontextCreate (.request f.nextUnstartedReqIdx) ∧
          g = { f with pc := .started })) := by
  simp only [executor] at h
  split at h
  · simp only [begin] at h
    split at h
    · cases h
    · split_ifs at h
  · next hpc =>
      refine ⟨hpc, ?_⟩
      split_ifs at h with h₁ h₂ h₃ h₄
      · split at h
        · next xfer hx =>
            obtain ⟨rfl, -, rfl⟩ := Act.swap.inj h
            exact ⟨h₂, .inl ⟨h₃, xfer, hx, rfl, rfl⟩⟩
        · cases h
      · obtain ⟨rfl, -, rfl⟩ := Act.swap.inj h
        exact ⟨h₂, .inr ⟨by simpa using h₃, h₄, rfl, rfl⟩⟩
  · cases h
  · split at h <;> cases h
  · simp only [finish] at h
    split at h
    · cases h
    · split at h <;> cases h
    · cases h

theorem ClosedLoop.executor_goto (h : e.executor hw f a n m = .goto g) :
    (f.pc = .begin ∧ g.pc = .loop ∧ f.SameIndices g ∧ g.exetime = f.exetime) ∨
      (f.pc = .loop ∧ g = f) ∨
      (f.pc = .loop ∧ e.totalRequests ≤ e.count f n ∧ g = { f with pc := .finish }) ∨
      (f.pc = .started ∧ g = { f with
          pc := .loop
          offloadReqXfer := Function.update f.offloadReqXfer f.nextUnstartedReqIdx (some a)
          nextUnstartedReqIdx := f.nextUnstartedReqIdx + 1 }) ∨
      (f.pc = .resumed ∧ ∃ f', { f with
          nextRequestOffloadToCompleteIdx := f.nextRequestOffloadToCompleteIdx + 1 }.sample e n
            (hw.clock m) = some f' ∧ g = { f' with pc := .loop }) := by
  simp only [executor] at h
  split at h
  · next hpc =>
      refine .inl ⟨hpc, ?_⟩
      simp only [begin] at h
      split at h
      · obtain rfl := Act.goto.inj h
        exact ⟨rfl, ⟨rfl, rfl, rfl⟩, rfl⟩
      · split_ifs at h
        obtain rfl := Act.goto.inj h
        exact ⟨rfl, ⟨rfl, rfl, rfl⟩, rfl⟩
  · next hpc =>
      split_ifs at h with h₁ h₂ h₃ h₄
      · split at h <;> cases h
      · obtain rfl := Act.goto.inj h
        exact .inr (.inl ⟨hpc, rfl⟩)
      · obtain rfl := Act.goto.inj h
        exact .inr (.inr (.inl ⟨hpc, by omega, rfl⟩))
  · next hpc =>
      obtain rfl := Act.goto.inj h
      exact .inr (.inr (.inr (.inl ⟨hpc, rfl⟩)))
  · next hpc =>
      split at h
      · next f' hf' =>
          obtain rfl := Act.goto.inj h
          exact .inr (.inr (.inr (.inr ⟨hpc, f', hf', rfl⟩)))
      · cases h
  · simp only [finish] at h
    split at h
    · cases h
    · split at h <;> cases h
    · cases h

theorem ClosedLoop.executor_exit (h : e.executor hw f a n m = .exit g) :
    f.pc = .finish ∧ g.pc = .finish ∧ f.SameIndices g := by
  simp only [executor] at h
  split at h
  · simp only [begin] at h
    split at h
    · cases h
    · split_ifs at h
  · split_ifs at h
    split at h <;> cases h
  · cases h
  · split at h <;> cases h
  · next hpc =>
      refine ⟨hpc, ?_⟩
      simp only [finish] at h
      split at h
      · obtain rfl := Act.exit.inj h
        exact ⟨hpc, rfl, rfl, rfl⟩
      · split at h
        · obtain rfl := Act.exit.inj h
          exact ⟨hpc, rfl, rfl, rfl⟩
        · cases h
      · obtain rfl := Act.exit.inj h
        exact ⟨hpc, rfl, rfl, rfl⟩

theorem ClosedLoop.executor_fault (h : e.executor hw f a n m = .fault) :
    (f.pc = .loop ∧ e.count f n < e.totalRequests ∧
        (f.nextRequestOffloadToCompleteIdx < e.totalRequests →
          e.ready (hw.status m f.nextRequestOffloadToCompleteIdx) = true ∧
            f.offloadReqXfer f.nextRequestOffloadToCompleteIdx = none)) ∨
      (f.pc = .begin ∧ e.begin f (hw.clock m) = .fault) ∨
      (f.pc = .resumed ∧ { f with
          nextRequestOffloadToCompleteIdx := f.nextRequestOffloadToCompleteIdx + 1 }.sample e n
            (hw.clock m) = none) ∨
      (f.pc = .finish ∧ e.finish f (hw.clock m) = .fault) := by
  simp only [executor] at h
  split at h
  · next hpc => exact .inr (.inl ⟨hpc, h⟩)
  · next hpc =>
      refine .inl ⟨hpc, ?_⟩
      split_ifs at h with h₁ h₂ h₃ h₄
      · split at h
        · cases h
        · next hx => exact ⟨h₁, fun _ => ⟨h₃, hx⟩⟩
      · exact ⟨h₁, fun h' => absurd h' h₂⟩
  · cases h
  · next hpc =>
      split at h
      · cases h
      · next hx => exact .inr (.inr (.inl ⟨hpc, hx⟩))
  · next hpc => exact .inr (.inr (.inr ⟨hpc, h⟩))

end executor

/-! ## The invariant -/

/-- How the executor's indices and position agree with the dispatch. -/
def ClosedFrame.Agrees {N : ℕ} (f : ClosedFrame) (d : InOrder N) (arrived : FcontextTransfer) :
    Prop :=
  match f.pc with
  | .begin | .loop | .finish =>
      d.turn = .scheduler ∧ f.nextUnstartedReqIdx = d.started ∧
        f.nextRequestOffloadToCompleteIdx = d.resumed
  | .started =>
      f.nextRequestOffloadToCompleteIdx = d.resumed ∧
        (d.turn = .starting ∧ f.nextUnstartedReqIdx = d.started ∨
          d.turn = .scheduler ∧ f.nextUnstartedReqIdx + 1 = d.started ∧ d.resumed < d.started ∧
            ∃ n, arrived.prevContext = ⟨.request f.nextUnstartedReqIdx, n + 1⟩)
  | .resumed =>
      f.nextUnstartedReqIdx = d.started ∧
        (d.turn = .resuming ∧ f.nextRequestOffloadToCompleteIdx = d.resumed ∨
          d.turn = .scheduler ∧ f.nextRequestOffloadToCompleteIdx + 1 = d.resumed)

/-- The invariant of a closed loop. -/
structure ClosedInv (e : ClosedLoop) (P : Program ClosedFrame L M) (submitted : M → ℕ → Prop)
    (d : InOrder e.totalRequests) (s : Sys ClosedFrame L M) : Prop where
  follows : Follows P d s
  recorded : Recorded P submitted d s.mem
  counted : CompletesOnce P → Counted d s
  agrees : s.frame.Agrees d s.arrived
  stored : ∀ j < s.frame.nextUnstartedReqIdx, ∃ x n,
    s.frame.offloadReqXfer j = some x ∧ x.prevContext = ⟨.request j, n + 1⟩
  jumped : ∀ w ∈ s.swaps, ∀ j, w.resume = some j → j < s.frame.nextUnstartedReqIdx ∧
    ∃ x, s.frame.offloadReqXfer j = some x ∧ x.prevContext = w.target
  running : d.turn = .scheduler → s.running = .at .executor ∨
    s.running = .exited ∧ s.frame.pc = .finish ∨ s.running = .fault ∧ e.sampling ≠ none
  finished : s.frame.pc = .finish → e.totalRequests ≤ e.count s.frame s.requestsCompleted

section invariant

variable {e : ClosedLoop} {hw : Hardware M} {request : ℕ → List (Instr L M)} {locals : ℕ → L}
  {submitted : M → ℕ → Prop} {m₀ : M} {d : InOrder e.totalRequests}
  {s s' : Sys ClosedFrame L M}

theorem closedInv_init (hc : Recorded (e.program hw request locals) submitted
    (.idle : InOrder e.totalRequests) m₀) :
    ClosedInv e (e.program hw request locals) submitted .idle
      (.init (e.program hw request locals) m₀) where
  follows := follows_init _ _ _
  recorded := hc
  counted _ := counted_init _ _ _
  agrees := ⟨rfl, rfl, rfl⟩
  stored j hj := absurd hj (Nat.not_lt_zero j)
  jumped w hw := by cases hw
  running _ := .inl rfl
  finished h := by cases h

/-- Closed loops have no fillers. -/
theorem ClosedInv.running_ne_filler {P : Program ClosedFrame L M} (h : ClosedInv e P submitted d s)
    (i : ℕ) : s.running ≠ .at (.filler i) := by
  intro hrun
  have ht := h.follows.scheduler (by rw [hrun]; rfl)
  rcases h.running ht with h' | ⟨h', -⟩ | ⟨h', -⟩ <;> simp [hrun] at h'

/-- The request that runs is one of them. -/
theorem ClosedInv.request_lt {P : Program ClosedFrame L M} (h : ClosedInv e P submitted d s) {i : ℕ}
    (hrun : s.running = .at (.request i)) : i < e.totalRequests := by
  have hle := d.started_le
  rcases h.follows.running (by rw [hrun]; rfl) with ⟨ht, rfl, -⟩ | ⟨ht, rfl, -⟩
  · exact d.starting_lt ht
  · have := d.resuming_lt ht
    omega

/-- A local step of the executor. -/
theorem ClosedInv.goto (h : ClosedInv e (e.program hw request locals) submitted d s)
    (hrun : s.running = .at .executor) {g : ClosedFrame}
    (hact : e.executor hw s.frame s.arrived s.requestsCompleted s.mem = .goto g) :
    ClosedInv e (e.program hw request locals) submitted d { s with frame := g } := by
  have ht := h.follows.scheduler_of_executor hrun
  have hag := h.agrees
  -- what is left to show of the new frame
  have key : g.Agrees d s.arrived → (∀ j < g.nextUnstartedReqIdx, ∃ x n,
      g.offloadReqXfer j = some x ∧ x.prevContext = ⟨.request j, n + 1⟩) →
      s.frame.nextUnstartedReqIdx ≤ g.nextUnstartedReqIdx →
      (∀ j < s.frame.nextUnstartedReqIdx, g.offloadReqXfer j = s.frame.offloadReqXfer j) →
      (g.pc = .finish → e.totalRequests ≤ e.count g s.requestsCompleted) →
      ClosedInv e (e.program hw request locals) submitted d { s with frame := g } := by
    intro h₁ h₂ h₃ h₄ h₅
    refine ⟨h.follows.congr rfl rfl rfl, h.recorded, fun hP => (h.counted hP).congr rfl rfl, h₁, h₂,
      fun w hw j hj => ?_, fun _ => .inl hrun, h₅⟩
    obtain ⟨hlt, hx⟩ := h.jumped w hw j hj
    exact ⟨Nat.lt_of_lt_of_le hlt h₃, (h₄ j hlt).symm ▸ hx⟩
  rcases ClosedLoop.executor_goto hact with ⟨hpc, hgpc, hsame, -⟩ | ⟨hpc, rfl⟩ | ⟨hpc, hle, rfl⟩ |
    ⟨hpc, rfl⟩ | ⟨hpc, f', hf', rfl⟩
  · simp only [ClosedFrame.Agrees, hpc] at hag
    refine key ?_ ?_ (Nat.le_of_eq hsame.unstarted.symm) (fun _ _ => by rw [hsame.xfer])
      (by simp [hgpc])
    · simp only [ClosedFrame.Agrees, hgpc, hsame.unstarted, hsame.toComplete]
      exact hag
    · simpa only [hsame.unstarted, hsame.xfer] using h.stored
  · exact key hag h.stored (Nat.le_refl _) (fun _ _ => rfl) h.finished
  · simp only [ClosedFrame.Agrees, hpc] at hag
    exact key hag h.stored (Nat.le_refl _) (fun _ _ => rfl) fun _ => hle
  · simp only [ClosedFrame.Agrees, hpc, ht] at hag
    obtain ⟨hnc, hst | ⟨-, hnu, -, n, hn⟩⟩ := hag
    · simp at hst
    · refine key ⟨ht, hnu, hnc⟩ (fun j hj => ?_) (Nat.le_succ _) (fun j hj => ?_) (by simp)
      · simp only at hj ⊢
        rcases eq_or_ne j s.frame.nextUnstartedReqIdx with rfl | hne
        · exact ⟨s.arrived, n, by simp, hn⟩
        · simpa only [Function.update_of_ne hne] using h.stored j (by omega)
      · exact Function.update_of_ne (by omega) _ _
  · simp only [ClosedFrame.Agrees, hpc, ht] at hag
    obtain ⟨hnu, hst | ⟨-, hnc⟩⟩ := hag
    · simp at hst
    · obtain ⟨hu, hco, hx⟩ := ClosedFrame.sameIndices_sample hf'
      refine key ⟨ht, hu.trans hnu, hco.trans hnc⟩ ?_ (Nat.le_of_eq hu.symm)
        (fun _ _ => by rw [hx]) (by simp)
      simpa only [hu, hx] using h.stored

/-- A record that is ready belongs to a request that has been started. -/
theorem ClosedInv.resumed_lt (h : ClosedInv e (e.program hw request locals) submitted d s)
    (hpend : e.ready compStatusPending = false) (ht : d.turn = .scheduler)
    (hco : s.frame.nextRequestOffloadToCompleteIdx = d.resumed)
    (hready : e.ready (hw.status s.mem s.frame.nextRequestOffloadToCompleteIdx) = true) :
    d.resumed < d.started := by
  apply InOrder.lt_started_of_stage (by simp [ht])
  intro hfr
  have := (h.recorded d.resumed hfr).1
  rw [hco, show hw.status s.mem d.resumed = compStatusPending from this, hpend] at hready
  cases hready

/-- The executor resumes the oldest request that waits, or starts the next one. -/
theorem ClosedInv.swap_target (h : ClosedInv e (e.program hw request locals) submitted d s)
    (hpend : e.ready compStatusPending = false) (hrun : s.running = .at .executor)
    {t : Handle Ctx} {x : Data} {g : ClosedFrame}
    (hact : e.executor hw s.frame s.arrived s.requestsCompleted s.mem = .swap t x g) :
    d.turn = .scheduler ∧ s.frame.nextUnstartedReqIdx = d.started ∧
      s.frame.nextRequestOffloadToCompleteIdx = d.resumed ∧
      ((∃ y n, s.frame.offloadReqXfer d.resumed = some y ∧ y.prevContext = t ∧
          t = ⟨.request d.resumed, n + 1⟩ ∧ d.resumed < d.started ∧
          e.ready (hw.status s.mem d.resumed) = true ∧ g = { s.frame with pc := .resumed }) ∨
        (t = fcontextCreate (.request d.started) ∧ d.started < e.totalRequests ∧
          s.request d.started = ⟨none, request d.started, locals d.started⟩ ∧
          g = { s.frame with pc := .started })) := by
  have ht := h.follows.scheduler_of_executor hrun
  have hag := h.agrees
  obtain ⟨hpc, hlt, ⟨hready, xfer, hx, rfl, rfl⟩ | ⟨-, hnu, rfl, rfl⟩⟩ :=
    ClosedLoop.executor_swap hact
  all_goals
    simp only [ClosedFrame.Agrees, hpc] at hag
    obtain ⟨-, hu, hco⟩ := hag
    refine ⟨ht, hu, hco, ?_⟩
  · have hres := h.resumed_lt hpend ht hco hready
    obtain ⟨y, n, hy, hown⟩ := h.stored d.resumed (by omega)
    rw [hco] at hx hready
    obtain rfl := Option.some.inj (hx.symm.trans hy)
    exact .inl ⟨xfer, n, hx, rfl, hown, hres, hready, rfl⟩
  · have hst := h.follows.stages d.started
    rw [d.stage_started, if_neg (by simp [ht])] at hst
    exact .inr ⟨by rw [hu], hu ▸ hnu, hst, rfl⟩

/-- The swaps of the executor keep the invariant. -/
theorem ClosedInv.swap (hP : TwoSwaps (e.program hw request locals))
    (h : ClosedInv e (e.program hw request locals) submitted d s)
    (hpend : e.ready compStatusPending = false) (hrun : s.running = .at .executor)
    {t : Handle Ctx} {x : Data} {g : ClosedFrame}
    (hact : e.executor hw s.frame s.arrived s.requestsCompleted s.mem = .swap t x g) :
    ∃ d', ClosedInv e (e.program hw request locals) submitted d'
      (Sys.fcontextSwap { s with frame := g } .executor t x) := by
  obtain ⟨ht, hu, hco, ⟨y, n, hy, hyt, rfl, hres, -, rfl⟩ | ⟨rfl, hst, -, rfl⟩⟩ :=
    h.swap_target hpend hrun hact
  · refine ⟨d.resume hres, h.follows.resume ht hres n _ _, ?_, fun hP => ?_, ?_, h.stored, ?_,
      (fun h' => by cases h'), (fun h' => by cases h')⟩
    · exact h.recorded.change (d.stage_resume ht hres) (by simp)
    · exact (h.counted hP).resume ht hres _ _ _
    · exact ⟨hu, .inl ⟨rfl, hco⟩⟩
    · intro w hw j hj
      rw [Sys.swap_swaps] at hw
      rcases List.mem_append.1 hw with hw | hw
      · exact h.jumped w hw j hj
      · obtain rfl := List.mem_singleton.1 hw
        obtain rfl := Option.some.inj hj
        exact ⟨by rw [← hu] at hres; exact hres, y, hy, hyt⟩
  · refine ⟨d.start hst, h.follows.start hP ht hst _ _, ?_, fun hP => ?_, ?_, h.stored, ?_,
      (fun h' => by cases h'), (fun h' => by cases h')⟩
    · exact h.recorded.change (d.stage_start ht hst) (by simp)
    · exact (h.counted hP).start ht hst _ _
    · exact ⟨hco, .inl ⟨rfl, hu⟩⟩
    · intro w hw j hj
      rw [Sys.swap_swaps] at hw
      rcases List.mem_append.1 hw with hw | hw
      · exact h.jumped w hw j hj
      · obtain rfl := List.mem_singleton.1 hw
        cases hj

/-- The executor never uses an index out of bounds or a context that was not stored. -/
theorem ClosedInv.fault_pc
    (hon : e.onCompleted = true → CompletesOnce (e.program hw request locals))
    (h : ClosedInv e (e.program hw request locals) submitted d s)
    (hpend : e.ready compStatusPending = false) (hrun : s.running = .at .executor)
    (hact : e.executor hw s.frame s.arrived s.requestsCompleted s.mem = .fault) :
    (s.frame.pc = .begin ∧ e.begin s.frame (hw.clock s.mem) = .fault) ∨
      (s.frame.pc = .resumed ∧ { s.frame with nextRequestOffloadToCompleteIdx :=
          s.frame.nextRequestOffloadToCompleteIdx + 1 }.sample e s.requestsCompleted
            (hw.clock s.mem) = none) ∨
      (s.frame.pc = .finish ∧ e.finish s.frame (hw.clock s.mem) = .fault) := by
  rcases ClosedLoop.executor_fault hact with ⟨hpc, hlt, hlast⟩ | hrest
  · exfalso
    have ht := h.follows.scheduler_of_executor hrun
    have hag := h.agrees
    simp only [ClosedFrame.Agrees, hpc] at hag
    obtain ⟨-, hu, hco⟩ := hag
    have hnc : s.frame.nextRequestOffloadToCompleteIdx < e.totalRequests := by
      cases hc : e.onCompleted with
      | false => simpa [ClosedLoop.count, hc] using hlt
      | true =>
          have := (h.counted (hon hc)).count
          simp only [ht, reduceCtorEq, if_false, Nat.add_zero] at this
          simp only [ClosedLoop.count, hc, if_true] at hlt
          omega
    obtain ⟨hready, hnone⟩ := hlast hnc
    have hres := h.resumed_lt hpend ht hco hready
    obtain ⟨y, n, hy, -⟩ := h.stored d.resumed (by omega)
    rw [hco, hy] at hnone
    cases hnone
  · exact hrest

/-- The only faults are those of sampling. -/
theorem ClosedInv.fault (hon : e.onCompleted = true → CompletesOnce (e.program hw request locals))
    (h : ClosedInv e (e.program hw request locals) submitted d s)
    (hpend : e.ready compStatusPending = false) (hrun : s.running = .at .executor)
    (hact : e.executor hw s.frame s.arrived s.requestsCompleted s.mem = .fault) :
    e.sampling ≠ none := by
  intro hs
  rcases h.fault_pc hon hpend hrun hact with ⟨-, h'⟩ | ⟨-, h'⟩ | ⟨-, h'⟩
  · simp only [ClosedLoop.begin, hs] at h'
    cases h'
  · rw [ClosedFrame.sample_of_none hs] at h'
    cases h'
  · simp only [ClosedLoop.finish, hs] at h'
    split at h'
    · cases h'
    · next he => cases he
    · cases h'

theorem ClosedFrame.Agrees.pc_ne_finish {N : ℕ} {f : ClosedFrame} {d : InOrder N}
    {a : FcontextTransfer} (h : f.Agrees d a) (ht : d.turn ≠ .scheduler) : f.pc ≠ .finish := by
  intro hpc
  simp only [Agrees, hpc] at h
  exact ht h.1

/-- A request hands control back. -/
theorem ClosedInv.back (h : ClosedInv e (e.program hw request locals) submitted d s) {i n : ℕ}
    {c : List (Instr L M)} (hrun : s.running = .at (.request i))
    (hcode : (s.request i).code = .swap :: c) :
    ∃ d', ClosedInv e (e.program hw request locals) submitted d'
      ((s.setCode i c).fcontextSwap (.request i) ⟨.executor, n⟩ .null) := by
  have hag := h.agrees
  have hne := hag.pc_ne_finish (h.follows.turn_ne hrun)
  obtain ⟨k, hk⟩ := s.handles.jump_eq (.request i) ⟨.executor, n⟩
  have hjumped : ∀ w ∈ ((s.setCode i c).fcontextSwap (.request i) ⟨.executor, n⟩ .null).swaps,
      ∀ j, w.resume = some j → j < s.frame.nextUnstartedReqIdx ∧
        ∃ x, s.frame.offloadReqXfer j = some x ∧ x.prevContext = w.target := by
    intro w hw j hj
    rw [Sys.swap_swaps] at hw
    rcases List.mem_append.1 hw with hw | hw
    · exact h.jumped w hw j hj
    · obtain rfl := List.mem_singleton.1 hw
      cases hj
  rcases h.follows.back (n := n) (x := .null) hrun hcode with ⟨ht, rfl, hf⟩ | ⟨ht, rfl, hf⟩
  · refine ⟨d.yield ht, hf, ?_, fun hP => ?_, ?_, h.stored, hjumped, fun _ => .inl rfl,
      fun h' => absurd h' hne⟩
    · exact h.recorded.change (d.stage_yield ht) (by simp)
    · exact ((h.counted hP).back hP h.follows hrun hcode).1 ht
    · cases hpc : s.frame.pc <;> simp only [ClosedFrame.Agrees, hpc, ht] at hag
      case started =>
        obtain ⟨hnc, ⟨-, hnu⟩ | ⟨h', -⟩⟩ := hag
        · simp only [ClosedFrame.Agrees, Sys.swap_frame, Sys.setCode, hpc]
          exact ⟨hnc, .inr ⟨rfl, by rw [hnu]; rfl, Nat.lt_succ_of_le d.resumed_le, k,
            by rw [hnu]; exact hk⟩⟩
        · cases h'
      case resumed =>
        obtain ⟨-, ⟨h', -⟩ | ⟨h', -⟩⟩ := hag <;> cases h'
      all_goals exact absurd hag.1 (by simp)
  · refine ⟨d.finish ht, hf, ?_, fun hP => ?_, ?_, h.stored, hjumped, fun _ => .inl rfl,
      fun h' => absurd h' hne⟩
    · exact h.recorded.change (d.stage_finish ht) (by simp)
    · exact ((h.counted hP).back hP h.follows hrun hcode).2 ht
    · cases hpc : s.frame.pc <;> simp only [ClosedFrame.Agrees, hpc, ht] at hag
      case resumed =>
        obtain ⟨hnu, ⟨-, hnc⟩ | ⟨h', -⟩⟩ := hag
        · simp only [ClosedFrame.Agrees, Sys.swap_frame, Sys.setCode, hpc]
          exact ⟨hnu, .inr ⟨rfl, by rw [hnc]; rfl⟩⟩
        · cases h'
      case started =>
        obtain ⟨-, ⟨h', -⟩ | ⟨h', -⟩⟩ := hag <;> cases h'
      all_goals exact absurd hag.1 (by simp)

/-- Every step of a closed loop keeps the invariant, for some next state of the dispatch. -/
theorem ClosedInv.step (hP : TwoSwaps (e.program hw request locals))
    (hc : RecordRules (e.program hw request locals) submitted s)
    (hon : e.onCompleted = true → CompletesOnce (e.program hw request locals))
    (hpend : e.ready compStatusPending = false)
    (h : ClosedInv e (e.program hw request locals) submitted d s)
    (hs : Sys.Step (e.program hw request locals) s s') :
    ∃ d', ClosedInv e (e.program hw request locals) submitted d' s' := by
  cases h.follows.move hs with
  | hw m hm =>
      exact ⟨d, h.follows.congr rfl rfl rfl, h.recorded.device hc hm,
        fun hP => (h.counted hP).congr rfl rfl, h.agrees, h.stored, h.jumped, h.running, h.finished⟩
  | goto g hrun hact => exact ⟨d, h.goto hrun hact⟩
  | exit g hrun hact =>
      obtain ⟨hpc, hgpc, hu, hco, hx⟩ := ClosedLoop.executor_exit hact
      have hag := h.agrees
      simp only [ClosedFrame.Agrees, hpc] at hag
      have ha : Running.exited.request = s.running.request := by rw [hrun]; rfl
      refine ⟨d, h.follows.congr rfl ha rfl, h.recorded, fun hP => (h.counted hP).congr rfl rfl,
        ?_, ?_, ?_, fun _ => .inr (.inl ⟨rfl, hgpc⟩), fun _ => ?_⟩
      · simpa only [ClosedFrame.Agrees, hgpc, hu, hco] using hag
      · simpa only [hu, hx] using h.stored
      · simpa only [hu, hx] using h.jumped
      · simpa only [ClosedLoop.count, hco] using h.finished hpc
  | fault hrun hact =>
      have hs := h.fault hon hpend hrun hact
      have ha : Running.fault.request = s.running.request := by rw [hrun]; rfl
      exact ⟨d, h.follows.congr rfl ha rfl, h.recorded, fun hP => (h.counted hP).congr rfl rfl,
        h.agrees, h.stored, h.jumped, fun _ => .inr (.inr ⟨rfl, hs⟩), h.finished⟩
  | swap t x g hrun hact => exact h.swap hP hpend hrun hact
  | op i f c hrun hcode =>
      exact ⟨d, h.follows.op hrun hcode, h.recorded.op hc h.follows hrun hcode,
        fun hP => (h.counted hP).op hcode, h.agrees, h.stored, h.jumped,
        fun ht => absurd ht (h.follows.turn_ne hrun), h.finished⟩
  | completed i c hrun hcode =>
      have hne := h.agrees.pc_ne_finish (h.follows.turn_ne hrun)
      exact ⟨d, h.follows.completed hrun hcode, h.recorded,
        fun hP => (h.counted hP).completed hP h.follows hrun hcode, h.agrees, h.stored, h.jumped,
        fun ht => absurd ht (h.follows.turn_ne hrun), fun h' => absurd h' hne⟩
  | back i n c x hrun hcode harg => exact h.back hrun hcode
  | filler i hrun => exact absurd hrun (h.running_ne_filler i)

/-- The invariant holds in every reachable state. -/
theorem closedInv_of_reachable (hP : TwoSwaps (e.program hw request locals))
    (hc : RecordContract (e.program hw request locals) submitted m₀)
    (hon : e.onCompleted = true → CompletesOnce (e.program hw request locals))
    (hpend : e.ready compStatusPending = false)
    (hr : Sys.Reachable (e.program hw request locals) m₀ s) :
    ∃ d, ClosedInv e (e.program hw request locals) submitted d s := by
  induction hr with
  | refl => exact ⟨.idle, closedInv_init (hc.recorded_init _)⟩
  | tail hr hs ih =>
      obtain ⟨d, h⟩ := ih
      exact h.step hP (hc.rules _ hr) hon hpend hs

/-! ## Consequences -/

theorem ClosedInv.indices_le (h : ClosedInv e (e.program hw request locals) submitted d s) :
    s.frame.nextRequestOffloadToCompleteIdx ≤ s.frame.nextUnstartedReqIdx ∧
      s.frame.nextUnstartedReqIdx ≤ e.totalRequests := by
  have hag := h.agrees
  have h₁ := d.resumed_le
  have h₂ := d.started_le
  cases hpc : s.frame.pc <;> simp only [ClosedFrame.Agrees, hpc] at hag
  case started =>
    rcases hag with ⟨hnc, ⟨ht, hnu⟩ | ⟨-, hnu, hlt, -⟩⟩
    · exact ⟨by omega, by omega⟩
    · exact ⟨by omega, by omega⟩
  case resumed =>
    rcases hag with ⟨hnu, ⟨ht, hnc⟩ | ⟨-, hnc⟩⟩
    · exact ⟨by omega, by omega⟩
    · exact ⟨by omega, by omega⟩
  all_goals exact ⟨by omega, by omega⟩

/-- On exit every request is done. -/
theorem ClosedInv.all_resumed
    (hon : e.onCompleted = true → CompletesOnce (e.program hw request locals))
    (h : ClosedInv e (e.program hw request locals) submitted d s) (hrun : s.running = .exited) :
    d.turn = .scheduler ∧ d.resumed = e.totalRequests ∧ d.started = e.totalRequests := by
  have ht := h.follows.scheduler (by rw [hrun]; rfl)
  have h₁ := d.resumed_le
  have h₂ := d.started_le
  obtain hr | ⟨-, hpc⟩ | ⟨hr, -⟩ := h.running ht
  · simp [hrun] at hr
  · have hag := h.agrees
    simp only [ClosedFrame.Agrees, hpc] at hag
    have hcount : e.count s.frame s.requestsCompleted = d.resumed := by
      cases hc : e.onCompleted with
      | false => simpa [ClosedLoop.count, hc] using hag.2.2
      | true =>
          have := (h.counted (hon hc)).count
          simpa [ClosedLoop.count, hc, ht] using this
    have hle := h.finished hpc
    exact ⟨ht, by omega, by omega⟩
  · simp [hrun] at hr

/-- On exit every request has been started and resumed. -/
theorem ClosedInv.exited (hon : e.onCompleted = true → CompletesOnce (e.program hw request locals))
    (h : ClosedInv e (e.program hw request locals) submitted d s) (hrun : s.running = .exited) :
    s.starts = List.range e.totalRequests ∧ s.resumes = List.range e.totalRequests := by
  obtain ⟨ht, hres, hst⟩ := h.all_resumed hon hrun
  rw [h.follows.starts, h.follows.resumes]
  simp only [InOrder.starts, InOrder.resumes, ht, reduceCtorEq, if_false]
  exact ⟨congrArg _ hst, congrArg _ hres⟩

end invariant

/-! ## The contexts that are entered -/

/-- The executor's own context, or that of one of the `N` requests. -/
def Ctx.Below (N : ℕ) : Ctx → Prop
  | .executor => True
  | .request i => i < N
  | .filler _ => False

/-- Whatever the device does to the records, only the contexts of the loop's requests run, and only
they are handed around. -/
structure Enclosed (N : ℕ) (s : Sys ClosedFrame L M) : Prop where
  running : ∀ c, s.running = .at c → c.Below N
  arrived : s.arrived.prevContext.owner.Below N
  stored : ∀ j x, s.frame.offloadReqXfer j = some x → x.prevContext.owner.Below N
  entered : ∀ i x, (s.request i).arg = some x → x.prevContext.owner.Below N

section enclosed

variable {e : ClosedLoop} {hw : Hardware M} {request : ℕ → List (Instr L M)} {locals : ℕ → L}
  {N : ℕ} {s s' : Sys ClosedFrame L M}

theorem enclosed_init (m : M) : Enclosed N (.init (e.program hw request locals) m) where
  running c hc := by
    obtain rfl := Running.at.inj hc
    trivial
  arrived := trivial
  stored j x hx := by cases hx
  entered i x hx := by cases hx

/-- A swap between two of the contexts. -/
theorem Enclosed.fcontextSwap (h : Enclosed N s) {self : Ctx} {t : Handle Ctx} (d : Data)
    (hself : self.Below N) (ht : t.owner.Below N) : Enclosed N (s.fcontextSwap self t d) := by
  obtain ⟨o, n⟩ := t
  cases o with
  | executor =>
      refine ⟨fun c hc => ?_, hself, h.stored, h.entered⟩
      obtain rfl := Running.at.inj hc
      trivial
  | request k =>
      refine ⟨fun c hc => ?_, h.arrived, h.stored, fun i x hx => ?_⟩
      · obtain rfl := Running.at.inj hc
        exact ht
      · rw [Sys.swap_request_request] at hx
        rcases eq_or_ne i k with rfl | hne
        · rw [Function.update_self, Option.some.injEq] at hx
          subst hx
          cases harg : (s.request i).arg with
          | none => exact hself
          | some y => exact h.entered i y harg
        · rw [Function.update_of_ne hne] at hx
          exact h.entered i x hx
  | filler k => exact absurd ht id

/-- Steps that hand nothing around. -/
theorem Enclosed.congr (h : Enclosed N s)
    (hrun : ∀ c, s'.running = .at c → s.running = .at c) (harrived : s'.arrived = s.arrived)
    (hxfer : ∀ j x, s'.frame.offloadReqXfer j = some x →
      s.frame.offloadReqXfer j = some x ∨ x = s.arrived)
    (harg : ∀ i, (s'.request i).arg = (s.request i).arg) : Enclosed N s' where
  running c hc := h.running c (hrun c hc)
  arrived := harrived ▸ h.arrived
  stored j x hx := by
    rcases hxfer j x hx with hx | rfl
    · exact h.stored j x hx
    · exact h.arrived
  entered i x hx := h.entered i x (harg i ▸ hx)

/-- A local step stores at most the transfer that has arrived. -/
theorem ClosedLoop.stored_of_goto {f g : ClosedFrame} {a : FcontextTransfer} {n : ℕ} {m : M}
    (hact : e.executor hw f a n m = .goto g) {j : ℕ} {x : FcontextTransfer}
    (hx : g.offloadReqXfer j = some x) : f.offloadReqXfer j = some x ∨ x = a := by
  rcases ClosedLoop.executor_goto hact with ⟨-, -, hg, -⟩ | ⟨-, rfl⟩ | ⟨-, -, rfl⟩ | ⟨-, rfl⟩ |
    ⟨-, f', hf', rfl⟩
  · exact .inl (hg.xfer ▸ hx)
  · exact .inl hx
  · exact .inl hx
  · rcases eq_or_ne j f.nextUnstartedReqIdx with rfl | hne
    · simp only [Function.update_self, Option.some.injEq] at hx
      exact .inr hx.symm
    · simp only [Function.update_of_ne hne] at hx
      exact .inl hx
  · have hsame := (ClosedFrame.sameIndices_sample hf').xfer
    exact .inl (hsame ▸ hx)

/-- A request hands control to the context that it was entered from. -/
theorem Enclosed.instr (h : Enclosed N s) {i : ℕ} (hrun : s.running = .at (.request i))
    (c : List (Instr L M)) (ins : Instr L M) : Enclosed N (s.instr i c ins) := by
  have hset (r : RequestFiber L M) (harg : r.arg = (s.request i).arg) (k : ℕ) :
      (Function.update s.request i r k).arg = (s.request k).arg := by
    rcases eq_or_ne k i with rfl | hne
    · rw [Function.update_self, harg]
    · rw [Function.update_of_ne hne]
  cases ins with
  | op f =>
      refine h.congr (fun c hc => ?_) rfl (fun _ _ hx => .inl hx) (hset _ rfl)
      simp only [Sys.instr] at hc
      split_ifs at hc
      exact hc
  | completed =>
      exact h.congr (fun _ hc => hc) rfl (fun _ _ hx => .inl hx) (hset _ rfl)
  | swap =>
      simp only [Sys.instr]
      split
      · next x hx =>
          have hcode : Enclosed N (s.setCode i c) :=
            h.congr (fun _ hc => hc) rfl (fun _ _ hx => .inl hx) (hset _ rfl)
          exact hcode.fcontextSwap .null (h.running _ hrun) (h.entered i x hx)
      · exact h.congr (fun _ hc => by cases hc) rfl (fun _ _ hx => .inl hx) fun _ => rfl

theorem Enclosed.step (h : Enclosed e.totalRequests s)
    (hs : Sys.Step (e.program hw request locals) s s') : Enclosed e.totalRequests s' := by
  cases hs with
  | hw m hm => exact h.congr (fun _ hc => hc) rfl (fun _ _ hx => .inl hx) fun _ => rfl
  | thread _ hs =>
      simp only [Sys.thread] at hs
      split at hs
      · next hrun =>
          obtain rfl := Option.some.inj hs
          simp only [Sys.executorStep]
          split
          · next f hact =>
              exact h.congr (fun _ hc => hc) rfl
                (fun _ _ hx => ClosedLoop.stored_of_goto hact hx) fun _ => rfl
          · next t x f hact =>
              have hswap := ClosedLoop.executor_swap hact
              have hf : f.offloadReqXfer = s.frame.offloadReqXfer := by
                obtain ⟨-, -, ⟨-, y, -, -, rfl⟩ | ⟨-, -, -, rfl⟩⟩ := hswap <;> rfl
              have hframe : Enclosed e.totalRequests { s with frame := f } :=
                h.congr (fun _ hc => hc) rfl (fun _ _ hx => .inl (hf ▸ hx)) fun _ => rfl
              refine hframe.fcontextSwap x trivial ?_
              obtain ⟨-, -, ⟨-, y, hy, rfl, -⟩ | ⟨-, hlt, rfl, -⟩⟩ := hswap
              · exact h.stored _ y hy
              · exact hlt
          · next f hact =>
              have hf := (ClosedLoop.executor_exit hact).2.2.xfer
              exact h.congr (fun _ hc => by cases hc) rfl (fun _ _ hx => .inl (hf ▸ hx))
                fun _ => rfl
          · next hact =>
              exact h.congr (fun _ hc => by cases hc) rfl (fun _ _ hx => .inl hx) fun _ => rfl
      · next i hrun =>
          obtain rfl := Option.some.inj hs
          simp only [Sys.requestStep]
          split
          · exact h.congr (fun _ hc => by cases hc) rfl (fun _ _ hx => .inl hx) fun _ => rfl
          · next ins c hc => exact h.instr hrun c ins
      · next i hrun => exact absurd (h.running _ hrun) id
      · cases hs

/-- A request that runs in a closed loop is one of the loop's. -/
theorem request_lt_of_reachable {m₀ : M}
    (hr : Sys.Reachable (e.program hw request locals) m₀ s) {i : ℕ}
    (hrun : s.running = .at (.request i)) : i < e.totalRequests := by
  have key : Preserved (Sys.Step (e.program hw request locals)) (Enclosed e.totalRequests) :=
    fun _ _ hs h => h.step hs
  exact (key.run hr (enclosed_init m₀)).running _ hrun

end enclosed

end XMPGym
