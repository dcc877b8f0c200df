import XMPGym.RequestExecutors
import XMPGym.Records

/-!
# The blocking executors

They start one request after the other; a request comes back once, when it is done.
-/

open Relation Transition

namespace XMPGym

variable {L M : Type*}

/-- A blocking loop with its requests. -/
def BlockingLoop.program (e : BlockingLoop) (hw : Hardware M) (request : ℕ → List (Instr L M))
    (locals : ℕ → L) : Program BlockingFrame L M :=
  ⟨hw, e.executor hw, .init, request, locals⟩

/-- Every request swaps once, when it is done. -/
def OneSwap {F : Type*} (P : Program F L M) : Prop := ∀ i, swapsLeft (P.request i) = 1

/-! ## What the executor does -/

section executor

variable {e : BlockingLoop} {hw : Hardware M} {f g : BlockingFrame} {a : FcontextTransfer} {n : ℕ}
  {m : M}

theorem BlockingLoop.executor_swap {t : Handle Ctx} {x : Data}
    (h : e.executor hw f a n m = .swap t x g) :
    f.pc = .loop ∧ f.nextUnstartedReqIdx < e.totalRequests ∧
      t = fcontextCreate (.request f.nextUnstartedReqIdx) ∧ g = { f with pc := .returned } := by
  simp only [executor] at h
  split at h
  · cases h
  · next hpc =>
      split_ifs at h with hlt
      obtain ⟨rfl, -, rfl⟩ := Act.swap.inj h
      exact ⟨hpc, hlt, rfl, rfl⟩
  · cases h
  · split at h <;> cases h

theorem BlockingLoop.executor_goto (h : e.executor hw f a n m = .goto g) :
    (f.pc = .begin ∧ g.pc = .loop ∧ g.nextUnstartedReqIdx = f.nextUnstartedReqIdx) ∨
      (f.pc = .loop ∧ e.totalRequests ≤ f.nextUnstartedReqIdx ∧ g = { f with pc := .finish }) ∨
      (f.pc = .returned ∧
        g = { f with pc := .loop, nextUnstartedReqIdx := f.nextUnstartedReqIdx + 1 }) := by
  simp only [executor] at h
  split at h
  · next hpc =>
      obtain rfl := Act.goto.inj h
      exact .inl ⟨hpc, rfl, rfl⟩
  · next hpc =>
      split_ifs at h with hlt
      obtain rfl := Act.goto.inj h
      exact .inr (.inl ⟨hpc, by omega, rfl⟩)
  · next hpc =>
      obtain rfl := Act.goto.inj h
      exact .inr (.inr ⟨hpc, rfl⟩)
  · split at h <;> cases h

theorem BlockingLoop.executor_exit (h : e.executor hw f a n m = .exit g) :
    f.pc = .finish ∧ g.pc = .finish ∧ g.nextUnstartedReqIdx = f.nextUnstartedReqIdx := by
  simp only [executor] at h
  split at h
  · cases h
  · split_ifs at h
  · cases h
  · next hpc =>
      split at h <;> obtain rfl := Act.exit.inj h <;> exact ⟨hpc, hpc, rfl⟩

theorem BlockingLoop.executor_fault (h : e.executor hw f a n m = .fault) : False := by
  simp only [executor] at h
  split at h
  · cases h
  · split_ifs at h
  · cases h
  · split at h <;> cases h

end executor

/-! ## The invariant -/

/-- The invariant of a blocking loop: the requests before the index are done, those after it have
not been entered. -/
structure BlockingInv (N : ℕ) (P : Program BlockingFrame L M) (s : Sys BlockingFrame L M) :
    Prop where
  le : s.frame.nextUnstartedReqIdx ≤ N
  done : ∀ i < s.frame.nextUnstartedReqIdx, swapsLeft (s.request i).code = 0
  fresh : ∀ i, s.frame.nextUnstartedReqIdx < i ∨
    i = s.frame.nextUnstartedReqIdx ∧ s.frame.pc ≠ .returned →
      s.request i = ⟨none, P.request i, P.locals i⟩
  current : s.frame.pc = .returned → s.frame.nextUnstartedReqIdx < N ∧
    (s.running.request = some s.frame.nextUnstartedReqIdx ∧
        InBody P s.frame.nextUnstartedReqIdx 1 (s.request s.frame.nextUnstartedReqIdx) ∨
      s.running = .at .executor ∧
        swapsLeft (s.request s.frame.nextUnstartedReqIdx).code = 0)
  running : s.frame.pc ≠ .returned → s.running = .at .executor ∨
    s.running = .exited ∧ s.frame.pc = .finish
  finished : s.frame.pc = .finish → N ≤ s.frame.nextUnstartedReqIdx

section invariant

variable {e : BlockingLoop} {hw : Hardware M} {request : ℕ → List (Instr L M)} {locals : ℕ → L}
  {P : Program BlockingFrame L M} {N : ℕ} {m₀ : M} {s s' : Sys BlockingFrame L M}

theorem blockingInv_init :
    BlockingInv N (e.program hw request locals) (.init (e.program hw request locals) m₀) where
  le := Nat.zero_le _
  done i hi := absurd hi (Nat.not_lt_zero i)
  fresh i _ := rfl
  current h := by cases h
  running _ := .inl rfl
  finished h := by cases h

/-- The request that runs is the one of the index. -/
theorem BlockingInv.of_request (h : BlockingInv N P s) {i : ℕ}
    (hrun : s.running.request = some i) :
    s.frame.pc = .returned ∧ i = s.frame.nextUnstartedReqIdx ∧ i < N ∧
      InBody P i 1 (s.request i) := by
  by_cases hpc : s.frame.pc = .returned
  · obtain ⟨hlt, ⟨hr, hb⟩ | ⟨hr, -⟩⟩ := h.current hpc
    · obtain rfl := Option.some.inj (hr.symm.trans hrun)
      exact ⟨hpc, rfl, hlt, hb⟩
    · rw [hr] at hrun
      cases hrun
  · rcases h.running hpc with hr | ⟨hr, -⟩ <;> rw [hr] at hrun <;> cases hrun

theorem BlockingInv.not_filler (h : BlockingInv N P s) {i : ℕ}
    (hrun : s.running = .at (.filler i)) : False := by
  by_cases hpc : s.frame.pc = .returned
  · obtain ⟨-, ⟨hr, -⟩ | ⟨hr, -⟩⟩ := h.current hpc <;> rw [hrun] at hr <;> cases hr
  · rcases h.running hpc with hr | ⟨hr, -⟩ <;> rw [hrun] at hr <;> cases hr

theorem BlockingInv.move (h : BlockingInv N P s) (hs : Sys.Step P s s') : Move P s s' := by
  refine .of_step (fun i hrun => ⟨1, Nat.one_pos, ?_⟩) hs
  exact (h.of_request (by rw [hrun]; rfl)).2.2.2

/-- The request that runs changes. -/
theorem BlockingInv.change (h : BlockingInv N P s) {i : ℕ} (hrun : s.running.request = some i)
    {r : RequestFiber L M} (hr : s'.request = Function.update s.request i r)
    (hf : s'.frame = s.frame)
    (hc : s'.running.request = some i ∧ InBody P i 1 r ∨
      s'.running = .at .executor ∧ swapsLeft r.code = 0) : BlockingInv N P s' := by
  obtain ⟨hpc, rfl, hlt, -⟩ := h.of_request hrun
  refine ⟨hf ▸ h.le, fun j hj => ?_, fun j hj => ?_, fun _ => ?_, fun h' => absurd (hf ▸ hpc) h',
    fun h' => ?_⟩
  · rw [hf] at hj
    rw [hr, Function.update_of_ne (by omega)]
    exact h.done j hj
  · rw [hf] at hj
    rcases hj with hj | ⟨-, hj⟩
    · rw [hr, Function.update_of_ne (by omega)]
      exact h.fresh j (.inl hj)
    · exact absurd hpc hj
  · rw [hf, hr, Function.update_self]
    exact ⟨hlt, hc⟩
  · rw [hf, hpc] at h'
    cases h'

theorem BlockingInv.goto (h : BlockingInv e.totalRequests P s) (hrun : s.running = .at .executor)
    {g : BlockingFrame}
    (hact : e.executor hw s.frame s.arrived s.requestsCompleted s.mem = .goto g) :
    BlockingInv e.totalRequests P { s with frame := g } := by
  rcases BlockingLoop.executor_goto hact with ⟨hpc, hgpc, hi⟩ | ⟨hpc, hle, rfl⟩ | ⟨hpc, rfl⟩
  · refine ⟨hi ▸ h.le, fun j hj => ?_, fun j hj => ?_, fun h' => ?_, fun _ => .inl hrun,
      fun h' => ?_⟩
    · rw [hi] at hj
      exact h.done j hj
    · rw [hi] at hj
      apply h.fresh j
      simpa [hpc, hgpc] using hj
    · rw [hgpc] at h'
      cases h'
    · rw [hgpc] at h'
      cases h'
  · refine ⟨h.le, h.done, fun j hj => ?_, fun h' => (by cases h'), fun _ => .inl hrun, fun _ => hle⟩
    apply h.fresh j
    simpa [hpc] using hj
  · obtain ⟨hlt, ⟨hr, -⟩ | ⟨-, hz⟩⟩ := h.current hpc
    · rw [hrun] at hr
      cases hr
    · refine ⟨hlt, fun j hj => ?_, fun j hj => ?_, fun h' => (by cases h'), fun _ => .inl hrun,
        fun h' => (by cases h')⟩
      · rcases Nat.lt_succ_iff_lt_or_eq.1 hj with hj | rfl
        · exact h.done j hj
        · exact hz
      · simp only at hj
        exact h.fresh j (.inl (by omega))

theorem BlockingInv.swap (hP : OneSwap P) (h : BlockingInv e.totalRequests P s)
    {t : Handle Ctx} {x : Data} {g : BlockingFrame}
    (hact : e.executor hw s.frame s.arrived s.requestsCompleted s.mem = .swap t x g) :
    BlockingInv e.totalRequests P (Sys.fcontextSwap { s with frame := g } .executor t x) := by
  obtain ⟨hpc, hlt, rfl, rfl⟩ := BlockingLoop.executor_swap hact
  have hfresh := h.fresh _ (.inr ⟨rfl, by simp [hpc]⟩)
  have hreq : (Sys.fcontextSwap { s with frame := { s.frame with pc := .returned } } .executor
      (fcontextCreate (.request s.frame.nextUnstartedReqIdx)) x).request =
      Function.update s.request s.frame.nextUnstartedReqIdx
        ⟨some ⟨(s.handles.jump .executor
            (fcontextCreate (.request s.frame.nextUnstartedReqIdx))).1, x⟩,
          P.request s.frame.nextUnstartedReqIdx, P.locals s.frame.nextUnstartedReqIdx⟩ := by
    simp [fcontextCreate, hfresh]
  refine ⟨by simpa using h.le, fun j hj => ?_, fun j hj => ?_, fun _ => ?_, fun h' => ?_,
    fun h' => ?_⟩
  · simp only [Sys.swap_frame] at hj
    rw [hreq, Function.update_of_ne (by omega)]
    exact h.done j hj
  · simp only [Sys.swap_frame, ne_eq, not_true_eq_false, and_false, or_false] at hj
    rw [hreq, Function.update_of_ne (by omega)]
    exact h.fresh j (.inl hj)
  · simp only [Sys.swap_frame, hreq, Function.update_self]
    exact ⟨hlt, .inl ⟨rfl, ⟨_, rfl, rfl⟩, List.suffix_rfl, hP _⟩⟩
  · simp at h'
  · simp at h'

/-- Every step keeps the invariant. -/
theorem BlockingInv.step (hP : OneSwap (e.program hw request locals))
    (h : BlockingInv e.totalRequests (e.program hw request locals) s)
    (hs : Sys.Step (e.program hw request locals) s s') :
    BlockingInv e.totalRequests (e.program hw request locals) s' := by
  cases h.move hs with
  | hw m hm =>
      obtain ⟨h₁, h₂, h₃, h₄, h₅, h₆⟩ := h
      exact ⟨h₁, h₂, h₃, h₄, h₅, h₆⟩
  | goto g hrun hact => exact h.goto hrun hact
  | swap t x g hrun hact => exact h.swap hP hact
  | exit g hrun hact =>
      change e.executor hw s.frame s.arrived s.requestsCompleted s.mem = _ at hact
      obtain ⟨hpc, hgpc, hi⟩ := BlockingLoop.executor_exit hact
      refine ⟨hi ▸ h.le, fun j hj => ?_, fun j hj => ?_, fun h' => ?_, fun _ => .inr ⟨rfl, hgpc⟩,
        fun _ => hi ▸ h.finished hpc⟩
      · rw [hi] at hj
        exact h.done j hj
      · rw [hi] at hj
        apply h.fresh j
        simpa [hpc, hgpc] using hj
      · rw [hgpc] at h'
        cases h'
  | fault hrun hact =>
      change e.executor hw s.frame s.arrived s.requestsCompleted s.mem = _ at hact
      exact (BlockingLoop.executor_fault hact).elim
  | op i f c hrun hc =>
      have hr : s.running.request = some i := by rw [hrun]; rfl
      obtain ⟨hent, hsuf, hsw⟩ := (h.of_request hr).2.2.2
      rw [hc] at hsuf hsw
      refine h.change hr (r := { s.request i with
        locals := (f (s.request i).locals s.mem).1
        code := if (f (s.request i).locals s.mem).2.2 = .stay then .op f :: c else c }) rfl rfl
        (.inl ⟨?_, hent, ?_, ?_⟩)
      · simp only [Sys.instr, hrun]
        split_ifs <;> rfl
      · split_ifs
        · exact hsuf
        · exact (List.suffix_cons _ _).trans hsuf
      · simp only
        split_ifs <;> simpa using hsw
  | completed i c hrun hc =>
      have hr : s.running.request = some i := by rw [hrun]; rfl
      obtain ⟨hent, hsuf, hsw⟩ := (h.of_request hr).2.2.2
      rw [hc] at hsuf hsw
      exact h.change hr (r := { s.request i with code := c }) rfl rfl
        (.inl ⟨hr, hent, (List.suffix_cons _ _).trans hsuf, by simpa using hsw⟩)
  | back i n c x hrun hc harg =>
      have hr : s.running.request = some i := by rw [hrun]; rfl
      obtain ⟨-, -, hsw⟩ := (h.of_request hr).2.2.2
      rw [hc] at hsw
      exact h.change hr (r := { s.request i with code := c }) rfl (by simp [Sys.setCode])
        (.inr ⟨rfl, by simpa using hsw⟩)
  | filler i hrun => exact (h.not_filler hrun).elim

/-- The invariant holds in every reachable state. -/
theorem blockingInv_of_reachable (hP : OneSwap (e.program hw request locals))
    (hr : Sys.Reachable (e.program hw request locals) m₀ s) :
    BlockingInv e.totalRequests (e.program hw request locals) s := by
  induction hr with
  | refl => exact blockingInv_init
  | tail _ hs ih => exact ih.step hP hs

/-- On exit every request is done. -/
theorem BlockingInv.exited (h : BlockingInv N P s) (hrun : s.running = .exited) {i : ℕ}
    (hi : i < N) : swapsLeft (s.request i).code = 0 := by
  have hpc : s.frame.pc = .finish := by
    by_cases hpc : s.frame.pc = .returned
    · obtain ⟨-, ⟨hr, -⟩ | ⟨hr, -⟩⟩ := h.current hpc <;> rw [hrun] at hr <;> cases hr
    · rcases h.running hpc with hr | ⟨-, hpc⟩
      · rw [hrun] at hr
        cases hr
      · exact hpc
  exact h.done i (Nat.lt_of_lt_of_le hi (h.finished hpc))

end invariant

end XMPGym
