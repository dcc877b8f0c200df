import XMPGym.Records
import XMPGym.RequestExecutors

/-!
# The serial executors

The executors with one outstanding request at a time.  They keep the discipline of `InOrder` with
`requests_completed` as the only count.  The fillers of two of them share the globals `p_sig` and
`sched_ctx`, which are refreshed from what a swap delivers.
-/

open Relation Transition

namespace XMPGym

variable {L M : Type*}

/-- A serial loop with its requests. -/
def SerialLoop.program (e : SerialLoop) (hw : Hardware M) (request : ℕ → List (Instr L M))
    (locals : ℕ → L) : Program SerialFrame L M :=
  ⟨hw, e.executor hw, .init, request, locals⟩

/-! ## What the executor does -/

section executor

variable {e : SerialLoop} {hw : Hardware M} {f g : SerialFrame} {a : FcontextTransfer} {n : ℕ}
  {m : M}

theorem SerialLoop.executor_swap {t : Handle Ctx} {x : Data}
    (h : e.executor hw f a n m = .swap t x g) : n < e.totalRequests ∧
      ((f.pc = .loop ∧ t = fcontextCreate (.request n) ∧ g = { f with pc := .started }) ∨
      (f.pc = .wait ∧ isCompleted (hw.status m n) = true ∧
        (∃ xfer, f.offloadReqXfer n = some xfer ∧ t = xfer.prevContext) ∧
        g = { f with pc := .loop }) ∨
      (f.pc = .wait ∧ isCompleted (hw.status m n) = false ∧ e.fill ≠ .pause ∧ x = .comp n ∧
        (f.interleavedStarted = true ∧ (∃ xfer, f.xfer = some xfer ∧ t = xfer.prevContext) ∨
          f.interleavedStarted = false ∧ t = fcontextCreate (.filler (e.fill.filler n))) ∧
        g = { f with pc := .filled })) := by
  simp only [executor] at h
  split at h
  · next hpc =>
      split_ifs at h with h₁
      obtain ⟨rfl, -, rfl⟩ := Act.swap.inj h
      exact ⟨h₁, .inl ⟨hpc, rfl, rfl⟩⟩
  · cases h
  · next hpc =>
      split_ifs at h with h₁ h₂ h₃ h₄
      · split at h
        · next xfer hx =>
            obtain ⟨rfl, -, rfl⟩ := Act.swap.inj h
            exact ⟨h₁, .inr (.inl ⟨hpc, h₂, ⟨xfer, hx, rfl⟩, rfl⟩)⟩
        · cases h
      · split at h
        · next xfer hx =>
            obtain ⟨rfl, rfl, rfl⟩ := Act.swap.inj h
            exact ⟨h₁, .inr (.inr ⟨hpc, by simpa using h₂, h₃, rfl, .inl ⟨h₄, xfer, hx, rfl⟩, rfl⟩)⟩
        · cases h
      · obtain ⟨rfl, rfl, rfl⟩ := Act.swap.inj h
        exact ⟨h₁, .inr (.inr ⟨hpc, by simpa using h₂, h₃, rfl, .inr ⟨by simpa using h₄, rfl⟩,
          rfl⟩)⟩
  · cases h

theorem SerialLoop.executor_goto (h : e.executor hw f a n m = .goto g) :
    (f.pc = .started ∧ g = { f with
        pc := .wait
        offloadReqXfer := Function.update f.offloadReqXfer n (some a)
        interleavedStarted := if e.fill = .perRequest then false else f.interleavedStarted }) ∨
      (f.pc = .wait ∧ isCompleted (hw.status m n) = false ∧ e.fill = .pause ∧ g = f) ∨
      (f.pc = .filled ∧
        g = { f with pc := .wait, xfer := some a, interleavedStarted := true }) := by
  simp only [executor] at h
  split at h
  · split_ifs at h
  · next hpc =>
      obtain rfl := Act.goto.inj h
      exact .inl ⟨hpc, rfl⟩
  · next hpc =>
      split_ifs at h with h₁ h₂ h₃ h₄
      · split at h <;> cases h
      · obtain rfl := Act.goto.inj h
        exact .inr (.inl ⟨hpc, by simpa using h₂, h₃, rfl⟩)
      · split at h <;> cases h
  · next hpc =>
      obtain rfl := Act.goto.inj h
      exact .inr (.inr ⟨hpc, rfl⟩)

theorem SerialLoop.executor_exit (h : e.executor hw f a n m = .exit g) :
    f.pc = .loop ∧ e.totalRequests ≤ n ∧ g = f := by
  simp only [executor] at h
  split at h
  · next hpc =>
      split_ifs at h with h₁
      obtain rfl := Act.exit.inj h
      exact ⟨hpc, by omega, rfl⟩
  · cases h
  · split_ifs at h
    · split at h <;> cases h
    · split at h <;> cases h
  · cases h

theorem SerialLoop.executor_fault (h : e.executor hw f a n m = .fault) :
    f.pc = .wait ∧ (e.totalRequests ≤ n ∨ f.offloadReqXfer n = none ∨
      f.interleavedStarted = true ∧ e.fill ≠ .pause ∧ f.xfer = none) := by
  simp only [executor] at h
  split at h
  · split_ifs at h
  · cases h
  · next hpc =>
      refine ⟨hpc, ?_⟩
      split_ifs at h with h₁ h₂ h₃ h₄
      · split at h
        · cases h
        · next hx => exact .inr (.inl hx)
      · split at h
        · cases h
        · next hx => exact .inr (.inr ⟨h₄, h₃, hx⟩)
      · exact .inl (by omega)
  · cases h

end executor

/-! ## The invariant -/

/-- How the executor's position agrees with the dispatch. -/
def SerialFrame.Agrees {N : ℕ} (f : SerialFrame) (d : InOrder N) (arrived : FcontextTransfer) :
    Prop :=
  match f.pc with
  | .loop =>
      d.turn = .scheduler ∧ d.started = d.resumed ∨ d.turn = .resuming ∧ d.started = d.resumed + 1
  | .started =>
      d.turn = .starting ∧ d.started = d.resumed ∨
        d.turn = .scheduler ∧ d.started = d.resumed + 1 ∧
          ∃ n, arrived.prevContext = ⟨.request d.resumed, n + 1⟩
  | .wait | .filled =>
      d.turn = .scheduler ∧ d.started = d.resumed + 1 ∧
        ∃ x n, f.offloadReqXfer d.resumed = some x ∧ x.prevContext = ⟨.request d.resumed, n + 1⟩

/-- The invariant of the requests of a serial loop. -/
structure SerialInv (e : SerialLoop) (P : Program SerialFrame L M)
    (d : InOrder e.totalRequests) (s : Sys SerialFrame L M) : Prop where
  follows : Follows P d s
  counted : Counted d s
  agrees : s.frame.Agrees d s.arrived
  running : d.turn = .scheduler → s.running = .at .executor ∨
    s.running = .exited ∧ s.frame.pc = .loop ∧ e.totalRequests ≤ s.requestsCompleted ∨
    s.running = .at (.filler (e.fill.filler s.requestsCompleted)) ∧ s.frame.pc = .filled ∧
      e.fill ≠ .pause

/-- The number of the filler for the current wait. -/
def fillerIdx (fill : Fill) (s : Sys SerialFrame L M) : ℕ := fill.filler s.requestsCompleted

/-- The filler of the current wait has been entered. -/
def Entered (fill : Fill) (s : Sys SerialFrame L M) : Prop :=
  s.frame.pc = .filled ∨
    s.frame.interleavedStarted = true ∧ (fill = .shared ∨ s.frame.pc = .wait)

/-- Filler `j` has never been entered. -/
def Unused (fill : Fill) (s : Sys SerialFrame L M) (j : ℕ) : Prop :=
  match fill with
  | .perRequest => s.starts.length ≤ j ∨ j = s.requestsCompleted ∧
      (s.frame.pc = .started ∨ s.frame.pc = .wait ∧ s.frame.interleavedStarted = false)
  | _ => s.frame.interleavedStarted = false ∧ s.frame.pc ≠ .filled

/-- The invariant of the fillers and of the globals they share. -/
structure FillerInv (fill : Fill) (s : Sys SerialFrame L M) : Prop where
  unused : ∀ j, Unused fill s j → (s.filler j).pc = .entry
  used : Entered fill s → s.running ≠ .at (.filler (fillerIdx fill s)) →
    (s.filler (fillerIdx fill s)).pc = .resumed
  xfer : Entered fill s → s.frame.pc ≠ .filled →
    ∃ x n, s.frame.xfer = some x ∧ x.prevContext = ⟨.filler (fillerIdx fill s), n + 1⟩
  back : s.frame.pc = .filled → s.running = .at .executor →
    ∃ n, s.arrived.prevContext = ⟨.filler (fillerIdx fill s), n + 1⟩
  sched : ∀ x, s.schedCtx = some x → x.prevContext.owner = .executor
  schedSome : ∀ j, (s.filler j).pc ≠ .entry → s.schedCtx ≠ none
  signal : ∀ j, s.running = .at (.filler j) →
    match (s.filler j).pc with
    | .entry => (s.filler j).arrived.data = .comp s.requestsCompleted ∧
        (s.filler j).arrived.prevContext.owner = .executor
    | .probe => s.pSig = .comp s.requestsCompleted
    | .resumed => (s.filler j).arrived.data = .comp s.requestsCompleted

section invariant

variable {e : SerialLoop} {hw : Hardware M} {request : ℕ → List (Instr L M)} {locals : ℕ → L}
  {m₀ : M} {d : InOrder e.totalRequests} {s s' : Sys SerialFrame L M}

theorem serialInv_init :
    SerialInv e (e.program hw request locals) .idle (.init (e.program hw request locals) m₀) where
  follows := follows_init _ _ _
  counted := counted_init _ _ _
  agrees := .inl ⟨rfl, rfl⟩
  running _ := .inl rfl

theorem fillerInv_init : FillerInv e.fill (.init (e.program hw request locals) m₀) where
  unused _ _ := rfl
  used h := by simp [Entered, Sys.init, SerialLoop.program, SerialFrame.init] at h
  xfer h := by simp [Entered, Sys.init, SerialLoop.program, SerialFrame.init] at h
  back h := by simp [Sys.init, SerialLoop.program, SerialFrame.init] at h
  sched x h := by simp [Sys.init] at h
  schedSome j h := absurd rfl h
  signal j h := by simp [Sys.init] at h

/-! ### What the invariant says -/

/-- Between requests and while one waits, `requests_completed` is the number of those resumed. -/
theorem SerialInv.count (h : SerialInv e (e.program hw request locals) d s)
    (ht : d.turn = .scheduler) : s.requestsCompleted = d.resumed := by
  have := h.counted.count
  simpa [ht] using this

theorem SerialInv.length_starts (h : SerialInv e (e.program hw request locals) d s)
    (ht : d.turn = .scheduler) : s.starts.length = d.started := by
  rw [h.follows.starts]
  simp [InOrder.starts, ht]

theorem SerialInv.length_resumes (h : SerialInv e (e.program hw request locals) d s)
    (ht : d.turn = .scheduler) : s.resumes.length = s.requestsCompleted := by
  rw [h.follows.resumes, h.count ht]
  simp [InOrder.resumes, ht]

/-- While a request has control the executor is not in a wait. -/
theorem SerialInv.pc_of_request (h : SerialInv e (e.program hw request locals) d s)
    {i : ℕ} (hrun : s.running = .at (.request i)) :
    s.frame.pc = .started ∧ d.turn = .starting ∧ d.started = d.resumed ∨
      s.frame.pc = .loop ∧ d.turn = .resuming ∧ d.started = d.resumed + 1 := by
  have hne := h.follows.turn_ne hrun
  have hag := h.agrees
  cases hpc : s.frame.pc <;> simp only [SerialFrame.Agrees, hpc, hne, false_and, false_or,
    or_false] at hag
  · exact .inr ⟨rfl, hag⟩
  · exact .inl ⟨rfl, hag⟩

/-- A filler that has control is the one of the current wait. -/
theorem SerialInv.of_filler (h : SerialInv e (e.program hw request locals) d s) {i : ℕ}
    (hrun : s.running = .at (.filler i)) : d.turn = .scheduler ∧ s.frame.pc = .filled ∧
      i = fillerIdx e.fill s ∧ e.fill ≠ .pause := by
  have ht := h.follows.scheduler (by rw [hrun]; rfl)
  refine ⟨ht, ?_⟩
  rcases h.running ht with h' | ⟨h', -⟩ | ⟨h', hpc, hp⟩ <;> rw [hrun] at h'
  · cases h'
  · cases h'
  · simp only [Running.at.injEq, Ctx.filler.injEq] at h'
    exact ⟨hpc, h', hp⟩

/-- In a wait exactly one more request has been started than resumed. -/
theorem SerialInv.waiting (h : SerialInv e (e.program hw request locals) d s)
    (hpc : s.frame.pc = .wait ∨ s.frame.pc = .filled) : d.turn = .scheduler ∧
      d.started = d.resumed + 1 ∧ ∃ x n, s.frame.offloadReqXfer d.resumed = some x ∧
        x.prevContext = ⟨.request d.resumed, n + 1⟩ := by
  have hag := h.agrees
  rcases hpc with hpc | hpc <;> simpa only [SerialFrame.Agrees, hpc] using hag

/-- The filler of a wait that has turned to it is in use. -/
theorem SerialInv.not_unused (h : SerialInv e (e.program hw request locals) d s)
    (hpc : s.frame.pc = .filled) (hp : e.fill ≠ .pause) :
    ¬ Unused e.fill s (fillerIdx e.fill s) := by
  obtain ⟨ht, hst, -⟩ := h.waiting (.inr hpc)
  have hn := h.count ht
  have hlen := h.length_starts ht
  cases hf : e.fill with
  | pause => exact absurd hf hp
  | perRequest =>
      simp only [Unused, fillerIdx, Fill.filler, hpc, reduceCtorEq, false_and, or_self, and_false,
        or_false]
      omega
  | shared => simp [Unused, hpc]

/-- The executor turns to the filler of the current wait, which is new or suspended in its probe. -/
theorem FillerInv.target (h : FillerInv e.fill s) (hrun : s.running = .at .executor)
    (hpc : s.frame.pc = .wait) {t : Handle Ctx}
    (hto : s.frame.interleavedStarted = true ∧
        (∃ xfer, s.frame.xfer = some xfer ∧ t = xfer.prevContext) ∨
      s.frame.interleavedStarted = false ∧
        t = fcontextCreate (.filler (e.fill.filler s.requestsCompleted))) :
    ∃ k, t = ⟨.filler (fillerIdx e.fill s), k⟩ ∧
      (k = 0 ∧ (s.filler (fillerIdx e.fill s)).pc = .entry ∨
        k ≠ 0 ∧ (s.filler (fillerIdx e.fill s)).pc = .resumed ∧ Entered e.fill s ∧
          ∃ x, s.frame.xfer = some x ∧ x.prevContext = t) := by
  rcases hto with ⟨hi, y, hy, rfl⟩ | ⟨hi, rfl⟩
  · have hent : Entered e.fill s := .inr ⟨hi, .inr hpc⟩
    obtain ⟨y', k, hy', hown⟩ := h.xfer hent (by simp [hpc])
    rw [hy] at hy'
    obtain rfl := Option.some.inj hy'
    exact ⟨_, hown, .inr ⟨by simp, h.used hent (by simp [hrun]), hent, y, hy, rfl⟩⟩
  · refine ⟨0, rfl, .inl ⟨rfl, h.unused _ ?_⟩⟩
    cases hfl : e.fill <;> simp [Unused, fillerIdx, Fill.filler, hpc, hi]

/-! ### Steps of a filler -/

/-- A filler waits for its signal, or it comes to its probe with the globals set, or it hands
control back because the record is completed. -/
inductive FillerMove (hw : Hardware M) (s : Sys SerialFrame L M) (i : ℕ) :
    Sys SerialFrame L M → Prop where
  | wait (hprobe : (s.filler i).pc = .probe)
      (hst : hw.status s.mem s.requestsCompleted ≠ compStatusCompleted) : FillerMove hw s i s
  | probe (ctx : FcontextTransfer) (hown : ctx.prevContext.owner = .executor)
      (hctx : (s.filler i).pc = .entry ∧ ctx = (s.filler i).arrived ∨
        (s.filler i).pc = .resumed ∧ s.schedCtx = some ctx) :
      FillerMove hw s i { s.setFillerPc i .probe with
        pSig := .comp s.requestsCompleted
        schedCtx := some ctx }
  | back (n : ℕ) (x : Data) (hprobe : (s.filler i).pc = .probe)
      (hctx : s.schedCtx = some ⟨⟨.executor, n⟩, x⟩)
      (hst : hw.status s.mem s.requestsCompleted = compStatusCompleted) :
      FillerMove hw s i ((s.setFillerPc i .resumed).fcontextSwap (.filler i) ⟨.executor, n⟩ .null)

theorem FillerInv.move (h : FillerInv e.fill s) (hw : Hardware M) {i : ℕ}
    (hrun : s.running = .at (.filler i)) : FillerMove hw s i (s.fillerStep hw i) := by
  have hsig := h.signal i hrun
  have ctxSome (hne : (s.filler i).pc ≠ .entry) :
      ∃ n x, s.schedCtx = some ⟨⟨.executor, n⟩, x⟩ := by
    obtain ⟨⟨⟨o, n⟩, x⟩, hx⟩ := Option.ne_none_iff_exists'.1 (h.schedSome i hne)
    have := h.sched _ hx
    simp only at this
    exact ⟨n, x, this ▸ hx⟩
  cases hpc : (s.filler i).pc with
  | entry =>
      simp only [hpc] at hsig
      have hprobe : FillerMove hw s i _ := .probe _ hsig.2 (.inl ⟨hpc, rfl⟩)
      rw [← hsig.1] at hprobe
      simp only [Sys.fillerStep, hpc]
      exact hprobe
  | probe =>
      simp only [hpc] at hsig
      obtain ⟨n, x, hctx⟩ := ctxSome (by simp [hpc])
      simp only [Sys.fillerStep, hpc, Sys.isSignalSet, hsig, hctx]
      by_cases hst : hw.status s.mem s.requestsCompleted = compStatusCompleted
      · simp only [hst, decide_true]
        exact .back n x hpc hctx hst
      · simp only [hst, decide_false]
        exact .wait hpc hst
  | resumed =>
      simp only [hpc] at hsig
      obtain ⟨n, x, hctx⟩ := ctxSome (by simp [hpc])
      have hprobe : FillerMove hw s i _ := .probe _ rfl (.inr ⟨hpc, hctx⟩)
      rw [← hsig, ← hctx] at hprobe
      simp only [Sys.fillerStep, hpc]
      exact hprobe

/-! ### Steps of the requests' invariant -/

theorem SerialInv.goto (h : SerialInv e (e.program hw request locals) d s)
    (hrun : s.running = .at .executor) {g : SerialFrame}
    (hact : e.executor hw s.frame s.arrived s.requestsCompleted s.mem = .goto g) :
    SerialInv e (e.program hw request locals) d { s with frame := g } := by
  have ht := h.follows.scheduler_of_executor hrun
  have hag := h.agrees
  have hn := h.count ht
  have key : g.Agrees d s.arrived →
      SerialInv e (e.program hw request locals) d { s with frame := g } :=
    fun h₁ => ⟨h.follows.congr rfl rfl rfl, h.counted.congr rfl rfl, h₁, fun _ => .inl hrun⟩
  rcases SerialLoop.executor_goto hact with ⟨hpc, rfl⟩ | ⟨hpc, -, -, rfl⟩ | ⟨hpc, rfl⟩
  · simp only [SerialFrame.Agrees, hpc, ht] at hag
    rcases hag with ⟨h', -⟩ | ⟨-, hst, n, hx⟩
    · cases h'
    · exact key ⟨ht, hst, s.arrived, n, by simp [hn], hx⟩
  · exact key hag
  · simp only [SerialFrame.Agrees, hpc] at hag
    exact key hag

/-- The executor never uses a request beyond the last or a context that was not stored. -/
theorem SerialInv.no_fault (h : SerialInv e (e.program hw request locals) d s)
    (hfil : e.fill ≠ .pause → FillerInv e.fill s) (hrun : s.running = .at .executor) :
    e.executor hw s.frame s.arrived s.requestsCompleted s.mem ≠ .fault := by
  intro hact
  have hn := h.count (h.follows.scheduler_of_executor hrun)
  obtain ⟨hpc, hcase⟩ := SerialLoop.executor_fault hact
  obtain ⟨-, hst, x, n, hx, -⟩ := h.waiting (.inl hpc)
  rcases hcase with hle | hnone | ⟨hi, hp, hnone⟩
  · have := d.started_le
    omega
  · rw [hn, hx] at hnone
    cases hnone
  · obtain ⟨y, k, hy, -⟩ := (hfil hp).xfer (.inr ⟨hi, .inr hpc⟩) (by simp [hpc])
    rw [hy] at hnone
    cases hnone

/-- The executor starts a request, resumes it, or turns to a filler. -/
theorem SerialInv.swap (hP : TwoSwaps (e.program hw request locals))
    (h : SerialInv e (e.program hw request locals) d s)
    (hfil : e.fill ≠ .pause → FillerInv e.fill s) (hrun : s.running = .at .executor)
    {t : Handle Ctx} {x : Data} {g : SerialFrame}
    (hact : e.executor hw s.frame s.arrived s.requestsCompleted s.mem = .swap t x g) :
    ∃ d', SerialInv e (e.program hw request locals) d'
      (Sys.fcontextSwap { s with frame := g } .executor t x) := by
  have ht := h.follows.scheduler_of_executor hrun
  have hag := h.agrees
  have hn := h.count ht
  obtain ⟨hlt, ⟨hpc, rfl, rfl⟩ | ⟨hpc, -, ⟨y, hy, rfl⟩, rfl⟩ | ⟨hpc, -, hp, rfl, hto, rfl⟩⟩ :=
    SerialLoop.executor_swap hact
  · have hst : d.started = d.resumed := by
      simpa [SerialFrame.Agrees, hpc, ht] using hag
    have hlt' : d.started < e.totalRequests := by omega
    rw [show fcontextCreate (.request s.requestsCompleted) =
      fcontextCreate (.request d.started) by rw [hn, hst]]
    exact ⟨d.start hlt', h.follows.start hP ht hlt' _ _, h.counted.start ht hlt' _ _,
      .inl ⟨rfl, hst⟩, fun h' => by cases h'⟩
  · obtain ⟨-, hst, z, n, hz, hown⟩ := h.waiting (.inl hpc)
    rw [hn, hz] at hy
    obtain rfl := Option.some.inj hy
    have hlt' : d.resumed < d.started := by omega
    rw [hown]
    exact ⟨d.resume hlt', h.follows.resume ht hlt' n _ _, h.counted.resume ht hlt' _ _ _,
      .inr ⟨rfl, hst⟩, fun h' => by cases h'⟩
  · obtain ⟨k, rfl, -⟩ := (hfil hp).target hrun hpc hto
    have hfr : Follows (e.program hw request locals) d
        { s with frame := { s.frame with pc := .filled } } := h.follows.congr rfl rfl rfl
    refine ⟨d, hfr.fill ht (.inr ⟨_, rfl⟩), h.counted.congr rfl (by simp), ?_,
      fun _ => .inr (.inr ⟨by simp [fillerIdx], by simp, hp⟩)⟩
    simpa only [SerialFrame.Agrees, hpc, Sys.swap_frame] using hag

/-- A request hands control back. -/
theorem SerialInv.back (hP : CompletesOnce (e.program hw request locals))
    (h : SerialInv e (e.program hw request locals) d s) {i n : ℕ} {c : List (Instr L M)}
    (hrun : s.running = .at (.request i)) (hcode : (s.request i).code = .swap :: c) :
    ∃ d', SerialInv e (e.program hw request locals) d'
      ((s.setCode i c).fcontextSwap (.request i) ⟨.executor, n⟩ .null) := by
  obtain ⟨k, hk⟩ := s.handles.jump_eq (.request i) ⟨.executor, n⟩
  have hpc := h.pc_of_request hrun
  rcases h.follows.back (n := n) (x := .null) hrun hcode with ⟨ht, rfl, hf⟩ | ⟨ht, rfl, hf⟩
  · obtain ⟨hpc, -, hst⟩ | ⟨-, ht', -⟩ := hpc
    · refine ⟨d.yield ht, hf, (h.counted.back hP h.follows hrun hcode).1 ht, ?_, fun _ => .inl rfl⟩
      simp only [SerialFrame.Agrees, Sys.swap_frame, Sys.setCode, hpc]
      exact .inr ⟨rfl, by simp only [InOrder.yield]; omega, k, hk.trans (by rw [hst]; rfl)⟩
    · rw [ht] at ht'
      cases ht'
  · obtain ⟨-, ht', -⟩ | ⟨hpc, -, hst⟩ := hpc
    · rw [ht] at ht'
      cases ht'
    · refine ⟨d.finish ht, hf, (h.counted.back hP h.follows hrun hcode).2 ht, ?_,
        fun _ => .inl rfl⟩
      simp only [SerialFrame.Agrees, Sys.swap_frame, Sys.setCode, hpc]
      exact .inl ⟨rfl, hst⟩

theorem SerialInv.filler (h : SerialInv e (e.program hw request locals) d s)
    (hfil : FillerInv e.fill s) {i : ℕ} (hrun : s.running = .at (.filler i)) :
    SerialInv e (e.program hw request locals) d (s.fillerStep hw i) := by
  have hm := hfil.move hw hrun
  generalize s.fillerStep hw i = t at hm ⊢
  cases hm with
  | wait => exact h
  | probe ctx hown hctx =>
      exact ⟨h.follows.congr rfl rfl rfl, h.counted.congr rfl rfl, h.agrees, h.running⟩
  | back n x hprobe hctx hst =>
      obtain ⟨ht, hpc, -⟩ := h.of_filler hrun
      have hset : Follows (e.program hw request locals) d (s.setFillerPc i .resumed) :=
        h.follows.congr rfl rfl rfl
      have hag := h.agrees
      refine ⟨hset.fill ht (.inl rfl), h.counted.congr rfl rfl, ?_, fun _ => .inl rfl⟩
      simp only [SerialFrame.Agrees, hpc] at hag
      simpa only [SerialFrame.Agrees, Sys.swap_frame, Sys.setFillerPc, hpc] using hag

/-- Every step of a serial loop keeps the invariant, for some next state of the dispatch. -/
theorem SerialInv.step (hP : TwoSwaps (e.program hw request locals))
    (hP' : CompletesOnce (e.program hw request locals))
    (h : SerialInv e (e.program hw request locals) d s)
    (hfil : e.fill ≠ .pause → FillerInv e.fill s)
    (hs : Sys.Step (e.program hw request locals) s s') :
    ∃ d', SerialInv e (e.program hw request locals) d' s' := by
  cases h.follows.move hs with
  | hw m hm =>
      exact ⟨d, h.follows.congr rfl rfl rfl, h.counted.congr rfl rfl, h.agrees, h.running⟩
  | goto g hrun hact => exact ⟨d, h.goto hrun hact⟩
  | exit g hrun hact =>
      obtain ⟨hpc, hle, rfl⟩ := SerialLoop.executor_exit hact
      exact ⟨d, h.follows.congr rfl (by rw [hrun]; rfl) rfl, h.counted.congr rfl rfl, h.agrees,
        fun _ => .inr (.inl ⟨rfl, hpc, hle⟩)⟩
  | fault hrun hact => exact absurd hact (h.no_fault hfil hrun)
  | swap t x g hrun hact => exact h.swap hP hfil hrun hact
  | op i f c hrun hcode =>
      exact ⟨d, h.follows.op hrun hcode, h.counted.op hcode, h.agrees,
        fun ht => absurd ht (h.follows.turn_ne hrun)⟩
  | completed i c hrun hcode =>
      exact ⟨d, h.follows.completed hrun hcode, h.counted.completed hP' h.follows hrun hcode,
        h.agrees, fun ht => absurd ht (h.follows.turn_ne hrun)⟩
  | back i n c x hrun hcode harg => exact h.back hP' hrun hcode
  | filler i hrun => exact ⟨d, h.filler (hfil (h.of_filler hrun).2.2.2) hrun⟩

/-! ### Steps as the fillers see them -/

/-- A step that does not concern the fillers. -/
structure Aside (fill : Fill) (s s' : Sys SerialFrame L M) : Prop where
  filler : s'.filler = s.filler
  schedCtx : s'.schedCtx = s.schedCtx
  swaps : ∃ l, s'.swaps = s.swaps ++ l ∧ ∀ w ∈ l, w.filler = none ∧ ∀ j, w.self ≠ .filler j
  before : ∀ j, s.running ≠ .at (.filler j)
  after : ∀ j, s'.running ≠ .at (.filler j)
  pc : s.frame.pc ≠ .filled ∧ s'.frame.pc ≠ .filled
  waited : s.frame.pc = .wait → s.resumes.length < s'.resumes.length
  unused : ∀ j, Unused fill s' j → Unused fill s j
  entered : Entered fill s' → Entered fill s ∧ s'.frame.xfer = s.frame.xfer ∧
    fillerIdx fill s' = fillerIdx fill s

/-- The steps of a serial loop with fillers. -/
inductive FillMove (e : SerialLoop) (hw : Hardware M) (s : Sys SerialFrame L M) :
    Sys SerialFrame L M → Prop where
  | hw (m : M) (h : hw.Moves s.mem m) : FillMove e hw s { s with mem := m }
  | aside {s' : Sys SerialFrame L M} (h : Aside e.fill s s') : FillMove e hw s s'
  | turn (k : ℕ) (hrun : s.running = .at .executor) (hpc : s.frame.pc = .wait)
      (hlt : s.requestsCompleted < e.totalRequests)
      (hst : hw.status s.mem s.requestsCompleted ≠ compStatusCompleted)
      (hk : k = 0 ∧ (s.filler (fillerIdx e.fill s)).pc = .entry ∨
        k ≠ 0 ∧ (s.filler (fillerIdx e.fill s)).pc = .resumed ∧ Entered e.fill s ∧
          ∃ x, s.frame.xfer = some x ∧ x.prevContext = ⟨.filler (fillerIdx e.fill s), k⟩) :
      FillMove e hw s (Sys.fcontextSwap { s with frame := { s.frame with pc := .filled } }
        .executor ⟨.filler (fillerIdx e.fill s), k⟩ (.comp s.requestsCompleted))
  | store (hrun : s.running = .at .executor) (hpc : s.frame.pc = .filled) :
      FillMove e hw s { s with frame :=
        { s.frame with pc := .wait, xfer := some s.arrived, interleavedStarted := true } }
  | filler (i : ℕ) {s' : Sys SerialFrame L M} (hrun : s.running = .at (.filler i))
      (h : FillerMove hw s i s') : FillMove e hw s s'

/-- Outside of a wait, a step that keeps the frame and starts no request is aside. -/
theorem Aside.of_frame (hp : e.fill ≠ .pause) (hframe : s'.frame = s.frame)
    (hpc : s.frame.pc = .loop ∨ s.frame.pc = .started ∧ s'.requestsCompleted = s.requestsCompleted)
    (hfil : s'.filler = s.filler) (hctx : s'.schedCtx = s.schedCtx) {l : List Swap}
    (hsw : s'.swaps = s.swaps ++ l)
    (hl : ∀ w ∈ l, w.start = none ∧ w.filler = none ∧ ∀ j, w.self ≠ .filler j)
    (hrun : ∀ j, s.running ≠ .at (.filler j)) (hrun' : ∀ j, s'.running ≠ .at (.filler j)) :
    Aside e.fill s s' := by
  have hlen : s'.starts.length = s.starts.length := by
    simp only [Sys.starts, hsw, List.filterMap_append, List.length_append]
    rw [List.filterMap_eq_nil_iff.2 fun w hw => (hl w hw).1]
    rfl
  have hne : s.frame.pc ≠ .filled ∧ s.frame.pc ≠ .wait := by
    rcases hpc with hpc | ⟨hpc, -⟩ <;> simp [hpc]
  refine ⟨hfil, hctx, ⟨l, hsw, fun w hw => (hl w hw).2⟩, hrun, hrun', ⟨hne.1, by
    rw [hframe]; exact hne.1⟩, fun h' => absurd h' hne.2, fun j hj => ?_, fun he => ?_⟩
  · cases hf : e.fill with
    | pause => exact absurd hf hp
    | perRequest =>
        simp only [Unused, hf, hlen, hframe] at hj ⊢
        rcases hpc with hpc | ⟨-, hn⟩
        · simpa [hpc] using hj
        · rwa [hn] at hj
    | shared => simpa only [Unused, hf, hframe] using hj
  · simp only [Entered, hframe] at he
    refine ⟨he, by rw [hframe], ?_⟩
    rcases he with h' | ⟨-, h' | h'⟩
    · exact absurd h' hne.1
    · simp [fillerIdx, h', Fill.filler]
    · exact absurd h' hne.2

/-- A local step into a wait, and the executor's swaps to requests, are aside. -/
theorem SerialInv.aside_wait (hp : e.fill ≠ .pause) (hrun : s.running = .at .executor)
    (hpc : s.frame.pc = .started) : Aside e.fill s { s with frame := { s.frame with
      pc := .wait
      offloadReqXfer := Function.update s.frame.offloadReqXfer s.requestsCompleted (some s.arrived)
      interleavedStarted :=
        if e.fill = .perRequest then false else s.frame.interleavedStarted } } := by
  have hrun' : ∀ j, s.running ≠ .at (.filler j) := fun j => by simp [hrun]
  refine ⟨rfl, rfl, ⟨[], (List.append_nil _).symm, by simp⟩, hrun', hrun', by simp [hpc],
    fun h' => by simp [hpc] at h', fun j hj => ?_, fun he => ?_⟩
  · cases hf : e.fill with
    | pause => exact absurd hf hp
    | perRequest =>
        simp only [Unused, hf, if_true] at hj ⊢
        exact hj.imp_right fun h' => ⟨h'.1, .inl hpc⟩
    | shared => simpa [Unused, hf, hpc] using hj
  · cases hf : e.fill with
    | pause => exact absurd hf hp
    | perRequest => simp [Entered, hf] at he
    | shared => simpa [Entered, hf, hpc, fillerIdx] using he

theorem SerialInv.aside_start (h : SerialInv e (e.program hw request locals) d s)
    (hp : e.fill ≠ .pause) (hrun : s.running = .at .executor) (hpc : s.frame.pc = .loop)
    (x : Data) :
    Aside e.fill s (Sys.fcontextSwap { s with frame := { s.frame with pc := .started } } .executor
      (fcontextCreate (.request s.requestsCompleted)) x) := by
  have ht := h.follows.scheduler_of_executor hrun
  have hag := h.agrees
  have hn := h.count ht
  have hlen := h.length_starts ht
  simp only [SerialFrame.Agrees, hpc, ht, true_and, reduceCtorEq, false_and, or_false] at hag
  have hlen' : (Sys.fcontextSwap { s with frame := { s.frame with pc := .started } } .executor
      (fcontextCreate (.request s.requestsCompleted)) x).starts.length = s.starts.length + 1 := by
    simp [Sys.starts, Swap.start, fcontextCreate]
  refine ⟨rfl, by simp, ⟨_, Sys.swap_swaps _ _ _ _, by simp [Swap.filler, fcontextCreate]⟩,
    fun j => by simp [hrun], fun j => by simp [fcontextCreate], by simp [hpc],
    fun h' => by simp [hpc] at h', fun j hj => ?_, fun he => ?_⟩
  · cases hf : e.fill with
    | pause => exact absurd hf hp
    | perRequest =>
        simp only [Unused, hf, hlen', Sys.swap_requestsCompleted] at hj ⊢
        exact .inl (by omega)
    | shared => simpa [Unused, hf, hpc] using hj
  · simpa [Entered, hpc, fillerIdx] using he

theorem SerialInv.aside_resume (hp : e.fill ≠ .pause) (hrun : s.running = .at .executor)
    (hpc : s.frame.pc = .wait) (i n : ℕ) (x : Data) :
    Aside e.fill s (Sys.fcontextSwap { s with frame := { s.frame with pc := .loop } } .executor
      ⟨.request i, n + 1⟩ x) := by
  refine ⟨rfl, by simp, ⟨_, Sys.swap_swaps _ _ _ _, by simp [Swap.filler]⟩,
    fun j => by simp [hrun], fun j => by simp, by simp [hpc],
    fun _ => by simp [Sys.resumes, Swap.resume], fun j hj => ?_, fun he => ?_⟩
  · cases hf : e.fill with
    | pause => exact absurd hf hp
    | perRequest => simpa [Unused, hf, Sys.starts, Swap.start, hpc] using Or.inl hj
    | shared => simpa [Unused, hf, hpc] using hj
  · cases hf : e.fill with
    | pause => exact absurd hf hp
    | perRequest => simp [Entered, hf] at he
    | shared => simpa [Entered, hf, hpc, fillerIdx] using he

/-- What a step of a serial loop can do, as the fillers see it. -/
theorem SerialInv.fillMove (hP : CompletesOnce (e.program hw request locals))
    (h : SerialInv e (e.program hw request locals) d s)
    (hfil : FillerInv e.fill s) (hp : e.fill ≠ .pause)
    (hs : Sys.Step (e.program hw request locals) s s') : FillMove e hw s s' := by
  cases h.follows.move hs with
  | hw m hm => exact .hw m hm
  | goto g hrun hact =>
      rcases SerialLoop.executor_goto hact with ⟨hpc, rfl⟩ | ⟨-, -, hp', -⟩ | ⟨hpc, rfl⟩
      · exact .aside (SerialInv.aside_wait hp hrun hpc)
      · exact absurd hp' hp
      · exact .store hrun hpc
  | exit g hrun hact =>
      obtain ⟨hpc, -, rfl⟩ := SerialLoop.executor_exit hact
      exact .aside (.of_frame hp rfl (.inl hpc) rfl rfl (l := []) (List.append_nil _).symm
        (by simp) (fun j => by simp [hrun]) fun j => by simp)
  | fault hrun hact => exact absurd hact (h.no_fault (fun _ => hfil) hrun)
  | swap t x g hrun hact =>
      obtain ⟨hlt, ⟨hpc, rfl, rfl⟩ | ⟨hpc, -, ⟨y, hy, rfl⟩, rfl⟩ |
        ⟨hpc, hst, hp, rfl, hto, rfl⟩⟩ := SerialLoop.executor_swap hact
      · exact .aside (h.aside_start hp hrun hpc x)
      · obtain ⟨ht, -, z, n, hz, hown⟩ := h.waiting (.inl hpc)
        rw [h.count ht, hz] at hy
        obtain rfl := Option.some.inj hy
        rw [hown]
        exact .aside (SerialInv.aside_resume hp hrun hpc _ n x)
      · obtain ⟨k, rfl, hk⟩ := hfil.target hrun hpc hto
        exact .turn k hrun hpc hlt (by simpa [isCompleted] using hst) hk
  | op i f c hrun hcode =>
      have hrun' : ∀ j, s.running ≠ .at (.filler j) := fun j => by simp [hrun]
      refine .aside (.of_frame hp rfl ?_ rfl rfl (l := []) (List.append_nil _).symm (by simp) hrun'
        fun j => ?_)
      · exact (h.pc_of_request hrun).symm.imp And.left fun h' => ⟨h'.1, rfl⟩
      · simp only [Sys.instr, hrun]
        split_ifs <;> simp
  | completed i c hrun hcode =>
      have hrun' : ∀ j, s.running ≠ .at (.filler j) := fun j => by simp [hrun]
      refine .aside (.of_frame hp rfl (.inl ?_) rfl rfl (l := []) (List.append_nil _).symm
        (by simp) hrun' hrun')
      have ht := h.follows.turn_of_completed hP hrun hcode
      rcases h.pc_of_request hrun with ⟨-, ht', -⟩ | ⟨hpc, -⟩
      · rw [ht] at ht'
        cases ht'
      · exact hpc
  | back i n c x hrun hcode harg =>
      refine .aside (.of_frame hp (by simp [Sys.setCode]) ?_ rfl (by simp [Sys.setCode])
        (Sys.swap_swaps _ _ _ _) (by simp [Swap.filler, Swap.start]) (fun j => by simp [hrun])
        fun j => by simp)
      exact (h.pc_of_request hrun).symm.imp And.left fun h' => ⟨h'.1, by simp [Sys.setCode]⟩
  | filler i hrun => exact .filler i hrun (hfil.move hw hrun)

/-! ### Steps of the fillers' invariant -/

theorem FillerInv.aside (h : FillerInv e.fill s) (ha : Aside e.fill s s') :
    FillerInv e.fill s' where
  unused j hj := by rw [ha.filler]; exact h.unused j (ha.unused j hj)
  used he _ := by
    obtain ⟨hent, -, hidx⟩ := ha.entered he
    rw [ha.filler, hidx]
    exact h.used hent (ha.before _)
  xfer he _ := by
    obtain ⟨hent, hx, hidx⟩ := ha.entered he
    rw [hx, hidx]
    exact h.xfer hent ha.pc.1
  back h' := absurd h' ha.pc.2
  sched := by rw [ha.schedCtx]; exact h.sched
  schedSome := by rw [ha.filler, ha.schedCtx]; exact h.schedSome
  signal j h' := absurd h' (ha.after j)

/-- The executor turns to the filler of the current wait. -/
theorem FillerInv.turn (h : FillerInv e.fill s) {k : ℕ}
    (hprobe : (s.filler (fillerIdx e.fill s)).pc ≠ .probe) :
    FillerInv e.fill (Sys.fcontextSwap { s with frame := { s.frame with pc := .filled } }
      .executor ⟨.filler (fillerIdx e.fill s), k⟩ (.comp s.requestsCompleted)) := by
  have hpcj (j : ℕ) : ((Sys.fcontextSwap { s with frame := { s.frame with pc := .filled } }
      .executor ⟨.filler (fillerIdx e.fill s), k⟩ (.comp s.requestsCompleted)).filler j).pc =
      (s.filler j).pc := by
    rcases eq_or_ne j (fillerIdx e.fill s) with rfl | hne
    · simp
    · simp [Function.update_of_ne hne]
  refine ⟨fun j hj => ?_, fun _ h' => ?_, fun _ h' => ?_, fun _ h' => by simp at h',
    by simpa using h.sched, fun j h' => ?_, fun j h' => ?_⟩
  · rw [hpcj]
    refine h.unused j ?_
    have hst := Sys.starts_swap_filler { s with frame := { s.frame with pc := .filled } }
      .executor k (fillerIdx e.fill s) (.comp s.requestsCompleted)
    cases hfl : e.fill with
    | perRequest =>
        rw [hfl] at hst hj
        simp only [Unused, hst, Sys.swap_frame, reduceCtorEq, false_and, or_self, and_false,
          or_false] at hj
        exact .inl hj
    | pause | shared => simp [Unused, hfl] at hj
  · simp [fillerIdx] at h'
  · simp at h'
  · rw [hpcj] at h'
    rw [Sys.swap_schedCtx]
    exact h.schedSome j h'
  · simp only [Sys.swap_running, Running.at.injEq, Ctx.filler.injEq] at h'
    subst h'
    rw [hpcj]
    cases hpcf : (s.filler (fillerIdx e.fill s)).pc with
    | probe => exact absurd hpcf hprobe
    | entry | resumed => simp

/-- A filler that comes to its probe. -/
theorem FillerInv.probe (hinv : SerialInv e (e.program hw request locals) d s)
    (h : FillerInv e.fill s) {i : ℕ} (hrun : s.running = .at (.filler i))
    {ctx : FcontextTransfer} (hown : ctx.prevContext.owner = .executor) :
    FillerInv e.fill { s.setFillerPc i .probe with
      pSig := .comp s.requestsCompleted
      schedCtx := some ctx } := by
  obtain ⟨-, hfpc, hi, hp⟩ := hinv.of_filler hrun
  refine ⟨fun j hj => ?_, fun _ h' => ?_, h.xfer, fun _ h' => ?_, fun x hx => ?_, fun _ _ => ?_,
    fun j hj => ?_⟩
  · have hne : j ≠ i := by
      rintro rfl
      rw [hi] at hj
      exact hinv.not_unused hfpc hp hj
    simp only [Sys.setFillerPc, Function.update_of_ne hne]
    exact h.unused j hj
  · exact absurd (hi ▸ hrun) h'
  · rw [show s.running = .at .executor from h'] at hrun
    cases hrun
  · obtain rfl := Option.some.inj hx
    exact hown
  · exact Option.some_ne_none _
  · obtain rfl : i = j := by
      have := hrun.symm.trans hj
      simpa using this
    simp [Sys.setFillerPc]

/-- The filler hands control back. -/
theorem FillerInv.fill_back (hinv : SerialInv e (e.program hw request locals) d s)
    (h : FillerInv e.fill s) {i n : ℕ} (hrun : s.running = .at (.filler i))
    (hprobe : (s.filler i).pc = .probe) :
    FillerInv e.fill
      ((s.setFillerPc i .resumed).fcontextSwap (.filler i) ⟨.executor, n⟩ .null) := by
  obtain ⟨ht, hpc, hi, hp⟩ := hinv.of_filler hrun
  obtain ⟨k, hk⟩ := s.handles.jump_eq (.filler i) ⟨.executor, n⟩
  have hst : ((s.setFillerPc i .resumed).fcontextSwap (.filler i) ⟨.executor, n⟩ .null).starts =
      s.starts := Sys.starts_swap_executor _ _ _ _
  refine ⟨fun j hj => ?_, fun _ _ => ?_, fun _ h' => ?_, fun _ _ => ⟨k, ?_⟩, h.sched,
    fun j hj => ?_, fun j hj => by simp at hj⟩
  · have hj' : Unused e.fill s j := by
      unfold Unused at hj ⊢
      rwa [hst] at hj
    have hne : j ≠ i := by
      rintro rfl
      rw [hi] at hj'
      exact hinv.not_unused hpc hp hj'
    simp only [Sys.swap_executor_filler, Sys.setFillerPc, Function.update_of_ne hne]
    exact h.unused j hj'
  · simp [Sys.setFillerPc, fillerIdx, hi]
  · simp [Sys.setFillerPc, hpc] at h'
  · simpa [Sys.setFillerPc, fillerIdx, hi] using hk
  · refine h.schedSome j ?_
    rcases eq_or_ne j i with rfl | hne
    · simp [hprobe]
    · simpa [Sys.setFillerPc, Function.update_of_ne hne] using hj

theorem FillerInv.step (hP : CompletesOnce (e.program hw request locals))
    (hinv : SerialInv e (e.program hw request locals) d s) (h : FillerInv e.fill s)
    (hp : e.fill ≠ .pause) (hs : Sys.Step (e.program hw request locals) s s') :
    FillerInv e.fill s' := by
  cases hinv.fillMove hP h hp hs with
  | hw m hm =>
      obtain ⟨h₁, h₂, h₃, h₄, h₅, h₆, h₇⟩ := h
      exact ⟨h₁, h₂, h₃, h₄, h₅, h₆, h₇⟩
  | aside ha => exact h.aside ha
  | turn k hrun hpc hlt hst hk =>
      refine h.turn ?_
      rcases hk with ⟨-, h'⟩ | ⟨-, h', -⟩ <;> simp [h']
  | store hrun hpc =>
      obtain ⟨n, hback⟩ := h.back hpc hrun
      refine ⟨fun j hj => h.unused j ?_, fun _ => h.used (.inl hpc), fun _ _ => ⟨_, n, rfl, hback⟩,
        fun h' => by simp at h', h.sched, h.schedSome, fun j h' => by simp [hrun] at h'⟩
      cases hf : e.fill <;> simp_all [Unused, Sys.starts]
  | filler i hrun hm =>
      cases hm with
      | wait => exact h
      | probe ctx hown hctx => exact h.probe hinv hrun hown
      | back n x hprobe hctx hst => exact h.fill_back hinv hrun hprobe

/-! ## The run -/

/-- The invariants hold in every reachable state. -/
theorem serialInv_of_reachable (hP : TwoSwaps (e.program hw request locals))
    (hP' : CompletesOnce (e.program hw request locals))
    (hr : Sys.Reachable (e.program hw request locals) m₀ s) :
    (∃ d, SerialInv e (e.program hw request locals) d s) ∧
      (e.fill ≠ .pause → FillerInv e.fill s) := by
  induction hr with
  | refl => exact ⟨⟨.idle, serialInv_init⟩, fun _ => fillerInv_init⟩
  | tail _ hs ih =>
      obtain ⟨⟨d, h⟩, hfil⟩ := ih
      exact ⟨h.step hP hP' hfil hs, fun hp => (hfil hp).step hP' h hp hs⟩

theorem SerialInv.running_ne_fault
    (h : SerialInv e (e.program hw request locals) d s) : s.running ≠ .fault := by
  intro hf
  rcases h.running (h.follows.scheduler (by rw [hf]; rfl)) with h' | ⟨h', -⟩ | ⟨h', -⟩ <;>
    simp [hf] at h'

/-- On exit every request is done. -/
theorem SerialInv.all_resumed (h : SerialInv e (e.program hw request locals) d s)
    (hrun : s.running = .exited) :
    d.turn = .scheduler ∧ d.resumed = e.totalRequests ∧ d.started = e.totalRequests := by
  have ht := h.follows.scheduler (by rw [hrun]; rfl)
  have hn := h.count ht
  have hag := h.agrees
  have hle := d.started_le
  rcases h.running ht with h' | ⟨-, hpc, hge⟩ | ⟨h', -⟩
  · simp [hrun] at h'
  · simp only [SerialFrame.Agrees, hpc, ht, true_and, reduceCtorEq, false_and, or_false] at hag
    exact ⟨ht, by omega, by omega⟩
  · simp [hrun] at h'

/-- On exit every request has been started and resumed. -/
theorem SerialInv.exited (h : SerialInv e (e.program hw request locals) d s)
    (hrun : s.running = .exited) :
    s.starts = List.range e.totalRequests ∧ s.resumes = List.range e.totalRequests := by
  obtain ⟨ht, hres, hst⟩ := h.all_resumed hrun
  rw [h.follows.starts, h.follows.resumes]
  simp only [InOrder.starts, InOrder.resumes, ht, reduceCtorEq, if_false]
  exact ⟨congrArg _ hst, congrArg _ hres⟩

end invariant

end XMPGym
