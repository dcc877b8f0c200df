import XMPGym.Allocators
import XMPGym.BlockingLoop
import XMPGym.Phases
import XMPGym.ThreePhaseOrder

/-!
# Switch-to-fill preserves results

Whichever executor runs the three-phase requests, and whatever the accelerator does meanwhile, each
request goes through its phases as if it were alone.  So its buffers end up the same under the
yielding executors, under the blocking ones, and when the core computes the accelerator's function
itself.
-/

open Relation Transition

namespace XMPGym

variable {F : Type*}

/-! ## A request among others -/

/-- Request `i` has the statements `rest` left of its template `t` and is in the phase `p`; of the
memory the phase `q` holds.  The two differ while the request waits to be resumed. -/
structure InPhase (k : Kernels) (t : List ThreePhaseOp) (args : ℕ → OffArgs) (m₀ : Memory)
    (s : Sys F ThreePhaseLocals Memory) (i : ℕ) (rest : List ThreePhaseOp) (p q : Phase) :
    Prop where
  suffix : rest <:+ t
  code : (s.request i).code = rest.map (ThreePhaseOp.instr k.fns (args i))
  leads : p.Leads rest
  holds : q.Holds k (args i) (m₀.view (args i)) (s.request i).locals s.mem
  phase : q = p ∨ q = .offloaded ∧ p = .axDone ∧ s.running ≠ .at (.request i) ∧
    (s.request i).arg ≠ none

/-- The invariant of the requests and the accelerator. -/
structure Served (k : Kernels) (t : List ThreePhaseOp) (args : ℕ → OffArgs) (m₀ : Memory) (N : ℕ)
    (s : Sys F ThreePhaseLocals Memory) : Prop where
  request : ∀ i < N, ∃ rest p q, InPhase k t args m₀ s i rest p q
  idle : ∀ c, N ≤ c → s.mem.jobs c = .idle

section served

variable {k : Kernels} {t : List ThreePhaseOp} {args : ℕ → OffArgs} {m₀ : Memory} {N i : ℕ}
  {P : Program F ThreePhaseLocals Memory} {s s' : Sys F ThreePhaseLocals Memory}
  {rest : List ThreePhaseOp} {p q : Phase}

theorem served_init (hreq : P.request = fun i => t.map (ThreePhaseOp.instr k.fns (args i)))
    (hloc : P.locals = fun i => .init (args i)) (ht : Phase.start.Leads t) (hm : m₀.Quiet) :
    Served k t args m₀ N (.init P m₀) where
  request i _ := ⟨t, .start, .start, List.suffix_rfl, by simp [Sys.init, hreq], ht,
    ⟨rfl, hm.idle _, by simp [Sys.init, hloc, ThreePhaseLocals.init]⟩, .inl rfl⟩
  idle c _ := hm.idle c

/-- Steps that do not concern the request. -/
theorem InPhase.congr (h : InPhase k t args m₀ s i rest p q) (hr : s'.request i = s.request i)
    (hm : Phase.Same (args i) s.mem s'.mem)
    (hrun : s.running ≠ .at (.request i) → s'.running ≠ .at (.request i)) :
    InPhase k t args m₀ s' i rest p q where
  suffix := h.suffix
  code := hr ▸ h.code
  leads := h.leads
  holds := by
    rw [hr]
    exact h.holds.congr hm
  phase := by
    rw [hr]
    rcases h.phase with e | ⟨hq, hp, hne, harg⟩
    · exact .inl e
    · exact .inr ⟨hq, hp, hrun hne, harg⟩

/-- The request that runs is in the phase of the memory. -/
theorem InPhase.eq_of_running (h : InPhase k t args m₀ s i rest p q)
    (hrun : s.running = .at (.request i)) : q = p := by
  rcases h.phase with e | ⟨-, -, hne, -⟩
  · exact e
  · exact absurd hrun hne

/-- The next statement of a request that is about to perform an operation. -/
theorem InPhase.next (h : InPhase k t args m₀ s i rest p q) (hrun : s.running = .at (.request i))
    {ins : Instr ThreePhaseLocals Memory} {c : List (Instr ThreePhaseLocals Memory)}
    (hc : (s.request i).code = ins :: c) :
    ∃ op rest' p', rest = op :: rest' ∧ p.next op = some p' ∧ p'.Leads rest' ∧
      op.instr k.fns (args i) = ins ∧ rest'.map (ThreePhaseOp.instr k.fns (args i)) = c ∧
      p.Holds k (args i) (m₀.view (args i)) (s.request i).locals s.mem := by
  have hcode := h.code
  rw [hc] at hcode
  cases rest with
  | nil => cases hcode
  | cons op rest' =>
      obtain ⟨hins, hc'⟩ := List.cons.inj hcode
      obtain ⟨p', hn, hl⟩ := Phase.leads_cons.1 h.leads
      exact ⟨op, rest', p', rfl, hn, hl, hins.symm, hc'.symm, h.eq_of_running hrun ▸ h.holds⟩

/-- The operations of a request obey the rules of records. -/
theorem Served.recordRules (h : Served k t args m₀ N s) (hsep : Separate N args)
    (hhw : P.hw = Memory.hardware k) (hlt : ∀ i, s.running = .at (.request i) → i < N) :
    RecordRules P (fun m i => m.jobs i ≠ .idle) s where
  op i f c hrun hc j := by
    have hi := hlt i hrun
    obtain ⟨rest, p, q, hin⟩ := h.request i hi
    obtain ⟨op, rest', p', -, hn, -, hop, -, hholds⟩ := hin.next hrun hc
    obtain ⟨hj, hst⟩ := hholds.records hn hop j
    rw [hsep.comp i hi] at hj hst
    rw [hhw]
    refine ⟨fun h' => ?_, hst⟩
    rcases hj with e | e
    · exact .inl (e ▸ h')
    · exact .inr e
  device m hm j := by
    rw [hhw] at hm ⊢
    obtain ⟨x, hx⟩ := hm
    exact Memory.move_records hx j

/-- The request that runs performs an operation. -/
theorem Served.op (h : Served k t args m₀ N s) (hsep : Separate N args)
    (hax : .axFunc ∈ t → k.AxFuncComputes) (hi : i < N)
    {f : ThreePhaseLocals → Memory → ThreePhaseLocals × Memory × Next}
    {c : List (Instr ThreePhaseLocals Memory)} (hrun : s.running = .at (.request i))
    (hc : (s.request i).code = .op f :: c) : Served k t args m₀ N (s.instr i c (.op f)) := by
  obtain ⟨rest, p, q, hin⟩ := h.request i hi
  obtain ⟨op, rest', p', rfl, hn, hl, hop, hrest, hholds⟩ := hin.next hrun hc
  have hstep := hholds.op hsep hi hn (fun e => hax (hin.suffix.subset (e ▸ List.mem_cons_self))) hop
  refine ⟨fun j hj => ?_, fun j hj => ?_⟩
  · rcases eq_or_ne j i with rfl | hne
    · rcases hstep with ⟨hnext, hp⟩ | ⟨hstay, hp⟩
      · refine ⟨rest', p', p', (List.suffix_cons _ _).trans hin.suffix, ?_, hl, ?_, .inl rfl⟩
        · simp [Sys.instr, hnext, hrest]
        · simpa [Sys.instr] using hp
      · refine ⟨op :: rest', p, p, hin.suffix, ?_, hin.leads, ?_, .inl rfl⟩
        · simp [Sys.instr, hstay, hrest, hop]
        · simpa [Sys.instr] using hp
    · obtain ⟨rest₁, p₁, q₁, h₁⟩ := h.request j hj
      refine ⟨rest₁, p₁, q₁, h₁.congr ?_ (hholds.same hsep hi hn hop hj hne) fun h' => ?_⟩
      · simp [Sys.instr, Function.update_of_ne hne]
      · simp only [Sys.instr]
        split_ifs
        · simp
        · exact h'
  · have hne : j ≠ (args i).comp := by
      rw [hsep.comp i hi]
      omega
    rcases (hholds.records hn hop j).1 with e | e
    · exact e.trans (h.idle j hj)
    · exact absurd e hne

/-- The request that runs hands control back. -/
theorem Served.back (h : Served k t args m₀ N s) (hi : i < N)
    {c : List (Instr ThreePhaseLocals Memory)} {n : ℕ} {x : Data}
    (hrun : s.running = .at (.request i)) (hc : (s.request i).code = .swap :: c)
    (harg : (s.request i).arg ≠ none) :
    Served k t args m₀ N ((s.setCode i c).fcontextSwap (.request i) ⟨.executor, n⟩ x) := by
  obtain ⟨rest, p, q, hin⟩ := h.request i hi
  obtain ⟨op, rest', p', rfl, hn, hl, hop, hrest, hholds⟩ := hin.next hrun hc
  have hsuf := (List.suffix_cons _ _).trans hin.suffix
  obtain rfl : op = .swap := by
    cases op <;> simp only [ThreePhaseOp.instr, reduceCtorEq] at hop
    rfl
  refine ⟨fun j hj => ?_, fun j hj => by simpa [Sys.setCode] using h.idle j hj⟩
  rcases eq_or_ne j i with rfl | hne
  · cases p <;> simp only [Phase.next, reduceCtorEq, Option.some.injEq] at hn <;> subst hn
    · refine ⟨rest', .axDone, .offloaded, hsuf, ?_, hl, ?_, .inr ⟨rfl, rfl, ?_, ?_⟩⟩
      · simp [Sys.setCode, hrest]
      · simpa [Sys.setCode] using hholds
      · simp
      · simpa [Sys.setCode] using harg
    · refine ⟨rest', .finished, .finished, hsuf, ?_, hl, ?_, .inl rfl⟩
      · simp [Sys.setCode, hrest]
      · simpa [Sys.setCode, Phase.Holds] using hholds
  · obtain ⟨rest₁, p₁, q₁, h₁⟩ := h.request j hj
    refine ⟨rest₁, p₁, q₁, h₁.congr ?_ ⟨?_, ?_, ?_, ?_⟩ fun _ => by simp⟩
    · simp [Sys.setCode, Function.update_of_ne hne]
    all_goals simp [Sys.setCode]

/-- The executor starts a request, or resumes one whose record is not pending. -/
theorem Served.swap (h : Served k t args m₀ N s) (hsep : Separate N args) {tg : Handle Ctx}
    {x : Data} {f : F}
    (hresume : ∀ i < N, tg.owner = .request i →
      (s.request i).arg = none ∨ s.mem.status i ≠ compStatusPending) :
    Served k t args m₀ N (Sys.fcontextSwap { s with frame := f } .executor tg x) := by
  obtain ⟨o, n⟩ := tg
  refine ⟨fun j hj => ?_, fun j hj => by simpa using h.idle j hj⟩
  obtain ⟨rest, p, q, hin⟩ := h.request j hj
  by_cases ho : o = .request j
  · subst ho
    -- a request that waits is in the phase of the memory from here on
    obtain ⟨q', hholds, hq'⟩ : ∃ q', q'.Holds k (args j) (m₀.view (args j)) (s.request j).locals
        s.mem ∧ q' = p := by
      rcases hin.phase with rfl | ⟨rfl, rfl, -, harg⟩
      · exact ⟨q, hin.holds, rfl⟩
      · rcases hresume j hj rfl with hnone | hst
        · exact absurd hnone harg
        · exact ⟨.axDone, hin.holds.axDone (by rwa [hsep.comp j hj]), rfl⟩
    subst hq'
    refine ⟨rest, q', q', hin.suffix, ?_, hin.leads, ?_, .inl rfl⟩
    · simpa using hin.code
    · simpa using hholds
  · refine ⟨rest, p, q, hin.congr ?_ ⟨?_, ?_, ?_, ?_⟩ fun _ => by simpa using ho⟩
    · cases o with
      | request i =>
          have hne : j ≠ i := fun e => ho (by rw [e])
          simp [Function.update_of_ne hne]
      | _ => rfl
    all_goals simp

/-- A step of the thread or of the accelerator. -/
theorem Served.move (h : Served k t args m₀ N s) (hsep : Separate N args)
    (hax : .axFunc ∈ t → k.AxFuncComputes) (hhw : P.hw = Memory.hardware k)
    (hlt : ∀ i, s.running = .at (.request i) → i < N)
    (hfil : ∀ i, s.running ≠ .at (.filler i))
    (hresume : ∀ tg x f, s.running = .at .executor →
      P.executor s.frame s.arrived s.requestsCompleted s.mem = .swap tg x f →
      ∀ i < N, tg.owner = .request i →
        (s.request i).arg = none ∨ s.mem.status i ≠ compStatusPending)
    (hm : Move P s s') : Served k t args m₀ N s' := by
  -- the executor goes on by itself
  have aside {s' : Sys F ThreePhaseLocals Memory} (hr : s'.request = s.request)
      (hm : s'.mem = s.mem) (hrun : ∀ i, s'.running ≠ .at (.request i)) :
      Served k t args m₀ N s' := by
    refine ⟨fun i hi => ?_, fun c hc => by rw [hm]; exact h.idle c hc⟩
    obtain ⟨rest, p, q, hin⟩ := h.request i hi
    exact ⟨rest, p, q, hin.congr (by rw [hr]) (by rw [hm]; exact ⟨rfl, rfl, rfl, rfl⟩)
      fun _ => hrun i⟩
  cases hm with
  | hw m hmove =>
      rw [hhw] at hmove
      obtain ⟨x, hx⟩ := hmove
      refine ⟨fun i hi => ?_, fun c hc => ?_⟩
      · choose! rest p q hin using h.request
        have hholds : Phase.Holds k (args i) (m₀.view (args i)) (s.request i).locals m (q i) :=
          Phase.Holds.move hsep (fun j hj => (hin j hj).holds) h.idle hx hi
        exact ⟨rest i, p i, q i, (hin i hi).suffix, (hin i hi).code, (hin i hi).leads, hholds,
          (hin i hi).phase⟩
      · by_contra hne
        exact (Memory.move_records hx c).1 hne (h.idle c hc)
  | goto f hrun hact => exact aside rfl rfl fun i => by simp [hrun]
  | swap tg x f hrun hact => exact h.swap hsep (hresume tg x f hrun hact)
  | exit f hrun hact => exact aside rfl rfl fun i => by simp
  | fault hrun hact => exact aside rfl rfl fun i => by simp
  | op i f c hrun hc => exact h.op hsep hax (hlt i hrun) hrun hc
  | completed i c hrun hc =>
      obtain ⟨rest, p, q, hin⟩ := h.request i (hlt i hrun)
      obtain ⟨op, -, -, -, -, -, hop, -, -⟩ := hin.next hrun hc
      cases op <;> cases hop
  | back i n c x hrun hc harg => exact h.back (hlt i hrun) hrun hc (by simp [harg])
  | filler i hrun => exact absurd hrun (hfil i)

/-- A request without a swap left has its results. -/
theorem Served.results (h : Served k t args m₀ N s) (hi : i < N)
    (hsw : swapsLeft (s.request i).code = 0) :
    s.mem.view (args i) = k.results (args i) (m₀.view (args i)) := by
  obtain ⟨rest, p, q, hin⟩ := h.request i hi
  rw [hin.code, swapsLeft_map_instr] at hsw
  obtain rfl := Phase.eq_finished_of_leads hin.leads hsw
  rcases hin.phase with rfl | ⟨-, hp, -⟩
  · exact hin.holds.1
  · cases hp

end served

/-! ## The executors -/

section runs

variable {k : Kernels} {args : ℕ → OffArgs} {m₀ : Memory} {N : ℕ}

/-- The requests under the yielding executors. -/
theorem served_of_yielding {e : ClosedLoop} (hon : e.onCompleted = false)
    (hready : e.ready = notPending) (hsep : Separate e.totalRequests args) (hm : m₀.Quiet)
    {timed : Bool} {s : Sys ClosedFrame ThreePhaseLocals Memory}
    (hr : Sys.Reachable (e.yieldingThreePhase (Memory.hardware k) k.fns args timed) m₀ s) :
    (∃ d, ClosedInv e (e.yieldingThreePhase (Memory.hardware k) k.fns args timed)
        (fun m i => m.jobs i ≠ .idle) d s) ∧
      Served k (yieldingThreePhaseRequest timed) args m₀ e.totalRequests s := by
  have hpend : e.ready compStatusPending = false := by rw [hready]; rfl
  have hon' : e.onCompleted = true →
      CompletesOnce (e.yieldingThreePhase (Memory.hardware k) k.fns args timed) := by
    simp [hon]
  induction hr with
  | refl =>
      refine ⟨⟨.idle, closedInv_init fun i _ => ⟨hm.pending i, not_not_intro (hm.idle i)⟩⟩, ?_⟩
      exact served_init rfl rfl (Phase.leads_yielding timed) hm
  | @tail s s' _ hs ih =>
      obtain ⟨⟨d, h⟩, hser⟩ := ih
      have hlt : ∀ i, s.running = .at (.request i) → i < e.totalRequests := fun i => h.request_lt
      refine ⟨h.step (twoSwaps_yieldingThreePhase e _ _ _ _) (hser.recordRules hsep rfl hlt) hon'
        hpend hs, ?_⟩
      refine hser.move hsep (fun hax => ?_) rfl hlt h.running_ne_filler (fun tg x f hrun hact => ?_)
        (h.follows.move hs)
      · cases timed <;> exact absurd hax (by decide)
      · intro i hi ho
        obtain ⟨-, -, -, ⟨y, n, -, -, rfl, -, hrd, -⟩ | ⟨rfl, -, hfresh, -⟩⟩ :=
          h.swap_target hpend hrun hact
        · obtain rfl := Ctx.request.inj ho
          rw [hready] at hrd
          exact .inr (of_decide_eq_true hrd)
        · obtain rfl := Ctx.request.inj ho
          exact .inl (by rw [hfresh])

/-- An executor with requests that wait for their records themselves, or need none. -/
def BlockingLoop.threePhase (e : BlockingLoop) (k : Kernels) (args : ℕ → OffArgs)
    (t : List ThreePhaseOp) : Program BlockingFrame ThreePhaseLocals Memory :=
  e.program (Memory.hardware k) (fun i => t.map (ThreePhaseOp.instr k.fns (args i)))
    fun i => .init (args i)

/-- The requests under the blocking executors. -/
theorem served_of_blocking {e : BlockingLoop} {t : List ThreePhaseOp} (ht : Phase.start.Leads t)
    (hone : t.count .swap = 1) (hax : .axFunc ∈ t → k.AxFuncComputes)
    (hsep : Separate e.totalRequests args) (hm : m₀.Quiet)
    {s : Sys BlockingFrame ThreePhaseLocals Memory}
    (hr : Sys.Reachable (e.threePhase k args t) m₀ s) :
    BlockingInv e.totalRequests (e.threePhase k args t) s ∧
      Served k t args m₀ e.totalRequests s := by
  have hP : OneSwap (e.threePhase k args t) := fun i =>
    (swapsLeft_map_instr k.fns (args i) t).trans hone
  refine ⟨blockingInv_of_reachable hP hr, ?_⟩
  induction hr with
  | refl => exact served_init rfl rfl ht hm
  | @tail s s' hr hs ih =>
      have h := blockingInv_of_reachable hP hr
      refine ih.move hsep hax rfl (fun i hrun => ?_) (fun i hrun => ?_)
        (fun tg x f hrun hact => ?_) (h.move hs)
      · exact (h.of_request (by rw [hrun]; rfl)).2.2.1
      · exact h.not_filler hrun
      · intro i hi ho
        change e.executor (Memory.hardware k) s.frame s.arrived s.requestsCompleted s.mem = _
          at hact
        obtain ⟨hpc, -, rfl, rfl⟩ := BlockingLoop.executor_swap hact
        obtain rfl := Ctx.request.inj ho
        left
        rw [h.fresh _ (.inr ⟨rfl, by simp [hpc]⟩)]

theorem yielding_results {e : ClosedLoop} (hon : e.onCompleted = false)
    (hready : e.ready = notPending) (hsep : Separate e.totalRequests args) (hm : m₀.Quiet)
    {timed : Bool} {s : Sys ClosedFrame ThreePhaseLocals Memory}
    (hr : Sys.Reachable (e.yieldingThreePhase (Memory.hardware k) k.fns args timed) m₀ s)
    (hexit : s.running = .exited) {i : ℕ} (hi : i < e.totalRequests) :
    s.mem.view (args i) = k.results (args i) (m₀.view (args i)) := by
  obtain ⟨⟨d, h⟩, hser⟩ := served_of_yielding hon hready hsep hm hr
  obtain ⟨-, hres, -⟩ := h.all_resumed (by simp [hon]) hexit
  have hst := h.follows.stages i
  rw [InOrder.stage_eq_done.2 (by omega)] at hst
  exact hser.results hi hst.swaps

theorem blocking_results {e : BlockingLoop} {t : List ThreePhaseOp} (ht : Phase.start.Leads t)
    (hone : t.count .swap = 1) (hax : .axFunc ∈ t → k.AxFuncComputes)
    (hsep : Separate e.totalRequests args) (hm : m₀.Quiet)
    {s : Sys BlockingFrame ThreePhaseLocals Memory}
    (hr : Sys.Reachable (e.threePhase k args t) m₀ s) (hexit : s.running = .exited) {i : ℕ}
    (hi : i < e.totalRequests) :
    s.mem.view (args i) = k.results (args i) (m₀.view (args i)) := by
  obtain ⟨h, hser⟩ := served_of_blocking ht hone hax hsep hm hr
  exact hser.results hi (h.exited hexit hi)

end runs

/-! ## The results -/

/-- The same requests at two places: equal sizes, and buffers with equal contents. -/
structure SameRequests (N : ℕ) (args args' : ℕ → OffArgs) (m m' : Memory) : Prop where
  view : ∀ i < N, m'.view (args' i) = m.view (args i)
  preProcInputSize : ∀ i < N, (args' i).preProcInputSize = (args i).preProcInputSize
  postProcInputSize : ∀ i < N, (args' i).postProcInputSize = (args i).postProcInputSize
  maxPostProcOutputSize : ∀ i < N, (args' i).maxPostProcOutputSize = (args i).maxPostProcOutputSize

theorem SameRequests.results {k : Kernels} {N : ℕ} {args args' : ℕ → OffArgs} {m m' : Memory}
    (h : SameRequests N args args' m m') {i : ℕ} (hi : i < N) :
    k.results (args' i) (m'.view (args' i)) = k.results (args i) (m.view (args i)) := by
  rw [h.view i hi]
  simp only [Kernels.results, Kernels.postProcessed, Kernels.offloaded, Kernels.preProcessed,
    Kernels.preprocOutputSize, h.preProcInputSize i hi, h.postProcInputSize i hi,
    h.maxPostProcOutputSize i hi]

/-- When a yielding executor has run `N` three-phase requests, each of their buffers has the
contents that it has after a run of a blocking executor, and, if `ax_func` computes what the
accelerator does, after a run in which the core serves the requests itself.  Stamps make no
difference, nor does what the accelerator does when. -/
theorem switchToFill_results (k : Kernels) (N idx : ℕ) {args args' : ℕ → OffArgs}
    (hsep : Separate N args) (hsep' : Separate N args') {m₀ m₀' : Memory} (hm : m₀.Quiet)
    (hm' : m₀'.Quiet) (hsame : SameRequests N args args' m₀ m₀') (e : ClosedLoop)
    (he : e ∈ [executeYieldingThreePhaseRequestThroughput N idx,
      executeThreePhaseYieldingRequestsClosedSystemRequestBreakdown N])
    (timed : Bool) {s : Sys ClosedFrame ThreePhaseLocals Memory}
    (hr : Sys.Reachable (e.yieldingThreePhase (Memory.hardware k) k.fns args timed) m₀ s)
    (hexit : s.running = .exited) {i : ℕ} (hi : i < N) (x : Buffer) :
    ∀ e' ∈ [executeThreePhaseBlockingRequestsClosedSystemThroughput N idx,
        executeThreePhaseBlockingRequestsClosedSystemRequestBreakdown N],
      ∀ (timed' : Bool) (s' : Sys BlockingFrame ThreePhaseLocals Memory), s'.running = .exited →
        (Sys.Reachable (e'.threePhase k args' (blockingThreePhaseRequest timed')) m₀' s' →
          s.mem.buffers ((args i).buffer x) = s'.mem.buffers ((args' i).buffer x)) ∧
        (k.AxFuncComputes →
          Sys.Reachable (e'.threePhase k args' (gpcoreThreePhaseRequest timed')) m₀' s' →
          s.mem.buffers ((args i).buffer x) = s'.mem.buffers ((args' i).buffer x)) := by
  intro e' he' timed' s' hexit'
  obtain ⟨rfl, hon, hready⟩ : e.totalRequests = N ∧ e.onCompleted = false ∧
      e.ready = notPending := by
    simp only [List.mem_cons, List.not_mem_nil, or_false] at he
    rcases he with rfl | rfl <;> exact ⟨rfl, rfl, rfl⟩
  have hN : e'.totalRequests = e.totalRequests := by
    simp only [List.mem_cons, List.not_mem_nil, or_false] at he'
    rcases he' with rfl | rfl <;> rfl
  rw [← hN] at hsep'
  have h := yielding_results hon hready hsep hm hr hexit hi
  -- a run of a template under the blocking executor gives the same results
  have key {t : List ThreePhaseOp} (ht : Phase.start.Leads t) (hone : t.count .swap = 1)
      (hax : .axFunc ∈ t → k.AxFuncComputes)
      (hr' : Sys.Reachable (e'.threePhase k args' t) m₀' s') :
      s.mem.buffers ((args i).buffer x) = s'.mem.buffers ((args' i).buffer x) := by
    have h' := blocking_results ht hone hax hsep' hm' hr' hexit' (hN ▸ hi)
    exact congrFun (h.trans (h'.trans (hsame.results hi)).symm) x
  refine ⟨key (Phase.leads_blocking timed') ?_ fun hax => ?_, fun hax => ?_⟩
  · cases timed' <;> rfl
  · cases timed' <;> exact absurd hax (by decide)
  · refine key (Phase.leads_gpcore timed') ?_ fun _ => hax
    cases timed' <;> rfl

/-! ## Two requests -/

/-- The accelerator reverses what the other phases copy. -/
def mirror : Kernels where
  preProc input output inputSize := (overwrite output (input.take inputSize.toNat), inputSize)
  ax := List.reverse
  axFunc input output inputSize _ :=
    (overwrite output (input.take (xferSize inputSize)).reverse, inputSize)
  postProc input output inputSize _ := (overwrite output (input.take inputSize.toNat), inputSize)

/-- Two requests on the input `1, 2, 3`. -/
def twoMirrors : (ℕ → OffArgs) × Heap :=
  threeFuncAllocator 2 3 3 3 (fun n => ([1, 2, 3], n)) (fun _ => ⟨0, 0, 0, 0, 0, 0, 0, 0, 0, 0, 0⟩)
    ⟨0, fun _ => [], fun _ => none, fun _ => compStatusPending, fun _ => .idle, fun _ _ => 0, 0⟩

theorem separate_twoMirrors : Separate 2 twoMirrors.1 ∧ twoMirrors.2.mem.Quiet :=
  separate_threeFuncAllocator 2 3 3 3 _ _ _ ⟨fun _ => rfl, fun _ => rfl⟩

/-- Both requests are started before the second one's job is served, and then the first one's. -/
def twoMirrorsYielding : List (Option Memory.AxMove) :=
  List.replicate 15 none ++
    [some (.writes 1), some (.writes 0), some (.completes 1), none, some (.completes 0)] ++
    List.replicate 12 none

/-- Each job is served while its request waits for it. -/
def twoMirrorsBlocking : List (Option Memory.AxMove) :=
  List.replicate 7 none ++ [some (.writes 0), none, some (.completes 0)] ++
    List.replicate 10 none ++ [some (.writes 1), none, some (.completes 1)] ++
    List.replicate 7 none

theorem switchToFill_results_two :
    ∃ s s' s'',
      Sys.schedule (Memory.move mirror)
        ((executeYieldingThreePhaseRequestThroughput 2 0).yieldingThreePhase
          (Memory.hardware mirror) mirror.fns twoMirrors.1 false)
        twoMirrors.2.mem twoMirrorsYielding = some s ∧
      Sys.schedule (Memory.move mirror)
        ((executeThreePhaseBlockingRequestsClosedSystemThroughput 2 0).threePhase mirror
          twoMirrors.1 (blockingThreePhaseRequest false))
        twoMirrors.2.mem twoMirrorsBlocking = some s' ∧
      Sys.schedule (Memory.move mirror)
        ((executeThreePhaseBlockingRequestsClosedSystemThroughput 2 0).threePhase mirror
          twoMirrors.1 (gpcoreThreePhaseRequest true))
        twoMirrors.2.mem (List.replicate 29 none) = some s'' ∧
      s.mem.buffers ((twoMirrors.1 1).buffer .postProcOutput) = [3, 2, 1] ∧
      s.mem.buffers ((twoMirrors.1 1).buffer .postProcOutput) =
        s'.mem.buffers ((twoMirrors.1 1).buffer .postProcOutput) ∧
      s.mem.buffers ((twoMirrors.1 1).buffer .postProcOutput) =
        s''.mem.buffers ((twoMirrors.1 1).buffer .postProcOutput) := by
  obtain ⟨hsep, hm⟩ := separate_twoMirrors
  have hmove : ∀ m a m', Memory.move mirror m a = some m' → (Memory.hardware mirror).Moves m m' :=
    fun _ a _ h => ⟨a, h⟩
  refine ⟨_, _, _, rfl, rfl, rfl, rfl, ?_, ?_⟩
  · exact (switchToFill_results mirror 2 0 hsep hsep hm hm
      ⟨fun _ _ => rfl, fun _ _ => rfl, fun _ _ => rfl, fun _ _ => rfl⟩ _ List.mem_cons_self false
      (Sys.reachable_of_schedule hmove (l := twoMirrorsYielding) rfl) rfl Nat.one_lt_two
      .postProcOutput _ List.mem_cons_self false _ rfl).1
      (Sys.reachable_of_schedule hmove (l := twoMirrorsBlocking) rfl)
  · exact (switchToFill_results mirror 2 0 hsep hsep hm hm
      ⟨fun _ _ => rfl, fun _ _ => rfl, fun _ _ => rfl, fun _ _ => rfl⟩ _ List.mem_cons_self false
      (Sys.reachable_of_schedule hmove (l := twoMirrorsYielding) rfl) rfl Nat.one_lt_two
      .postProcOutput _ List.mem_cons_self true _ rfl).2 (fun _ _ _ _ => rfl)
      (Sys.reachable_of_schedule hmove (l := List.replicate 29 none) rfl)

end XMPGym
