import XMPGym.Memory

/-!
# The phases of a three-phase request

The six templates pass through the same phases and differ in how they get from the accelerator's
input to its output.  `Phase.next` says which statement leads from which phase to which, and
`Phase.Holds` what has become of the request's locals, buffers, descriptor, record and job.  A
statement takes the request from a phase to the next one; a move of the accelerator and the
statements of other requests leave it in its phase.
-/

namespace XMPGym

theorem Memory.submit_of_desc {m : Memory} {desc : ℕ} {d : Descriptor}
    (hd : m.descs desc = some d) :
    m.submit desc = { m with jobs := Function.update m.jobs d.completionAddr (.queued d) } := by
  simp [Memory.submit, hd]

/-- How far a request has got. -/
inductive Phase where
  | start
  | preProcessed
  /-- `ax_func_input` and `ax_input_size` are set -/
  | axReady
  /-- the descriptor is filled in -/
  | prepared
  /-- the job has been submitted and may or may not have completed -/
  | offloaded
  /-- the accelerator function's output is there -/
  | axDone
  /-- `post_proc_input` is set -/
  | postReady
  | postProcessed
  /-- control has been handed back for good -/
  | finished
  deriving DecidableEq, Repr, Inhabited

namespace Phase

/-- The phase after a statement. -/
def next : Phase → ThreePhaseOp → Option Phase
  | p, .stamp _ => some p
  | start, .preProc => some preProcessed
  | preProcessed, .axInput => some axReady
  | axReady, .prep => some prepared
  | axReady, .axFunc => some axDone
  | prepared, .submit => some offloaded
  | offloaded, .swap => some axDone
  | offloaded, .postOffload => some axDone
  | axDone, .postInput => some postReady
  | postReady, .postProc => some postProcessed
  | postProcessed, .swap => some finished
  | _, _ => none

/-- The statements `t` lead from the phase `p` to the end. -/
def Leads (p : Phase) (t : List ThreePhaseOp) : Prop := t.foldlM next p = some finished

instance (p : Phase) (t : List ThreePhaseOp) : Decidable (p.Leads t) :=
  inferInstanceAs (Decidable (_ = _))

theorem leads_cons {p : Phase} {op : ThreePhaseOp} {t : List ThreePhaseOp} :
    p.Leads (op :: t) ↔ ∃ q, p.next op = some q ∧ q.Leads t := by
  simp only [Leads, List.foldlM_cons]
  exact Option.bind_eq_some_iff

theorem leads_yielding (timed : Bool) : start.Leads (yieldingThreePhaseRequest timed) := by
  cases timed <;> decide

theorem leads_blocking (timed : Bool) : start.Leads (blockingThreePhaseRequest timed) := by
  cases timed <;> decide

theorem leads_gpcore (timed : Bool) : start.Leads (gpcoreThreePhaseRequest timed) := by
  cases timed <;> decide

/-- A body without a swap leads nowhere but from the end. -/
theorem eq_finished_of_leads {p : Phase} {t : List ThreePhaseOp} (h : p.Leads t)
    (hsw : t.count .swap = 0) : p = finished := by
  induction t generalizing p with
  | nil => exact Option.some.inj h
  | cons op t ih =>
      obtain ⟨q, hq, ht⟩ := leads_cons.1 h
      rw [List.count_cons] at hsw
      obtain rfl := ih ht (by omega)
      cases p <;> cases op <;> simp_all [next]

/-! ## What holds in a phase -/

variable (k : Kernels) (a : OffArgs) (v : View)

/-- The locals, the memory and the phase of a request that began with the buffers `v`. -/
def Holds (l : ThreePhaseLocals) (m : Memory) : Phase → Prop
  | start => m.view a = v ∧ m.jobs a.comp = .idle ∧
      l.maxPostProcOutputSize = a.maxPostProcOutputSize
  | preProcessed => m.view a = k.preProcessed a v ∧ m.jobs a.comp = .idle ∧
      l.maxPostProcOutputSize = a.maxPostProcOutputSize ∧
      l.preprocOutputSize = k.preprocOutputSize a v
  | axReady => m.view a = k.preProcessed a v ∧ m.jobs a.comp = .idle ∧
      l.maxPostProcOutputSize = a.maxPostProcOutputSize ∧
      l.axInputSize = k.preprocOutputSize a v ∧ l.axFuncInput = a.preProcOutput
  | prepared => m.view a = k.preProcessed a v ∧ m.jobs a.comp = .idle ∧
      l.maxPostProcOutputSize = a.maxPostProcOutputSize ∧
      m.descs a.desc = some (k.descriptor a v) ∧ m.status a.comp = compStatusPending
  | offloaded => l.maxPostProcOutputSize = a.maxPostProcOutputSize ∧
      (m.jobs a.comp = .queued (k.descriptor a v) ∧ m.status a.comp = compStatusPending ∧
          m.view a = k.preProcessed a v ∨
        m.jobs a.comp = .written ∧ m.status a.comp = compStatusPending ∧
          m.view a = k.offloaded a v ∨
        m.jobs a.comp = .idle ∧ m.view a = k.offloaded a v)
  | axDone => m.view a = k.offloaded a v ∧ m.jobs a.comp = .idle ∧
      l.maxPostProcOutputSize = a.maxPostProcOutputSize
  | postReady => m.view a = k.offloaded a v ∧ m.jobs a.comp = .idle ∧
      l.maxPostProcOutputSize = a.maxPostProcOutputSize ∧ l.postProcInput = a.axFuncOutput
  | postProcessed | finished => m.view a = k.results a v ∧ m.jobs a.comp = .idle

variable {k a v} {l : ThreePhaseLocals} {m m' : Memory} {p q : Phase}

/-- A job that has completed has written its destination. -/
theorem Holds.axDone (h : offloaded.Holds k a v l m) (hst : m.status a.comp ≠ compStatusPending) :
    axDone.Holds k a v l m := by
  obtain ⟨hl, ⟨-, hp, -⟩ | ⟨-, hp, -⟩ | ⟨hj, hv⟩⟩ := h
  · exact absurd hp hst
  · exact absurd hp hst
  · exact ⟨hv, hj, hl⟩

/-- Only between submission and completion is there a job, and it is the request's own. -/
theorem Holds.job (h : p.Holds k a v l m) : m.jobs a.comp = .idle ∨
    p = offloaded ∧ m.status a.comp = compStatusPending ∧
      (m.jobs a.comp = .queued (k.descriptor a v) ∨ m.jobs a.comp = .written) := by
  cases p with
  | offloaded =>
      obtain ⟨-, ⟨hj, hp, -⟩ | ⟨hj, hp, -⟩ | ⟨hj, -⟩⟩ := h
      · exact .inr ⟨rfl, hp, .inl hj⟩
      · exact .inr ⟨rfl, hp, .inr hj⟩
      · exact .inl hj
  | start => exact .inl h.2.1
  | preProcessed => exact .inl h.2.1
  | axReady => exact .inl h.2.1
  | prepared => exact .inl h.2.1
  | axDone => exact .inl h.2.1
  | postReady => exact .inl h.2.1
  | postProcessed => exact .inl h.2
  | finished => exact .inl h.2

/-! ## Memory that a request does not notice -/

variable (a) in
/-- Nothing of the request `a` differs. -/
structure Same (m m' : Memory) : Prop where
  view : m'.view a = m.view a
  desc : m'.descs a.desc = m.descs a.desc
  status : m'.status a.comp = m.status a.comp
  job : m'.jobs a.comp = m.jobs a.comp

theorem Holds.congr (h : p.Holds k a v l m) (hs : Same a m m') : p.Holds k a v l m' := by
  obtain ⟨hv, hd, hst, hj⟩ := hs
  cases p <;> simpa only [Holds, hv, hd, hst, hj] using h

/-! ## Statements -/

section statements

variable {N i : ℕ} {args : ℕ → OffArgs}

/-- A request writes one of its buffers. -/
theorem view_setBuffer (hsep : Separate N args) (hi : i < N) (x : Buffer) (bytes : Bytes) :
    (m.setBuffer ((args i).buffer x) bytes).view (args i) =
      Function.update (m.view (args i)) x bytes := by
  funext y
  rcases eq_or_ne y x with rfl | hne
  · simp [Memory.view, Memory.setBuffer]
  · have hb : (args i).buffer y ≠ (args i).buffer x := fun e =>
      hne (hsep.buffer i hi i hi y x e).2
    simp [Memory.view, Memory.setBuffer, Function.update_of_ne hb, Function.update_of_ne hne]

/-- A statement takes the request to the next phase, unless it waits. -/
theorem Holds.op (hsep : Separate N args) (hi : i < N) (h : p.Holds k (args i) v l m)
    {op : ThreePhaseOp} (hn : p.next op = some q) (hax : op = .axFunc → k.AxFuncComputes)
    {f : ThreePhaseLocals → Memory → ThreePhaseLocals × Memory × Next}
    (hop : op.instr k.fns (args i) = .op f) :
    (f l m).2.2 = .next ∧ q.Holds k (args i) v (f l m).1 (f l m).2.1 ∨
      (f l m).2.2 = .stay ∧ p.Holds k (args i) v (f l m).1 (f l m).2.1 := by
  cases op <;> simp only [ThreePhaseOp.instr, Instr.op.injEq, reduceCtorEq] at hop <;> subst hop
  case stamp ts =>
    obtain rfl : p = q := by cases p <;> simpa [next] using hn
    exact .inl ⟨rfl, h.congr ⟨rfl, rfl, rfl, rfl⟩⟩
  case postOffload =>
    cases p <;> simp only [next, reduceCtorEq, Option.some.injEq] at hn
    subst hn
    by_cases hst : m.status (args i).comp = compStatusPending
    · exact .inr ⟨by simp [Kernels.fns, hst], h⟩
    · exact .inl ⟨by simp [Kernels.fns, hst], h.axDone hst⟩
  all_goals
    left
    refine ⟨rfl, ?_⟩
    cases p <;> simp only [next, reduceCtorEq, Option.some.injEq] at hn
    subst hn
  case preProc =>
    obtain ⟨hv, hj, hl⟩ := h
    refine ⟨?_, hj, hl, ?_⟩
    · rw [← hv]
      exact view_setBuffer hsep hi .preProcOutput _
    · rw [← hv]
      rfl
  case axInput =>
    obtain ⟨hv, hj, hl, hn⟩ := h
    exact ⟨hv, hj, hl, hn, rfl⟩
  case prep =>
    obtain ⟨hv, hj, hl, hn, hin⟩ := h
    refine ⟨hv, hj, hl, ?_, Function.update_self _ _ _⟩
    simp [Kernels.fns, Memory.prep, hin, hn, Kernels.descriptor]
  case submit =>
    obtain ⟨hv, hj, hl, hd, hst⟩ := h
    refine ⟨hl, .inl ?_⟩
    simp only [Kernels.fns, Memory.submit_of_desc hd]
    exact ⟨Function.update_self _ _ _, hst, hv⟩
  case axFunc =>
    obtain ⟨hv, hj, hl, hn, hin⟩ := h
    refine ⟨?_, hj, hl⟩
    have e := view_setBuffer (m := m) hsep hi .axFuncOutput
      (k.axFunc (m.buffers (args i).preProcOutput) (m.buffers (args i).axFuncOutput)
        l.axInputSize l.maxAxfuncOutputSize).1
    rw [hax rfl, hn, hv] at e
    have e₁ : m.buffers (args i).preProcOutput = k.preProcessed (args i) v .preProcOutput :=
      congrFun hv .preProcOutput
    have e₂ : m.buffers (args i).axFuncOutput = k.preProcessed (args i) v .axFuncOutput :=
      congrFun hv .axFuncOutput
    simp only [Kernels.fns, hin, hn]
    rw [e₁, e₂] at e
    rw [e₁, e₂, hax rfl]
    exact e
  case postInput =>
    obtain ⟨hv, hj, hl⟩ := h
    exact ⟨hv, hj, hl, rfl⟩
  case postProc =>
    obtain ⟨hv, hj, hl, hin⟩ := h
    refine ⟨?_, hj⟩
    have e := view_setBuffer (m := m) hsep hi .postProcOutput
      (k.postProc (m.buffers (args i).axFuncOutput) (m.buffers (args i).postProcOutput)
        (args i).postProcInputSize (args i).maxPostProcOutputSize).1
    have e₁ : m.buffers (args i).axFuncOutput = k.offloaded (args i) v .axFuncOutput :=
      congrFun hv .axFuncOutput
    have e₂ : m.buffers (args i).postProcOutput = k.offloaded (args i) v .postProcOutput :=
      congrFun hv .postProcOutput
    simp only [Kernels.fns, hin, hl]
    rw [e₁, e₂, hv] at e
    rw [e₁, e₂]
    exact e

/-- The statements of a request change nothing of another one. -/
theorem Holds.same (hsep : Separate N args) (hi : i < N) (h : p.Holds k (args i) v l m)
    {op : ThreePhaseOp} (hn : p.next op = some q)
    {f : ThreePhaseLocals → Memory → ThreePhaseLocals × Memory × Next}
    (hop : op.instr k.fns (args i) = .op f) {j : ℕ} (hj : j < N) (hne : j ≠ i) :
    Same (args j) m (f l m).2.1 := by
  have setBuffer (x : Buffer) (bytes : Bytes) :
      Same (args j) m (m.setBuffer ((args i).buffer x) bytes) := by
    refine ⟨?_, rfl, rfl, rfl⟩
    funext y
    exact Function.update_of_ne (fun e => hne (hsep.buffer j hj i hi y x e).1) _ _
  have hcomp : (args j).comp ≠ (args i).comp := by
    rwa [hsep.comp j hj, hsep.comp i hi]
  cases op <;> simp only [ThreePhaseOp.instr, Instr.op.injEq, reduceCtorEq] at hop <;> subst hop
  case preProc => exact setBuffer .preProcOutput _
  case axFunc => exact setBuffer .axFuncOutput _
  case postProc => exact setBuffer .postProcOutput _
  case prep =>
    exact ⟨rfl, Function.update_of_ne (fun e => hne (hsep.desc j hj i hi e)) _ _,
      Function.update_of_ne hcomp _ _, rfl⟩
  case submit =>
    cases p <;> simp only [next, reduceCtorEq, Option.some.injEq] at hn
    obtain ⟨-, -, -, hd, -⟩ := h
    simp only [Kernels.fns, Memory.submit_of_desc hd]
    exact ⟨rfl, rfl, rfl, Function.update_of_ne hcomp _ _⟩
  all_goals exact ⟨rfl, rfl, rfl, rfl⟩

/-- The statements of a request concern no other record than its own, which they only clear. -/
theorem Holds.records (h : p.Holds k (args i) v l m) {op : ThreePhaseOp}
    (hn : p.next op = some q)
    {f : ThreePhaseLocals → Memory → ThreePhaseLocals × Memory × Next}
    (hop : op.instr k.fns (args i) = .op f) (c : ℕ) :
    ((f l m).2.1.jobs c = m.jobs c ∨ c = (args i).comp) ∧
      ((f l m).2.1.status c = m.status c ∨
        c = (args i).comp ∧ (f l m).2.1.status c = compStatusPending) := by
  cases op <;> simp only [ThreePhaseOp.instr, Instr.op.injEq, reduceCtorEq] at hop <;> subst hop
  case prep =>
    refine ⟨.inl rfl, ?_⟩
    rcases eq_or_ne c (args i).comp with rfl | hne
    · exact .inr ⟨rfl, Function.update_self _ _ _⟩
    · exact .inl (Function.update_of_ne hne _ _)
  case submit =>
    cases p <;> simp only [next, reduceCtorEq, Option.some.injEq] at hn
    obtain ⟨-, -, -, hd, -⟩ := h
    simp only [Kernels.fns, Memory.submit_of_desc hd]
    refine ⟨?_, .inl trivial⟩
    rcases eq_or_ne c (args i).comp with rfl | hne
    · exact .inr rfl
    · exact .inl (Function.update_of_ne hne _ _)
  all_goals exact ⟨.inl rfl, .inl rfl⟩

end statements

/-! ## The accelerator -/

section accelerator

variable {N i : ℕ} {args : ℕ → OffArgs}

/-- The job of a request writes the destination. -/
theorem Holds.writes (hsep : Separate N args) (hi : i < N) (h : offloaded.Holds k (args i) v l m)
    (hj : m.jobs (args i).comp = .queued (k.descriptor (args i) v)) :
    offloaded.Holds k (args i) v l
      { m.setBuffer (args i).axFuncOutput (overwrite (m.buffers (args i).axFuncOutput)
          (k.ax ((m.buffers (args i).preProcOutput).take
            (xferSize (k.preprocOutputSize (args i) v))))) with
        jobs := Function.update m.jobs (args i).comp .written } := by
  obtain ⟨hl, ⟨-, hst, hv⟩ | ⟨hj', -⟩ | ⟨hj', -⟩⟩ := h
  · refine ⟨hl, .inr (.inl ⟨Function.update_self _ _ _, hst, ?_⟩)⟩
    refine (view_setBuffer (m := m) hsep hi .axFuncOutput _).trans ?_
    have e₁ : m.buffers (args i).preProcOutput = k.preProcessed (args i) v .preProcOutput :=
      congrFun hv .preProcOutput
    have e₂ : m.buffers (args i).axFuncOutput = k.preProcessed (args i) v .axFuncOutput :=
      congrFun hv .axFuncOutput
    rw [hv, e₁, e₂]
    rfl
  · rw [hj] at hj'
    cases hj'
  · rw [hj] at hj'
    cases hj'

/-- The job of a request completes. -/
theorem Holds.completes (h : offloaded.Holds k a v l m) (hj : m.jobs a.comp = .written) :
    offloaded.Holds k a v l { m with
      status := Function.update m.status a.comp compStatusCompleted
      jobs := Function.update m.jobs a.comp .idle } := by
  obtain ⟨hl, ⟨hj', -⟩ | ⟨-, -, hv⟩ | ⟨hj', -⟩⟩ := h
  · rw [hj] at hj'
    cases hj'
  · exact ⟨hl, .inr (.inr ⟨Function.update_self _ _ _, hv⟩)⟩
  · rw [hj] at hj'
    cases hj'

/-- The accelerator moves. -/
theorem Holds.move (hsep : Separate N args) {ls : ℕ → ThreePhaseLocals} {ps : ℕ → Phase}
    {vs : ℕ → View} (h : ∀ j < N, (ps j).Holds k (args j) (vs j) (ls j) m)
    (hidle : ∀ c, N ≤ c → m.jobs c = .idle) {x : Memory.AxMove} (hm : m.move k x = some m')
    (hi : i < N) : (ps i).Holds k (args i) (vs i) (ls i) m' := by
  -- a record with a job belongs to a request that has offloaded
  have owner {c : ℕ} (hc : m.jobs c ≠ .idle) : c < N ∧ (args c).comp = c ∧ ps c = offloaded ∧
      (m.jobs c = .queued (k.descriptor (args c) (vs c)) ∨ m.jobs c = .written) := by
    have hlt : c < N := by
      by_contra hge
      exact hc (hidle c (by omega))
    have hcomp := hsep.comp c hlt
    have hjob := (h c hlt).job
    rw [hcomp] at hjob
    rcases hjob with hj | ⟨hp, -, hj⟩
    · exact absurd hj hc
    · exact ⟨hlt, hcomp, hp, hj⟩
  have hcompi := hsep.comp i hi
  cases x with
  | tick =>
      obtain rfl := Option.some.inj hm
      exact (h i hi).congr ⟨rfl, rfl, rfl, rfl⟩
  | writes c =>
      simp only [Memory.move] at hm
      split at hm
      · next d hd =>
          obtain rfl := Option.some.inj hm
          obtain ⟨hlt, hcomp, hp, hj⟩ := owner (c := c) (by simp [hd])
          obtain rfl : d = k.descriptor (args c) (vs c) := by
            rw [hd] at hj
            rcases hj with hj | hj <;> cases hj
            rfl
          rcases eq_or_ne i c with rfl | hne
          · have := (hp ▸ h i hi).writes hsep hi (by rw [hcomp]; exact hd)
            rw [hcomp] at this
            rw [hp]
            exact this
          · refine (h i hi).congr ⟨?_, rfl, rfl, ?_⟩
            · funext y
              exact Function.update_of_ne
                (fun e => hne (hsep.buffer i hi c hlt y .axFuncOutput e).1) _ _
            · exact Function.update_of_ne (by rwa [hcompi]) _ _
      · cases hm
  | completes c =>
      simp only [Memory.move, Option.ite_none_right_eq_some, Option.some.injEq] at hm
      obtain ⟨hw, rfl⟩ := hm
      obtain ⟨hlt, hcomp, hp, -⟩ := owner (c := c) (by simp [hw])
      rcases eq_or_ne i c with rfl | hne
      · have := (hp ▸ h i hi).completes (by rw [hcomp]; exact hw)
        rw [hcomp] at this
        rw [hp]
        exact this
      · refine (h i hi).congr ⟨rfl, rfl, ?_, ?_⟩
        · exact Function.update_of_ne (by rwa [hcompi]) _ _
        · exact Function.update_of_ne (by rwa [hcompi]) _ _

end accelerator

end Phase

/-- The accelerator writes records with a job only, and starts no job on its own. -/
theorem Memory.move_records {k : Kernels} {m m' : Memory} {x : Memory.AxMove}
    (h : m.move k x = some m') (c : ℕ) :
    (m'.jobs c ≠ .idle → m.jobs c ≠ .idle) ∧
      (m'.status c = m.status c ∨ m.jobs c ≠ .idle) := by
  cases x with
  | tick =>
      obtain rfl := Option.some.inj h
      exact ⟨fun h => h, .inl rfl⟩
  | writes c' =>
      simp only [move] at h
      split at h
      · next d hd =>
          obtain rfl := Option.some.inj h
          refine ⟨fun h' => ?_, .inl rfl⟩
          rcases eq_or_ne c c' with rfl | hne
          · simp [hd]
          · simpa only [Function.update_of_ne hne] using h'
      · cases h
  | completes c' =>
      simp only [move, Option.ite_none_right_eq_some, Option.some.injEq] at h
      obtain ⟨hw, rfl⟩ := h
      rcases eq_or_ne c c' with rfl | hne
      · exact ⟨fun h' => absurd (Function.update_self _ _ _) h', .inr (by simp [hw])⟩
      · refine ⟨fun h' => ?_, .inl (Function.update_of_ne hne _ _)⟩
        simpa only [Function.update_of_ne hne] using h'

end XMPGym
