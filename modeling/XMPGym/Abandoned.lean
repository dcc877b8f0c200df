import XMPGym.Capacity
import XMPGym.ClosedLoop
import XMPGym.Requests

/-!
# Abandoned requests

The requests that submit to the emulated accelerator, under the sampling executor.  Their entry
function returns when `submit_offload` fails, which ends the process.  The executor starts a request
whenever the head record is pending, without a bound on the submissions under way; so this happens
in some run exactly if there are more requests than the accelerator has slots and a job takes time.
-/

open Relation Transition

namespace XMPGym

variable {D : Type*}

/-! ## The requests -/

/-- `status = submit_offload(comp, dst_payload)`, one access after the other, and the `return` on
`STATUS_FAIL`. -/
def submitOp (l : SubmitFrame × D) (m : EmulSys) : (SubmitFrame × D) × EmulSys × Next :=
  match l.1.pc with
  | .returned status => (l, m, if status = statusFail then .ret else .next)
  | _ =>
      (((submitOffload l.1 m.shared).1, l.2), { m with shared := (submitOffload l.1 m.shared).2 },
        .stay)

/-- The work of a request on its own data. -/
def workOp (g : D → D) (l : SubmitFrame × D) (m : EmulSys) : (SubmitFrame × D) × EmulSys × Next :=
  ((l.1, g l.2), m, .next)

/-- A request that submits, yields and works on the result. -/
def submittingRequest (work : List (D → D)) : List (Instr (SubmitFrame × D) EmulSys) :=
  yieldingRequest [submitOp] (work.map workOp)

/-- `yielding_simple_ranker_request`; the work is `ll_simple(head)`. -/
def yieldingSimpleRankerRequest (llSimple : D → D) : List (Instr (SubmitFrame × D) EmulSys) :=
  submittingRequest [llSimple]

/-- `yielding_router_request`; the work is `hashed = furc_hash(dst_payload, query.size(), 16)`. -/
def yieldingRouterRequest (furcHash : D → D) : List (Instr (SubmitFrame × D) EmulSys) :=
  submittingRequest [furcHash]

/-- The emulated accelerator as hardware. -/
def emulHardware (p : AxParams) : Hardware EmulSys :=
  ⟨fun a i => a.shared.comps i, EmulSys.clock,
    fun a a' => a' = a.emul p ∨ ∃ t, a.clock ≤ t ∧ a' = { a with clock := t }⟩

/-- A closed loop with requests that submit to the emulated accelerator. -/
def ClosedLoop.submitting (e : ClosedLoop) (p : AxParams) (work : ℕ → List (D → D)) (dst : ℕ → ℕ)
    (data : ℕ → D) : Program ClosedFrame (SubmitFrame × D) EmulSys :=
  e.program (emulHardware p) (fun i => submittingRequest (work i))
    fun i => (.init i (dst i), data i)

/-- The entry function of a request has returned, and the request has not counted itself. -/
def Sys.Abandons {F L M : Type*} (s : Sys F L M) : Prop :=
  ∃ i, s.running = .returned i ∧ 0 < completesLeft (s.request i).code

/-- An operation of a request is the submission, which stands first, or work. -/
theorem op_cases {work : List (D → D)}
    {f : SubmitFrame × D → EmulSys → (SubmitFrame × D) × EmulSys × Next}
    {c : List (Instr (SubmitFrame × D) EmulSys)} (h : .op f :: c <:+ submittingRequest work) :
    (f = submitOp ∧ .op f :: c = submittingRequest work) ∨
      (∃ g, f = workOp g) ∧ (.op f :: c).length < (submittingRequest work).length := by
  rcases List.suffix_cons_iff.1 h with e | h
  · exact .inl ⟨Instr.op.inj (List.cons.inj e).1, e⟩
  · right
    refine ⟨?_, Nat.lt_succ_of_le h.length_le⟩
    have hmem : .op f ∈ Instr.swap :: ((work.map workOp).map .op ++ [.completed, .swap]) :=
      h.subset List.mem_cons_self
    simp only [List.mem_cons, List.mem_append, List.mem_map, reduceCtorEq, List.not_mem_nil,
      or_false, false_or, Instr.op.injEq, exists_eq_right] at hmem
    obtain ⟨g, -, rfl⟩ := hmem
    exact ⟨g, rfl⟩

/-! ## The calls of a run -/

/-- Record `j` has been submitted: its request is pending, or it is being appended, or it is on the
list. -/
def Submitted (a : EmulSys) (j : ℕ) : Prop :=
  a.shared.submitFlag = offloadRequested ∧ a.shared.complAddr = j ∨ j ∈ pushing a.frame ∨
    j ∈ a.frame.offloadInFlightList.map OffloadEntry.comp

/-- The state `t` of the handshake in the state `s` of a run: the call in progress is the one of
the request that runs, as long as its body is whole. -/
structure Calls (work : ℕ → List (D → D)) (s : Sys ClosedFrame (SubmitFrame × D) EmulSys)
    (t : OffloadSys) : Prop where
  ax : t.ax = s.mem
  comp : ∀ i, (s.request i).locals.1.comp = i
  some : ∀ f, t.client = some f → ∃ i, s.running = .at (.request i) ∧
    (s.request i).code = submittingRequest (work i) ∧ (s.request i).locals.1 = f
  none : t.client = none → ∀ i, s.running = .at (.request i) →
    (s.request i).code ≠ submittingRequest (work i)
  count : calls t = s.starts.length

/-- The idle accelerator, and no call. -/
def noCalls (a : EmulSys) : OffloadSys := ⟨a, none, []⟩

section calls

variable {e : ClosedLoop} {p : AxParams} {work : ℕ → List (D → D)} {dst : ℕ → ℕ} {data : ℕ → D}
  {m₀ : EmulSys} {s s' : Sys ClosedFrame (SubmitFrame × D) EmulSys} {t : OffloadSys}

theorem calls_init : Calls work (.init (e.submitting p work dst data) m₀) (noCalls m₀) where
  ax := rfl
  comp _ := rfl
  some f h := by cases h
  none _ i h := by simp [Sys.init] at h
  count := rfl

/-- A request that has its whole body left is in its call. -/
theorem Calls.client (h : Calls work s t) {i : ℕ} (hrun : s.running = .at (.request i))
    (hcode : (s.request i).code = submittingRequest (work i)) :
    t.client = .some (s.request i).locals.1 := by
  cases hc : t.client with
  | none => exact absurd hcode (h.none hc i hrun)
  | some f =>
      obtain ⟨k, hrun', -, hf⟩ := h.some f hc
      rw [hrun] at hrun'
      obtain rfl := Ctx.request.inj (Running.at.inj hrun')
      rw [hf]

/-- Outside of requests there is no call. -/
theorem Calls.no_client (h : Calls work s t) (hrun : ∀ i, s.running ≠ .at (.request i)) :
    t.client = .none := by
  cases hc : t.client with
  | none => rfl
  | some f =>
      obtain ⟨i, hi, -⟩ := h.some f hc
      exact absurd hi (hrun i)

/-- Without a request of its own the accelerator takes nothing new, and it writes the records of its
list. -/
theorem submitted_emul (hsync : Sync t.client t.ax.shared t.ax.frame.pc) (j : ℕ) :
    (Submitted (t.ax.emul p) j → Submitted t.ax j) ∧
      ((t.ax.emul p).shared.comps j = t.ax.shared.comps j ∨ Submitted t.ax j) := by
  cases hpc : t.ax.frame.pc with
  | loadAddr u =>
      -- the address is that of the pending request
      have hreq : t.ax.shared.submitFlag = offloadRequested := by
        cases hc : t.client with
        | none => simp [hc, Sync, Settled, hpc, Quiet] at hsync
        | some f =>
            rw [hc, hpc] at hsync
            cases hf : f.pc <;>
              simp only [Sync, hf, Settled, Answered, Quiet, and_false, false_and, or_false]
                at hsync <;>
              exact hsync.1
      simp [Submitted, EmulSys.emul, nonblockingEmulAx, hpc, pushing, hreq]
      tauto
  | complete u =>
      cases hl : t.ax.frame.offloadInFlightList with
      | nil =>
          simp [Submitted, EmulSys.emul, nonblockingEmulAx, hpc, pushing, completeFront, hl]
      | cons x rest =>
          simp only [Submitted, EmulSys.emul, nonblockingEmulAx, hpc, pushing, completeFront, hl,
            List.map_cons, List.mem_cons, List.not_mem_nil, false_or]
          refine ⟨by tauto, ?_⟩
          rcases eq_or_ne j x.comp with rfl | hne
          · exact .inr (.inr (.inl rfl))
          · exact .inl (Function.update_of_ne hne _ _)
  | push u c =>
      simp [Submitted, EmulSys.emul, nonblockingEmulAx, hpc, pushing, pushEntry, newEntry]
      tauto
  | acceptRelease u c =>
      simp [Submitted, EmulSys.emul, nonblockingEmulAx, hpc, pushing, offloadReceived,
        offloadRequested]
      tauto
  | release | rejectRelease =>
      simp [Submitted, EmulSys.emul, nonblockingEmulAx, hpc, pushing, offloadReceived,
        offloadRequested]
      tauto
  | top =>
      cases hr : t.ax.shared.axRunning <;> cases hf : t.ax.frame.offloadInFlight <;>
        simp [Submitted, EmulSys.emul, nonblockingEmulAx, hpc, pushing, hr, hf]
  | time | poll | stamp =>
      simp only [Submitted, EmulSys.emul, nonblockingEmulAx, hpc, pushing]
      split_ifs <;> simp
  | resetTotal | count =>
      simp only [Submitted, EmulSys.emul, nonblockingEmulAx, hpc, pushing]
      split_ifs <;> simp
  | acceptStatus u | rejectStatus | undefined | exited =>
      simp [Submitted, EmulSys.emul, nonblockingEmulAx, hpc, pushing]

/-- A step of a call submits its own record, which it clears at first. -/
theorem submitted_submit {f : SubmitFrame} {a : EmulSys}
    (hsync : Sync (.some f) a.shared a.frame.pc) (j : ℕ) :
    (Submitted { a with shared := (submitOffload f a.shared).2 } j → Submitted a j ∨ j = f.comp) ∧
      ((submitOffload f a.shared).2.comps j = a.shared.comps j ∨
        j = f.comp ∧ (submitOffload f a.shared).2.comps j = compStatusPending) := by
  cases hpc : f.pc with
  | clear =>
      refine ⟨fun h => ?_, ?_⟩
      · left
        simpa [Submitted, submitOffload, hpc] using h
      · rcases eq_or_ne j f.comp with rfl | hne
        · exact .inr ⟨rfl, by simp [submitOffload, hpc]⟩
        · exact .inl (by simp [submitOffload, hpc, Function.update_of_ne hne])
  | storeAddr =>
      simp only [Submitted, submitOffload, hpc]
      refine ⟨?_, .inl trivial⟩
      rintro (⟨-, rfl⟩ | h)
      · exact .inr rfl
      · exact .inl (.inr h)
  | request =>
      simp only [Sync, hpc] at hsync
      simp only [Submitted, submitOffload, hpc, true_and]
      refine ⟨?_, .inl trivial⟩
      rintro (rfl | h)
      · exact .inr hsync.2.2
      · exact .inl (.inr h)
  | storeDst | wait | returned r =>
      simp only [submitOffload, hpc]
      exact ⟨.inl, .inl trivial⟩
  | check =>
      simp only [submitOffload, hpc]
      split_ifs <;> exact ⟨.inl, .inl rfl⟩

theorem Calls.recordRules (h : Calls work s t)
    (hsync : Sync t.client t.ax.shared t.ax.frame.pc)
    (hsuf : ∀ i, s.running = .at (.request i) →
      (s.request i).code <:+ submittingRequest (work i)) :
    RecordRules (e.submitting p work dst data) Submitted s where
  op i f c hrun hc j := by
    rcases op_cases (hc ▸ hsuf i hrun) with ⟨rfl, hbody⟩ | ⟨⟨g, rfl⟩, -⟩
    · have hclient := h.client hrun (hc.trans hbody)
      rw [hclient, h.ax] at hsync
      have hstep := submitted_submit hsync j
      rw [h.comp] at hstep
      simp only [Sys.instr, submitOp]
      split
      · exact ⟨.inl, .inl rfl⟩
      · exact hstep
    · exact ⟨.inl, .inl rfl⟩
  device m hm j := by
    rcases hm with rfl | ⟨u, -, rfl⟩
    · rw [← h.ax]
      exact submitted_emul hsync j
    · exact ⟨fun h => h, .inl rfl⟩

/-- A request with less than its whole body left is not in its call. -/
theorem Calls.no_client_of_ne (h : Calls work s t) {i : ℕ} (hrun : s.running = .at (.request i))
    (hne : (s.request i).code ≠ submittingRequest (work i)) : t.client = .none := by
  cases hc : t.client with
  | none => rfl
  | some f =>
      obtain ⟨k, hrun', hcode, -⟩ := h.some f hc
      rw [hrun] at hrun'
      obtain rfl := Ctx.request.inj (Running.at.inj hrun')
      exact absurd hcode hne

/-- Steps outside of calls. -/
theorem Calls.aside (h : Calls work s t) (hnone : t.client = .none) (hmem : s'.mem = s.mem)
    (hcomp : ∀ i, (s'.request i).locals.1.comp = (s.request i).locals.1.comp)
    (hne : ∀ i, s'.running = .at (.request i) →
      (s'.request i).code ≠ submittingRequest (work i))
    (hst : s'.starts = s.starts) : Calls work s' t where
  ax := h.ax.trans hmem.symm
  comp i := (hcomp i).trans (h.comp i)
  some f hf := by
    rw [hnone] at hf
    cases hf
  none _ := hne
  count := by rw [hst, h.count]

/-- The request that runs makes a step of its call. -/
theorem Calls.submitOp (h : Calls work s t) {i : ℕ} {c : List (Instr (SubmitFrame × D) EmulSys)}
    (hrun : s.running = .at (.request i)) (hc : (s.request i).code = .op submitOp :: c)
    (hbody : .op XMPGym.submitOp :: c = submittingRequest (work i)) :
    ∃ t', OffloadSys.Step p t t' ∧ Calls work (s.instr i c (.op XMPGym.submitOp)) t' := by
  have hclient := h.client hrun (hc.trans hbody)
  have hne : c ≠ submittingRequest (work i) := by
    intro hcc
    have := congrArg List.length (hbody.trans hcc.symm)
    simp at this
  by_cases hr : ∃ r, (s.request i).locals.1.pc = .returned r
  · obtain ⟨r, hr⟩ := hr
    -- the call ends
    refine ⟨_, .ret t _ r hclient hr, h.ax.trans ?_, fun k => ?_, fun f hf => (by cases hf),
      fun _ k hk => ?_, ?_⟩
    · simp [Sys.instr, XMPGym.submitOp, hr]
    · rcases eq_or_ne k i with rfl | hki
      · simpa [Sys.instr, XMPGym.submitOp, hr] using h.comp k
      · simpa [Sys.instr, Function.update_of_ne hki] using h.comp k
    · have hki : k = i := by
        simp only [Sys.instr, hrun] at hk
        split_ifs at hk
        simpa using hk.symm
      subst hki
      have hstay : (if r = statusFail then Next.ret else Next.next) ≠ .stay := by
        split_ifs <;> simp
      simpa [Sys.instr, XMPGym.submitOp, hr, hstay] using hne
    · have := h.count
      simp only [calls, hclient, Option.isSome_some, if_true] at this
      simpa [calls, Sys.instr, Sys.starts] using this
  · have hop : XMPGym.submitOp (s.request i).locals s.mem =
        (((submitOffload (s.request i).locals.1 s.mem.shared).1, (s.request i).locals.2),
          { s.mem with shared := (submitOffload (s.request i).locals.1 s.mem.shared).2 },
          .stay) := by
      simp only [XMPGym.submitOp]
      split
      · next r hr' => exact absurd ⟨r, hr'⟩ hr
      · rfl
    refine ⟨_, .submit t _ hclient, ?_, fun k => ?_, fun f hf => ?_, fun hn => (by cases hn), ?_⟩
    · simp only [OffloadSys.submit, Sys.instr, hop, h.ax]
    · rcases eq_or_ne k i with rfl | hki
      · simp only [Sys.instr, hop, Function.update_self]
        rw [submitOffload_comp, h.comp]
      · simpa [Sys.instr, Function.update_of_ne hki] using h.comp k
    · obtain rfl := Option.some.inj hf
      refine ⟨i, by simp [Sys.instr, hop, hrun], ?_, ?_⟩
      · simpa [Sys.instr, hop] using hbody
      · simp [Sys.instr, hop, h.ax]
    · have := h.count
      simp only [calls, hclient, Option.isSome_some, if_true] at this
      simpa [calls, OffloadSys.submit, Sys.instr, Sys.starts] using this

/-- The executor resumes a request that waits, which has one swap less than the body left. -/
theorem Calls.resume {d : InOrder e.totalRequests}
    (hinv : ClosedInv e (e.submitting p work dst data) Submitted d s) (h : Calls work s t)
    (hnone : t.client = .none) (ht : d.turn = .scheduler) (hres : d.resumed < d.started)
    (n : ℕ) (x : Data) (g : ClosedFrame) :
    Calls work (Sys.fcontextSwap { s with frame := g } .executor ⟨.request d.resumed, n + 1⟩ x)
      t := by
  refine h.aside hnone (Sys.swap_mem _ _ _ _) (fun i => ?_) (fun i hi => ?_)
    (Sys.starts_swap_resume _ _ _ _ _)
  · rcases eq_or_ne i d.resumed with rfl | hne
    · simp
    · simp [Function.update_of_ne hne]
  · simp only [Sys.swap_running, Running.at.injEq, Ctx.request.injEq] at hi
    subst hi
    have hst := hinv.follows.stages d.resumed
    rw [d.stage_resumed hres, if_neg (by simp [ht])] at hst
    intro hcode
    rw [Sys.swap_code] at hcode
    have hsw := hst.swaps
    rw [show (s.request d.resumed).code = submittingRequest (work d.resumed) from hcode,
      submittingRequest, swapsLeft_yieldingRequest] at hsw
    omega

/-- The executor starts a request, which begins its call. -/
theorem Calls.start (h : Calls work s t) (hnone : t.client = .none) {i : ℕ}
    (hfresh : s.request i = ⟨.none, submittingRequest (work i), .init i (dst i), data i⟩)
    (x : Data) (g : ClosedFrame) :
    Calls work (Sys.fcontextSwap { s with frame := g } .executor (fcontextCreate (.request i)) x)
      { t with client := .some (.init i (dst i)) } := by
  refine ⟨h.ax.trans ?_, fun k => ?_, fun f hf => ?_, fun hn => (by cases hn), ?_⟩
  · simp
  · rcases eq_or_ne k i with rfl | hne
    · simpa [fcontextCreate] using h.comp k
    · simpa [fcontextCreate, Function.update_of_ne hne] using h.comp k
  · obtain rfl := Option.some.inj hf
    exact ⟨i, by simp [fcontextCreate], by simp [fcontextCreate, hfresh],
      by simp [fcontextCreate, hfresh]⟩
  · have := h.count
    simp only [calls, hnone, Option.isSome_none, Bool.false_eq_true, if_false,
      Nat.add_zero] at this
    simpa [calls, Sys.starts, Swap.start, fcontextCreate] using this

/-- Every step of a run is a step of the handshake, or none. -/
theorem Calls.step {d : InOrder e.totalRequests}
    (hinv : ClosedInv e (e.submitting p work dst data) Submitted d s)
    (hpend : e.ready compStatusPending = false) (h : Calls work s t)
    (hs : Sys.Step (e.submitting p work dst data) s s') :
    ∃ t', (t' = t ∨ OffloadSys.Step p t t') ∧ Calls work s' t' := by
  have suffix {i : ℕ} (hrun : s.running = .at (.request i)) :
      (s.request i).code <:+ submittingRequest (work i) :=
    hinv.follows.suffix hrun
  have shorter {i : ℕ} {ins : Instr (SubmitFrame × D) EmulSys} {c : List _}
      (hrun : s.running = .at (.request i)) (hc : (s.request i).code = ins :: c) :
      c ≠ submittingRequest (work i) := by
    intro hcc
    have := (hc ▸ suffix hrun).length_le
    rw [hcc, List.length_cons] at this
    omega
  cases hinv.follows.move hs with
  | hw m hm =>
      rcases hm with rfl | ⟨u, hu, rfl⟩
      · refine ⟨_, .inr (.emul t), ?_, h.comp, h.some, h.none, h.count⟩
        simp only [OffloadSys.emul, h.ax]
      · refine ⟨_, .inr (.tick t u (by rwa [h.ax])), ?_, h.comp, h.some, h.none, h.count⟩
        simp only [h.ax]
  | goto f hrun hact =>
      exact ⟨t, .inl rfl, h.aside (h.no_client (by simp [hrun])) rfl (fun _ => rfl)
        (by simp [hrun]) rfl⟩
  | exit f hrun hact =>
      exact ⟨t, .inl rfl, h.aside (h.no_client (by simp [hrun])) rfl (fun _ => rfl)
        (by simp) rfl⟩
  | fault hrun hact =>
      exact ⟨t, .inl rfl, h.aside (h.no_client (by simp [hrun])) rfl (fun _ => rfl)
        (by simp) rfl⟩
  | swap tg x g hrun hact =>
      have hnone := h.no_client (by simp [hrun])
      obtain ⟨ht, -, -, ⟨y, n, -, -, rfl, hres, -, -⟩ | ⟨rfl, -, hfresh, -⟩⟩ :=
        hinv.swap_target hpend hrun hact
      · exact ⟨t, .inl rfl, h.resume hinv hnone ht hres n x _⟩
      · exact ⟨_, .inr (.call t d.started (dst d.started) hnone), h.start hnone hfresh x _⟩
  | op i f c hrun hc =>
      rcases op_cases (hc ▸ suffix hrun) with ⟨rfl, hbody⟩ | ⟨⟨g, rfl⟩, hlen⟩
      · obtain ⟨t', ht', h'⟩ := h.submitOp hrun hc hbody
        exact ⟨t', .inr ht', h'⟩
      · have hne : (s.request i).code ≠ submittingRequest (work i) := by
          intro hcode
          rw [← hcode, hc] at hlen
          omega
        refine ⟨t, .inl rfl, h.aside (h.no_client_of_ne hrun hne) rfl (fun k => ?_) (fun k hk => ?_)
          rfl⟩
        · rcases eq_or_ne k i with rfl | hki
          · simp [Sys.instr, workOp]
          · simp [Sys.instr, Function.update_of_ne hki]
        · simp only [Sys.instr, workOp, reduceCtorEq, if_false, hrun, Running.at.injEq,
            Ctx.request.injEq] at hk
          subst hk
          simpa [Sys.instr, workOp] using shorter hrun hc
  | completed i c hrun hc =>
      have hne : (s.request i).code ≠ submittingRequest (work i) := by
        rw [hc]
        intro hcode
        cases hcode
      refine ⟨t, .inl rfl, h.aside (h.no_client_of_ne hrun hne) rfl (fun k => ?_) (fun k hk => ?_)
        rfl⟩
      · rcases eq_or_ne k i with rfl | hki
        · simp [Sys.setCode]
        · simp [Sys.setCode, Function.update_of_ne hki]
      · have hk : s.running = .at (.request k) := hk
        rw [hrun] at hk
        obtain rfl := Ctx.request.inj (Running.at.inj hk)
        simpa [Sys.setCode] using shorter hrun hc
  | back i n c x hrun hc harg =>
      have hne : (s.request i).code ≠ submittingRequest (work i) := by
        rw [hc]
        intro hcode
        cases hcode
      refine ⟨t, .inl rfl, h.aside (h.no_client_of_ne hrun hne) (Sys.swap_mem _ _ _ _) (fun k => ?_)
        (fun k hk => by simp at hk) (Sys.starts_swap_executor _ _ _ _)⟩
      rcases eq_or_ne k i with rfl | hki
      · simp [Sys.setCode]
      · simp [Sys.setCode, Function.update_of_ne hki]
  | filler i hrun => exact absurd hrun (hinv.running_ne_filler i)

/-! ## Runs in which no submission is rejected -/

theorem twoSwaps_submitting : TwoSwaps (e.submitting p work dst data) :=
  twoSwaps_yieldingRequest _ rfl

theorem completesOnce_submitting : CompletesOnce (e.submitting p work dst data) :=
  completesOnce_yieldingRequest _ rfl

/-- The accelerator idles and no record has been written. -/
structure EmulSys.Ready (a : EmulSys) : Prop where
  idle : a.Idle
  pending : ∀ c, a.shared.comps c = compStatusPending

theorem EmulSys.Ready.not_submitted (h : m₀.Ready) (j : ℕ) : ¬ Submitted m₀ j := by
  simp [Submitted, h.idle.flag, pushing, h.idle.pc, h.idle.list, offloadReceived, offloadRequested]

/-- The executor keeps its invariant, and the handshake is in the state `t`. -/
structure Calling (e : ClosedLoop) (p : AxParams) (work : ℕ → List (D → D)) (dst : ℕ → ℕ)
    (data : ℕ → D) (s : Sys ClosedFrame (SubmitFrame × D) EmulSys) (t : OffloadSys) : Prop where
  inv : ∃ d, ClosedInv e (e.submitting p work dst data) Submitted d s
  account : Account [] t
  calls : Calls work s t

/-- The handshake with at most `N` calls simulates the executor with its requests. -/
theorem simulates_calling (hpend : e.ready compStatusPending = false) :
    Simulates (Sys.Step (e.submitting p work dst data)) (CallStep p e.totalRequests)
      (Calling e p work dst data) := by
  rintro s s' t hs ⟨⟨d, hinv⟩, hacc, h⟩
  have hrules : RecordRules (e.submitting p work dst data) Submitted s :=
    h.recordRules hacc.sync fun i hi => hinv.follows.suffix hi
  obtain ⟨d', hinv'⟩ := hinv.step twoSwaps_submitting hrules (fun _ => completesOnce_submitting)
    hpend hs
  obtain ⟨t', rfl | ht', h'⟩ := h.step hinv hpend hs
  · exact ⟨t', .refl, ⟨d', hinv'⟩, hacc, h'⟩
  · refine ⟨t', .single ⟨ht', ?_⟩, ⟨d', hinv'⟩, preserved_account [] ht' hacc, h'⟩
    obtain ⟨n, hn, hst⟩ := d'.starts_eq
    rw [h'.count, hinv'.follows.starts, hst, List.length_range]
    exact hn

/-- A run is a run of the handshake with at most `N` calls. -/
theorem calling_of_reachable (hpend : e.ready compStatusPending = false) (h₀ : m₀.Ready)
    (hr : Sys.Reachable (e.submitting p work dst data) m₀ s) :
    ∃ t, ReflTransGen (CallStep p e.totalRequests) (noCalls m₀) t ∧
      Calling e p work dst data s t :=
  (simulates_calling hpend).run hr ⟨⟨.idle, closedInv_init fun i _ =>
    ⟨h₀.pending i, h₀.not_submitted i⟩⟩, h₀.idle.polling.account, calls_init⟩

/-- No entry function returns if no submission is rejected. -/
theorem not_returned (hpend : e.ready compStatusPending = false) (h₀ : m₀.Ready)
    (hgr : ∀ t, ReflTransGen (CallStep p e.totalRequests) (noCalls m₀) t → Granted t)
    (hr : Sys.Reachable (e.submitting p work dst data) m₀ s) (i : ℕ) :
    s.running ≠ .returned i := by
  induction hr with
  | refl => simp [Sys.init]
  | @tail s s' hr hs ih =>
      obtain ⟨t, hrun, ⟨d, hinv⟩, -, h⟩ := calling_of_reachable hpend h₀ hr
      cases hinv.follows.move hs with
      | hw | completed => exact ih
      | goto f hrun hact => simp [hrun]
      | exit | fault => simp
      | swap | back => simp
      | op k f c hk hc =>
          have hsuf : .op f :: c <:+ submittingRequest (work k) := by
            rw [← hc]
            exact hinv.follows.suffix hk
          rcases op_cases hsuf with ⟨rfl, hbody⟩ | ⟨⟨g, rfl⟩, -⟩
          · have hclient := h.client hk (hc.trans hbody)
            have hnext : (XMPGym.submitOp (s.request k).locals s.mem).2.2 ≠ .ret := by
              simp only [XMPGym.submitOp]
              split
              · next r hr =>
                  have hne : r ≠ statusFail := by
                    rintro rfl
                    exact (hgr t hrun).notFail _ hclient hr
                  simp [hne]
              · simp
            simp [Sys.instr, hnext, hk]
          · simp [Sys.instr, workOp, hk]
      | filler k hk => exact absurd hk (hinv.running_ne_filler k)

end calls

/-! ## Runs in which the list fills up -/

section filling

variable {p : AxParams} {work : ℕ → List (D → D)} {dst : ℕ → ℕ} {data : ℕ → D} {e : ClosedLoop}
  {m₀ : EmulSys} {s : Sys ClosedFrame (SubmitFrame × D) EmulSys}

/-- Request `i` is at `f` in its call. -/
def Sys.inCall (s : Sys ClosedFrame (SubmitFrame × D) EmulSys) (i : ℕ) (x : SubmitFrame × EmulSys) :
    Sys ClosedFrame (SubmitFrame × D) EmulSys :=
  { s with
    request := Function.update s.request i
      { s.request i with locals := (x.1, (s.request i).locals.2) }
    mem := x.2 }

/-- A run of a call is a run of the request. -/
theorem step_inCall {i : ℕ} {c : List (Instr (SubmitFrame × D) EmulSys)}
    (hrun : s.running = .at (.request i)) (hc : (s.request i).code = .op submitOp :: c)
    {x y : SubmitFrame × EmulSys} (h : CallMove p x y) :
    Sys.Step (e.submitting p work dst data) (s.inCall i x) (s.inCall i y) := by
  cases h with
  | emul f a => exact .hw _ _ (.inl rfl)
  | submit f a hr =>
      have hop : submitOp (f, (s.request i).locals.2) a =
          (((submitOffload f a.shared).1, (s.request i).locals.2),
            { a with shared := (submitOffload f a.shared).2 }, .stay) := by
        cases hpc : f.pc with
        | returned r => exact absurd hpc (hr r)
        | _ => simp only [submitOp, hpc]
      refine .thread _ _ ?_
      simp [Sys.thread, Sys.inCall, hrun, Sys.requestStep, hc, Sys.instr, hop]

theorem run_inCall {i : ℕ} {c : List (Instr (SubmitFrame × D) EmulSys)}
    (hrun : s.running = .at (.request i)) (hc : (s.request i).code = .op submitOp :: c)
    {x : SubmitFrame × EmulSys}
    (h : ReflTransGen (CallMove p) ((s.request i).locals.1, s.mem) x) :
    ReflTransGen (Sys.Step (e.submitting p work dst data)) s (s.inCall i x) := by
  have hself : s.inCall i ((s.request i).locals.1, s.mem) = s := by
    simp [Sys.inCall]
  have hstep : ∀ x y, CallMove p x y →
      Sys.Step (e.submitting p work dst data) (s.inCall i x) (s.inCall i y) :=
    fun _ _ h => step_inCall hrun hc h
  have hlift : ReflTransGen (Sys.Step (e.submitting p work dst data))
      (s.inCall i ((s.request i).locals.1, s.mem)) (s.inCall i x) :=
    ReflTransGen.lift (fun x => s.inCall i x) hstep _ _ h
  rwa [hself] at hlift

/-- `j` requests wait, each with an entry on the list, and the executor is about to start another
one; no time has passed. -/
structure Stacked (work : ℕ → List (D → D)) (dst : ℕ → ℕ) (data : ℕ → D) (clock j : ℕ)
    (s : Sys ClosedFrame (SubmitFrame × D) EmulSys) : Prop where
  running : s.running = .at .executor
  pc : s.frame.pc = .loop
  unstarted : s.frame.nextUnstartedReqIdx = j
  head : s.frame.nextRequestOffloadToCompleteIdx = 0
  completed : s.requestsCompleted = 0
  fresh : ∀ i, j ≤ i →
    s.request i = ⟨none, submittingRequest (work i), (.init i (dst i), data i)⟩
  loaded : Loaded j s.mem
  top : s.mem.frame.pc = .top
  clock : s.mem.clock = clock

/-- The state in which request `j` has just been started. -/
def Sys.startRequest (s : Sys ClosedFrame (SubmitFrame × D) EmulSys) (j : ℕ) :
    Sys ClosedFrame (SubmitFrame × D) EmulSys :=
  Sys.fcontextSwap { s with frame := { s.frame with pc := .started } } .executor
    (fcontextCreate (.request j)) (.offArgs j)

section stacked

variable {t j : ℕ}

/-- The head record is pending, so the executor starts a request. -/
theorem Stacked.start (h : Stacked work dst data t j s) (hpend : e.ready compStatusPending = false)
    (hj : j < e.totalRequests) :
    Sys.Step (e.submitting p work dst data) s (s.startRequest j) := by
  have hact : e.executor (emulHardware p) s.frame s.arrived s.requestsCompleted s.mem =
      .swap (fcontextCreate (.request j)) (.offArgs j) { s.frame with pc := .started } := by
    have hcount : e.count s.frame s.requestsCompleted = 0 := by
      simp [ClosedLoop.count, h.head, h.completed]
    have hrec : (emulHardware p).status s.mem 0 = compStatusPending := h.loaded.pending 0
    simp [ClosedLoop.executor, h.pc, hcount, h.head, hrec, hpend, h.unstarted, hj,
      show 0 < e.totalRequests by omega]
  refine .thread _ _ ?_
  simp only [Sys.thread, h.running, Sys.executorStep]
  rw [show (e.submitting p work dst data).executor = e.executor (emulHardware p) from rfl, hact]
  rfl

theorem Stacked.startRequest_code (h : Stacked work dst data t j s) :
    ((s.startRequest j).request j).code = submittingRequest (work j) := by
  simp [Sys.startRequest, h.fresh j le_rfl]

theorem Stacked.startRequest_locals (h : Stacked work dst data t j s) :
    ((s.startRequest j).request j).locals = (.init j (dst j), data j) := by
  simp [Sys.startRequest, fcontextCreate, h.fresh j le_rfl]

/-- What is left of a request after its submission. -/
def afterSubmission (work : List (D → D)) : List (Instr (SubmitFrame × D) EmulSys) :=
  .swap :: ((work.map workOp).map .op ++ [.completed, .swap])

theorem submittingRequest_eq (work : List (D → D)) :
    submittingRequest work = .op submitOp :: afterSubmission work := rfl

/-- A request is started, and a run of its call follows. -/
theorem Stacked.call (h : Stacked work dst data t j s) (hpend : e.ready compStatusPending = false)
    (hj : j < e.totalRequests) {x : SubmitFrame × EmulSys}
    (hx : ReflTransGen (CallMove p) (.init j (dst j), s.mem) x) :
    ReflTransGen (Sys.Step (e.submitting p work dst data)) s ((s.startRequest j).inCall j x) := by
  refine .head (h.start hpend hj) (run_inCall ?_ (h.startRequest_code.trans rfl) ?_)
  · simp [Sys.startRequest, fcontextCreate]
  · rw [h.startRequest_locals]
    simpa [Sys.startRequest] using hx

/-- A request is started, and its call returns. -/
theorem Stacked.submit (h : Stacked work dst data t j s) (hpend : e.ready compStatusPending = false)
    (hj : j < e.totalRequests) {r : ℤ} {n : ℕ} {b : EmulSys}
    (hcall : ReflTransGen (CallMove p) (.init j (dst j), s.mem) (⟨.returned r, j, dst j, n⟩, b)) :
    ∃ s', ReflTransGen (Sys.Step (e.submitting p work dst data)) s s' ∧
      s'.running = (if r = statusFail then .returned j else .at (.request j)) ∧
      s'.request = Function.update s.request j
        ⟨some ⟨(s.handles.jump .executor (fcontextCreate (.request j))).1, .offArgs j⟩,
          afterSubmission (work j), (⟨.returned r, j, dst j, n⟩, data j)⟩ ∧
      s'.frame = { s.frame with pc := .started } ∧
      s'.requestsCompleted = s.requestsCompleted ∧ s'.mem = b := by
  have hfresh := h.fresh j le_rfl
  have hrun : ((s.startRequest j).inCall j (⟨.returned r, j, dst j, n⟩, b)).running =
      .at (.request j) := by
    simp [Sys.inCall, Sys.startRequest, fcontextCreate]
  have hcode : (((s.startRequest j).inCall j (⟨.returned r, j, dst j, n⟩, b)).request j).code =
      .op submitOp :: afterSubmission (work j) := by
    simp [Sys.inCall, Sys.startRequest, fcontextCreate, hfresh, submittingRequest_eq]
  have hret : Sys.Step (e.submitting p work dst data)
      ((s.startRequest j).inCall j (⟨.returned r, j, dst j, n⟩, b))
      (((s.startRequest j).inCall j (⟨.returned r, j, dst j, n⟩, b)).instr j
        (afterSubmission (work j)) (.op submitOp)) := by
    refine .thread _ _ ?_
    rw [Sys.thread, hrun]
    simp only [Sys.requestStep, hcode]
  refine ⟨_, (h.call (e := e) hpend hj hcall).tail hret, ?_⟩
  by_cases hr : r = statusFail <;>
    simp [Sys.inCall, Sys.startRequest, fcontextCreate, hfresh, Sys.instr, submitOp, hr]

/-- A started request swaps back, and the executor stores its handle. -/
theorem run_back (e : ClosedLoop) (p : AxParams) (work : ℕ → List (D → D)) (dst : ℕ → ℕ)
    (data : ℕ → D) {i : ℕ} {c : List (Instr (SubmitFrame × D) EmulSys)} {x : FcontextTransfer}
    (hrun : s.running = .at (.request i)) (hc : (s.request i).code = .swap :: c)
    (harg : (s.request i).arg = some x) (hown : x.prevContext.owner = .executor)
    (hpc : s.frame.pc = .started) :
    ∃ s', ReflTransGen (Sys.Step (e.submitting p work dst data)) s s' ∧
      s'.running = .at .executor ∧
      (∃ xfers, s'.frame = { s.frame with
        pc := .loop
        offloadReqXfer := xfers
        nextUnstartedReqIdx := s.frame.nextUnstartedReqIdx + 1 }) ∧
      s'.requestsCompleted = s.requestsCompleted ∧ (∀ k, k ≠ i → s'.request k = s.request k) ∧
      s'.mem = s.mem := by
  have hswap : Sys.Step (e.submitting p work dst data) s
      ((s.setCode i c).fcontextSwap (.request i) x.prevContext .null) :=
    .thread _ _ (by simp [Sys.thread, hrun, Sys.requestStep, hc, Sys.instr, harg])
  obtain ⟨⟨_, n⟩, d⟩ := x
  obtain rfl := hown
  have hrun' : ((s.setCode i c).fcontextSwap (.request i) ⟨.executor, n⟩ .null).running =
      .at .executor := by simp
  refine ⟨_, .tail (.single hswap) (.thread _ _ (by rw [Sys.thread, hrun'])), ?_⟩
  have hpc' : (s.setCode i c).frame.pc = .started := hpc
  simp only [Sys.executorStep, ClosedLoop.submitting, ClosedLoop.program, ClosedLoop.executor,
    Sys.swap_frame, hpc']
  refine ⟨hrun', ⟨_, rfl⟩, by simp [Sys.setCode], fun k hk => ?_, by simp [Sys.setCode]⟩
  simp [Sys.setCode, Function.update_of_ne hk]

/-- With room on the list, one more request can come to wait. -/
theorem Stacked.next (h : Stacked work dst data t j s) (hpend : e.ready compStatusPending = false)
    (hj : j < e.totalRequests) (hroom : (j : ℤ) < p.maxInflights) (hzero : 0 < p.offloadTime)
    (hb : t + p.offloadTime < 2 ^ 64) :
    ∃ s', ReflTransGen (Sys.Step (e.submitting p work dst data)) s s' ∧
      Stacked work dst data t (j + 1) s' := by
  obtain ⟨b, hcall, hl, htop, hclock⟩ := h.loaded.call_accepted h.top hroom hzero
    (by rwa [h.clock]) j (dst j)
  obtain ⟨s₁, hrun₁, hrunning₁, hreq₁, hframe₁, hcompleted₁, hmem₁⟩ :=
    h.submit (e := e) hpend hj hcall
  obtain ⟨s₂, hrun₂, hrunning₂, ⟨xfers, hframe₂⟩, hcompleted₂, hreq₂, hmem₂⟩ :=
    run_back e p work dst data hrunning₁ (by rw [hreq₁, Function.update_self, afterSubmission])
      (by rw [hreq₁, Function.update_self]) (Handles.jump_owner _ _ _) (by rw [hframe₁])
  rw [hframe₁] at hframe₂
  rw [hmem₁] at hmem₂
  refine ⟨s₂, hrun₁.trans hrun₂, hrunning₂, by rw [hframe₂], ?_, ?_, ?_, fun i hi => ?_, ?_, ?_, ?_⟩
  · rw [hframe₂]
    exact congrArg (· + 1) h.unstarted
  · rw [hframe₂]
    exact h.head
  · rw [hcompleted₂, hcompleted₁, h.completed]
  · have hne : i ≠ j := by omega
    rw [hreq₂ i hne, hreq₁, Function.update_of_ne hne]
    exact h.fresh i (by omega)
  · rwa [hmem₂]
  · rwa [hmem₂]
  · rw [hmem₂]
    exact hclock.trans h.clock

/-- With a full list, the next request can be abandoned. -/
theorem Stacked.abandons (h : Stacked work dst data t j s)
    (hpend : e.ready compStatusPending = false) (hj : j < e.totalRequests)
    (hfull : p.maxInflights ≤ j) :
    ∃ s', ReflTransGen (Sys.Step (e.submitting p work dst data)) s s' ∧ s'.Abandons := by
  obtain ⟨b, hcall⟩ := h.loaded.call_rejected (p := p) h.top hfull j (dst j)
  obtain ⟨s', hrun, hrunning, hreq, -⟩ := h.submit (e := e) hpend hj hcall
  refine ⟨s', hrun, j, hrunning, ?_⟩
  rw [hreq, Function.update_self]
  simp [afterSubmission, completesLeft_append]

end stacked

/-- The executor enters its loop, and nothing has been submitted. -/
theorem stacked_zero (h₀ : m₀.Ready) {f : ClosedFrame}
    (hbegin : e.begin .init m₀.clock = .goto f) (hpc : f.pc = .loop)
    (hf : f.nextUnstartedReqIdx = 0 ∧ f.nextRequestOffloadToCompleteIdx = 0) :
    ∃ s, Sys.Reachable (e.submitting p work dst data) m₀ s ∧
      Stacked work dst data m₀.clock 0 s := by
  have hact : e.executor (emulHardware p) .init ⟨fcontextCreate .executor, .null⟩ 0 m₀ = .goto f :=
    hbegin
  refine ⟨{ Sys.init (e.submitting p work dst data) m₀ with frame := f },
    .single (.thread _ _ ?_), rfl, hpc, hf.1, hf.2, rfl, fun i _ => rfl, ?_, h₀.idle.pc, rfl⟩
  · simp only [Sys.thread, Sys.init, Sys.executorStep, ClosedLoop.submitting, ClosedLoop.program,
      hact]
  · exact ⟨h₀.idle.occupied.agrees, by simp [Sys.init, h₀.idle.list],
      fun h => absurd h₀.idle.list h, h₀.idle.running, h₀.pending⟩

/-- As many requests can come to wait as the list has room for. -/
theorem stacked_of_le (hpend : e.ready compStatusPending = false) (hzero : 0 < p.offloadTime)
    (hb : m₀.clock + p.offloadTime < 2 ^ 64)
    (h₀ : ∃ s, Sys.Reachable (e.submitting p work dst data) m₀ s ∧
      Stacked work dst data m₀.clock 0 s) {j : ℕ} (hj : j ≤ e.totalRequests)
    (hroom : (j : ℤ) ≤ p.maxInflights) :
    ∃ s, Sys.Reachable (e.submitting p work dst data) m₀ s ∧
      Stacked work dst data m₀.clock j s := by
  induction j with
  | zero => exact h₀
  | succ j ih =>
      obtain ⟨s, hr, h⟩ := ih (by omega) (by omega)
      obtain ⟨s', hr', h'⟩ := h.next (e := e) hpend hj (by omega) hzero hb
      exact ⟨s', hr.trans hr', h'⟩

/-- If there are more requests than slots and a job takes time, a request can be abandoned. -/
theorem exists_abandons (hpend : e.ready compStatusPending = false) (hM : 0 ≤ p.maxInflights)
    (hN : p.maxInflights < e.totalRequests) (hzero : 0 < p.offloadTime)
    (hb : m₀.clock + p.offloadTime < 2 ^ 64)
    (h₀ : ∃ s, Sys.Reachable (e.submitting p work dst data) m₀ s ∧
      Stacked work dst data m₀.clock 0 s) :
    ∃ s, Sys.Reachable (e.submitting p work dst data) m₀ s ∧ s.Abandons := by
  have hslots : (p.maxInflights.toNat : ℤ) = p.maxInflights := Int.toNat_of_nonneg hM
  obtain ⟨s, hr, h⟩ := stacked_of_le hpend hzero hb h₀ (j := p.maxInflights.toNat) (by omega)
    (by omega)
  obtain ⟨s', hr', habandons⟩ := h.abandons (e := e) (p := p) hpend (by omega) (by omega)
  exact ⟨s', hr.trans hr', habandons⟩

end filling

/-! ## The sampling executor -/

section sampling

variable (p : AxParams) (k N samples idx : ℕ) (work : ℕ → List (D → D)) (dst : ℕ → ℕ) (data : ℕ → D)

/-- The sampling executor with requests that submit to the emulated accelerator. -/
def samplingSubmitting : Program ClosedFrame (SubmitFrame × D) EmulSys :=
  (executeYieldingRequestsClosedSystemWithSampling k N samples idx).submitting p work dst data

/-- Without room for a sample, or with an interval of zero, the executor does not come to its
loop. -/
theorem fault_of_no_samples (h : k = 0 ∨ samples = 0) {m₀ : EmulSys}
    {s : Sys ClosedFrame (SubmitFrame × D) EmulSys}
    (hr : Sys.Reachable (samplingSubmitting p k N samples idx work dst data) m₀ s) :
    s.running = .at .executor ∧ s.frame.pc = .begin ∨ s.running = .fault := by
  induction hr with
  | refl => exact .inl ⟨rfl, rfl⟩
  | @tail s s' _ hs ih =>
      cases hs with
      | hw => exact ih
      | thread _ h' =>
          rcases ih with ⟨hrun, hpc⟩ | hrun
          · have hact : (samplingSubmitting p k N samples idx work dst data).executor s.frame
                s.arrived s.requestsCompleted s.mem = .fault := by
              simp only [samplingSubmitting, ClosedLoop.submitting, ClosedLoop.program,
                ClosedLoop.executor, hpc, ClosedLoop.begin,
                executeYieldingRequestsClosedSystemWithSampling]
              split_ifs with h₁ h₂
              · rfl
              · rfl
              · exact absurd ⟨h.resolve_right h₁, by simp⟩ h₂
            rw [Sys.thread, hrun] at h'
            simp only [Sys.executorStep, hact, Option.some.injEq] at h'
            subst h'
            exact .inr rfl
          · rw [Sys.thread, hrun] at h'
            cases h'

theorem pollingSys_ready : pollingSys.ax.Ready :=
  ⟨⟨rfl, rfl, rfl, rfl, rfl, rfl, rfl⟩, fun _ => rfl⟩

/-- From an accelerator whose clock stands low enough, and with more requests than slots, the
sampling executor can lose a request. -/
theorem samplingSubmitting_abandons {m₀ : EmulSys} (h₀ : m₀.Ready) (hk : k ≠ 0)
    (hsamples : samples ≠ 0) (hM : 0 ≤ p.maxInflights) (hN : p.maxInflights < N)
    (hzero : 0 < p.offloadTime) (hb : m₀.clock + p.offloadTime < 2 ^ 64) :
    ∃ s, Sys.Reachable (samplingSubmitting p k N samples idx work dst data) m₀ s ∧ s.Abandons := by
  have hbegin : (executeYieldingRequestsClosedSystemWithSampling k N samples idx).begin .init
      m₀.clock = .goto { ClosedFrame.init.stamp m₀.clock with pc := .loop } := by
    simp [ClosedLoop.begin, executeYieldingRequestsClosedSystemWithSampling, hsamples, hk]
  exact exists_abandons rfl hM hN hzero hb (stacked_zero h₀ hbegin rfl ⟨rfl, rfl⟩)

/-- The entry function of a request never returns early, wherever in its loop the accelerator is
when it begins without a job and however the two threads are timed, exactly if every request finds a
slot, or no job takes any time, or the executor does not come to its loop. -/
theorem not_abandons_iff (hM : 1 ≤ p.maxInflights) (htime : p.offloadTime < 2 ^ 64) :
    (∀ m₀ : EmulSys, m₀.Ready → ∀ s,
      Sys.Reachable (samplingSubmitting p k N samples idx work dst data) m₀ s → ¬ s.Abandons) ↔
    (N : ℤ) ≤ p.maxInflights ∨ p.offloadTime = 0 ∨ k = 0 ∨ samples = 0 := by
  constructor
  · intro h
    by_contra hcon
    simp only [not_or, not_le] at hcon
    obtain ⟨hN, hzero, hk, hsamples⟩ := hcon
    obtain ⟨s, hr, habandons⟩ := samplingSubmitting_abandons p k N samples idx work dst data
      pollingSys_ready hk hsamples (by omega) hN (by omega)
      (by simpa [pollingSys] using htime)
    exact h _ pollingSys_ready s hr habandons
  · rintro hcases m₀ h₀ s hr ⟨i, hi, -⟩
    rcases hcases with hN | hzero | hsample
    · exact not_returned rfl h₀ (fun t ht => granted_of_few_calls hN h₀.idle ht) hr i hi
    · refine not_returned rfl h₀ (fun t ht => granted_of_zero_time hzero hM h₀.idle ?_) hr i hi
      exact ReflTransGen.mono (fun _ _ h => h.1) _ _ ht
    · rcases fault_of_no_samples p k N samples idx work dst data hsample hr with ⟨h, -⟩ | h <;>
        simp [hi] at h

/-- Two requests, with two slots and with one. -/
theorem not_abandons_iff_two :
    (∀ m₀ : EmulSys, m₀.Ready → ∀ s,
      Sys.Reachable (samplingSubmitting { oneSlot with maxInflights := 2 } 1 2 3 0
        (fun _ => [Nat.succ]) id id) m₀ s → ¬ s.Abandons) ∧
      ¬ ∀ m₀ : EmulSys, m₀.Ready → ∀ s,
        Sys.Reachable (samplingSubmitting oneSlot 1 2 3 0 (fun _ => [Nat.succ]) id id) m₀ s →
        ¬ s.Abandons :=
  ⟨(not_abandons_iff { oneSlot with maxInflights := 2 } 1 2 3 0 (fun _ => [Nat.succ]) id id
      (by decide) (by decide)).2 (.inl (by decide)),
    fun h => absurd ((not_abandons_iff oneSlot 1 2 3 0 (fun _ => [Nat.succ]) id id (by decide)
      (by decide)).1 h) (by decide)⟩

/-- Two requests of either kind, and one slot that is taken for five ticks. -/
theorem abandons_two :
    (∃ s, Sys.Reachable ((executeYieldingRequestsClosedSystemWithSampling 1 2 3 0).program
        (emulHardware oneSlot) (fun _ => yieldingSimpleRankerRequest Nat.succ)
        fun i => (.init i i, i)) pollingSys.ax s ∧ s.Abandons) ∧
      ∃ s, Sys.Reachable ((executeYieldingRequestsClosedSystemWithSampling 1 2 3 0).program
        (emulHardware oneSlot) (fun _ => yieldingRouterRequest Nat.succ)
        fun i => (.init i i, i)) pollingSys.ax s ∧ s.Abandons :=
  ⟨samplingSubmitting_abandons oneSlot 1 2 3 0 (fun _ => [Nat.succ]) id id pollingSys_ready
      (by decide) (by decide) (by decide) (by decide) (by decide) (by decide),
    samplingSubmitting_abandons oneSlot 1 2 3 0 (fun _ => [Nat.succ]) id id pollingSys_ready
      (by decide) (by decide) (by decide) (by decide) (by decide) (by decide)⟩

end sampling

end XMPGym
