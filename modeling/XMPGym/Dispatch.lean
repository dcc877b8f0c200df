import XMPGym.Fiber
import XMPGym.Lib.InOrder

/-!
# Requests under an executor

A request whose body swaps twice follows the discipline of `InOrder`: `Follows` says which part of
its body each request has left, who runs, and which contexts have been jumped to.  An executor has
to keep its side (it starts and resumes in order); here is what the fibers do, for any executor.
-/

open Relation Transition

namespace XMPGym

variable {F L M : Type*}

/-! ## What is left of a body -/

def Instr.isSwap : Instr L M → Bool
  | .swap => true
  | _ => false

def Instr.isCompleted : Instr L M → Bool
  | .completed => true
  | _ => false

/-- The number of swaps left in a body. -/
def swapsLeft (c : List (Instr L M)) : ℕ := c.countP Instr.isSwap

/-- The number of increments of `requests_completed` left in a body. -/
def completesLeft (c : List (Instr L M)) : ℕ := c.countP Instr.isCompleted

section body

variable (f : L → M → L × M × Next) (c : List (Instr L M))

@[simp] theorem swapsLeft_nil : swapsLeft ([] : List (Instr L M)) = 0 := rfl

@[simp] theorem swapsLeft_op : swapsLeft (.op f :: c) = swapsLeft c := by
  simp [swapsLeft, Instr.isSwap]

@[simp] theorem swapsLeft_completed : swapsLeft (.completed :: c) = swapsLeft c := by
  simp [swapsLeft, Instr.isSwap]

@[simp] theorem swapsLeft_swap : swapsLeft (.swap :: c) = swapsLeft c + 1 :=
  List.countP_cons_of_pos rfl

@[simp] theorem completesLeft_nil : completesLeft ([] : List (Instr L M)) = 0 := rfl

@[simp] theorem completesLeft_op : completesLeft (.op f :: c) = completesLeft c := by
  simp [completesLeft, Instr.isCompleted]

@[simp] theorem completesLeft_completed :
    completesLeft (.completed :: c) = completesLeft c + 1 :=
  List.countP_cons_of_pos rfl

@[simp] theorem completesLeft_swap : completesLeft (.swap :: c) = completesLeft c := by
  simp [completesLeft, Instr.isCompleted]

end body

/-- Every request swaps twice: when it waits for its record and when it is done. -/
def TwoSwaps (P : Program F L M) : Prop := ∀ i, swapsLeft (P.request i) = 2

/-- Every request increments `requests_completed` once, between its two swaps. -/
def CompletesOnce (P : Program F L M) : Prop :=
  ∀ i c, c <:+ P.request i →
    (swapsLeft c = 2 → completesLeft c = 1) ∧ (swapsLeft c = 0 → completesLeft c = 0)

/-! ## Swaps in the log -/

/-- The request whose unentered context is the target. -/
def Swap.start (w : Swap) : Option ℕ :=
  match w.target with
  | ⟨.request i, 0⟩ => some i
  | _ => none

/-- The request one of whose suspensions is the target. -/
def Swap.resume (w : Swap) : Option ℕ :=
  match w.target with
  | ⟨.request i, _ + 1⟩ => some i
  | _ => none

/-- The filler to which the swap goes. -/
def Swap.filler (w : Swap) : Option ℕ :=
  match w.target.owner with
  | .filler j => some j
  | _ => none

namespace Sys

/-- The requests whose contexts have been entered, in order. -/
def starts (s : Sys F L M) : List ℕ := s.swaps.filterMap Swap.start

/-- The requests that have been resumed, in order. -/
def resumes (s : Sys F L M) : List ℕ := s.swaps.filterMap Swap.resume

section fields

variable (s : Sys F L M) (self : Ctx) (t : Handle Ctx) (d : Data) (c : Ctx) (x : FcontextTransfer)

@[simp] theorem land_frame : (s.land c x).frame = s.frame := by cases c <;> rfl
@[simp] theorem land_requestsCompleted :
    (s.land c x).requestsCompleted = s.requestsCompleted := by cases c <;> rfl
@[simp] theorem land_pSig : (s.land c x).pSig = s.pSig := by cases c <;> rfl
@[simp] theorem land_schedCtx : (s.land c x).schedCtx = s.schedCtx := by cases c <;> rfl
@[simp] theorem land_handles : (s.land c x).handles = s.handles := by cases c <;> rfl
@[simp] theorem land_swaps : (s.land c x).swaps = s.swaps := by cases c <;> rfl
@[simp] theorem land_mem : (s.land c x).mem = s.mem := by cases c <;> rfl
@[simp] theorem land_running : (s.land c x).running = .at c := by cases c <;> rfl

@[simp] theorem land_code (i : ℕ) : ((s.land c x).request i).code = (s.request i).code := by
  cases c with
  | request k =>
      rcases eq_or_ne i k with rfl | hne
      · simp [land]
      · simp [land, Function.update_of_ne hne]
  | _ => rfl

@[simp] theorem land_locals (i : ℕ) :
    ((s.land c x).request i).locals = (s.request i).locals := by
  cases c with
  | request k =>
      rcases eq_or_ne i k with rfl | hne
      · simp [land]
      · simp [land, Function.update_of_ne hne]
  | _ => rfl

@[simp] theorem swap_frame : (s.fcontextSwap self t d).frame = s.frame := by
  simp [fcontextSwap, suspend]
@[simp] theorem swap_requestsCompleted :
    (s.fcontextSwap self t d).requestsCompleted = s.requestsCompleted := by
  simp [fcontextSwap, suspend]
@[simp] theorem swap_pSig : (s.fcontextSwap self t d).pSig = s.pSig := by
  simp [fcontextSwap, suspend]
@[simp] theorem swap_schedCtx : (s.fcontextSwap self t d).schedCtx = s.schedCtx := by
  simp [fcontextSwap, suspend]
@[simp] theorem swap_handles :
    (s.fcontextSwap self t d).handles = (s.handles.jump self t).2 := by
  simp [fcontextSwap, suspend]
@[simp] theorem swap_swaps : (s.fcontextSwap self t d).swaps =
    s.swaps ++ [⟨self, t, s.handles.live t, s.requestsCompleted⟩] := by
  simp [fcontextSwap, suspend]
@[simp] theorem swap_mem : (s.fcontextSwap self t d).mem = s.mem := by
  simp [fcontextSwap, suspend]
@[simp] theorem swap_code (i : ℕ) :
    ((s.fcontextSwap self t d).request i).code = (s.request i).code := by
  simp [fcontextSwap, suspend]
@[simp] theorem swap_locals (i : ℕ) :
    ((s.fcontextSwap self t d).request i).locals = (s.request i).locals := by
  simp [fcontextSwap, suspend]
@[simp] theorem swap_running : (s.fcontextSwap self t d).running = .at t.owner := by
  simp [fcontextSwap]

end fields

section landing

variable (s : Sys F L M) (self : Ctx) (n i : ℕ) (d : Data)

@[simp] theorem swap_executor_arrived : (s.fcontextSwap self ⟨.executor, n⟩ d).arrived =
    ⟨(s.handles.jump self ⟨.executor, n⟩).1, d⟩ := rfl
@[simp] theorem swap_executor_request :
    (s.fcontextSwap self ⟨.executor, n⟩ d).request = s.request := rfl
@[simp] theorem swap_executor_filler :
    (s.fcontextSwap self ⟨.executor, n⟩ d).filler = s.filler := rfl
@[simp] theorem swap_request_arrived :
    (s.fcontextSwap self ⟨.request i, n⟩ d).arrived = s.arrived := rfl
@[simp] theorem swap_request_filler :
    (s.fcontextSwap self ⟨.request i, n⟩ d).filler = s.filler := rfl
@[simp] theorem swap_request_request : (s.fcontextSwap self ⟨.request i, n⟩ d).request =
    Function.update s.request i { s.request i with
      arg := some ((s.request i).arg.getD ⟨(s.handles.jump self ⟨.request i, n⟩).1, d⟩) } := rfl
@[simp] theorem swap_filler_arrived :
    (s.fcontextSwap self ⟨.filler i, n⟩ d).arrived = s.arrived := rfl
@[simp] theorem swap_filler_request :
    (s.fcontextSwap self ⟨.filler i, n⟩ d).request = s.request := rfl
@[simp] theorem swap_filler_filler : (s.fcontextSwap self ⟨.filler i, n⟩ d).filler =
    Function.update s.filler i { s.filler i with
      arrived := ⟨(s.handles.jump self ⟨.filler i, n⟩).1, d⟩ } := rfl

@[simp] theorem starts_swap_executor :
    (s.fcontextSwap self ⟨.executor, n⟩ d).starts = s.starts := by
  simp [starts, Swap.start]
@[simp] theorem starts_swap_filler :
    (s.fcontextSwap self ⟨.filler i, n⟩ d).starts = s.starts := by
  simp [starts, Swap.start]
@[simp] theorem starts_swap_resume :
    (s.fcontextSwap self ⟨.request i, n + 1⟩ d).starts = s.starts := by
  simp [starts, Swap.start]
@[simp] theorem starts_swap_start :
    (s.fcontextSwap self (fcontextCreate (.request i)) d).starts = s.starts ++ [i] := by
  simp [starts, Swap.start, fcontextCreate]

@[simp] theorem resumes_swap_executor :
    (s.fcontextSwap self ⟨.executor, n⟩ d).resumes = s.resumes := by
  simp [resumes, Swap.resume]
@[simp] theorem resumes_swap_filler :
    (s.fcontextSwap self ⟨.filler i, n⟩ d).resumes = s.resumes := by
  simp [resumes, Swap.resume]
@[simp] theorem resumes_swap_resume :
    (s.fcontextSwap self ⟨.request i, n + 1⟩ d).resumes = s.resumes ++ [i] := by
  simp [resumes, Swap.resume]
@[simp] theorem resumes_swap_start :
    (s.fcontextSwap self (fcontextCreate (.request i)) d).resumes = s.resumes := by
  simp [resumes, Swap.resume, fcontextCreate]

end landing

/-! ## Steps of any program -/

/-- What a step can do: the executor and the fillers leave the requests and the memory alone. -/
inductive Fires (P : Program F L M) (s : Sys F L M) : Sys F L M → Prop where
  | hw (m : M) (h : P.hw.Moves s.mem m) : Fires P s { s with mem := m }
  | aside (s' : Sys F L M) (c : Ctx) (hrun : s.running = .at c) (hne : ∀ i, c ≠ .request i)
      (hcode : ∀ i, (s'.request i).code = (s.request i).code)
      (hlocals : ∀ i, (s'.request i).locals = (s.request i).locals) (hmem : s'.mem = s.mem) :
      Fires P s s'
  | instr (i : ℕ) (ins : Instr L M) (c : List (Instr L M)) (hrun : s.running = .at (.request i))
      (hc : (s.request i).code = ins :: c) : Fires P s (s.instr i c ins)
  | ended (i : ℕ) (hrun : s.running = .at (.request i)) (hc : (s.request i).code = []) :
      Fires P s { s with running := .returned i }

/-- An instruction of one request leaves the others alone. -/
theorem instr_other (s : Sys F L M) {i j : ℕ} (hne : j ≠ i) (c : List (Instr L M))
    (ins : Instr L M) : ((s.instr i c ins).request j).locals = (s.request j).locals ∧
      ((s.instr i c ins).request j).code = (s.request j).code := by
  cases ins with
  | op f => simp [instr, Function.update_of_ne hne]
  | completed => simp [instr, setCode, Function.update_of_ne hne]
  | swap =>
      simp only [instr]
      split <;> simp [setCode, Function.update_of_ne hne]

theorem Step.fires {P : Program F L M} {s s' : Sys F L M} (h : Step P s s') : Fires P s s' := by
  cases h with
  | hw m hm => exact .hw m hm
  | thread _ h =>
      simp only [Sys.thread] at h
      split at h
      · next hrun =>
          obtain rfl := Option.some.inj h
          simp only [executorStep]
          split
          · exact .aside _ _ hrun (by simp) (fun _ => rfl) (fun _ => rfl) rfl
          · exact .aside _ _ hrun (by simp) (by simp) (by simp) (by simp)
          · exact .aside _ _ hrun (by simp) (fun _ => rfl) (fun _ => rfl) rfl
          · exact .aside _ _ hrun (by simp) (fun _ => rfl) (fun _ => rfl) rfl
      · next i hrun =>
          obtain rfl := Option.some.inj h
          simp only [requestStep]
          split
          · next hc => exact .ended i hrun hc
          · next ins c hc => exact .instr i ins c hrun hc
      · next i hrun =>
          obtain rfl := Option.some.inj h
          simp only [fillerStep]
          split
          · exact .aside _ _ hrun (by simp) (fun _ => rfl) (fun _ => rfl) rfl
          · split
            · refine .aside _ _ hrun (by simp) ?_ ?_ ?_ <;> simp [setFillerPc]
            · exact .aside _ _ hrun (by simp) (fun _ => rfl) (fun _ => rfl) rfl
            · exact .aside _ _ hrun (by simp) (fun _ => rfl) (fun _ => rfl) rfl
          · exact .aside _ _ hrun (by simp) (fun _ => rfl) (fun _ => rfl) rfl
      · cases h

end Sys

/-! ## Following the discipline -/

/-- A request that has been entered from the executor and has `n` swaps left. -/
structure InBody (P : Program F L M) (i n : ℕ) (r : RequestFiber L M) : Prop where
  entered : ∃ x, r.arg = some x ∧ x.prevContext.owner = .executor
  suffix : r.code <:+ P.request i
  swaps : swapsLeft r.code = n

/-- What a stage says about the fiber. -/
def AtStage (P : Program F L M) (i : ℕ) (r : RequestFiber L M) : Stage → Prop
  | .fresh => r = ⟨none, P.request i, P.locals i⟩
  | .offloading => InBody P i 2 r
  | .waiting | .finishing => InBody P i 1 r
  | .done => InBody P i 0 r

/-- The request that has control, or has left its entry function. -/
def Running.request : Running → Option ℕ
  | .at (.request i) | .returned i => some i
  | _ => none

/-- The fibers and the log are as the state `d` of the dispatch says. -/
structure Follows {N : ℕ} (P : Program F L M) (d : InOrder N) (s : Sys F L M) : Prop where
  stages : ∀ i, AtStage P i (s.request i) (d.stage i)
  active : s.running.request = d.active
  starts : s.starts = d.starts
  resumes : s.resumes = d.resumes

section follows

variable {P : Program F L M} {N : ℕ} {d : InOrder N} {s s' : Sys F L M}

theorem follows_init (P : Program F L M) (m : M) (N : ℕ) :
    Follows P (.idle : InOrder N) (.init P m) where
  stages i := by simp [InOrder.stage, InOrder.idle, AtStage, Sys.init]
  active := rfl
  starts := by simp [Sys.starts, Sys.init, InOrder.starts, InOrder.idle]
  resumes := by simp [Sys.resumes, Sys.init, InOrder.resumes, InOrder.idle]

/-- The request that has control is in its body, before its first or its second swap. -/
theorem Follows.running (h : Follows P d s) {i : ℕ} (hi : s.running.request = some i) :
    (d.turn = .starting ∧ i = d.started ∧ InBody P i 2 (s.request i)) ∨
      (d.turn = .resuming ∧ i = d.resumed ∧ InBody P i 1 (s.request i)) := by
  have hact := h.active
  have hst := h.stages i
  rw [hi] at hact
  cases ht : d.turn with
  | scheduler => simp [InOrder.active, ht] at hact
  | starting =>
      simp only [InOrder.active, ht, Option.some.injEq] at hact
      subst hact
      rw [d.stage_started, if_pos ht] at hst
      exact .inl ⟨rfl, rfl, hst⟩
  | resuming =>
      simp only [InOrder.active, ht, Option.some.injEq] at hact
      subst hact
      rw [d.stage_resumed (d.resuming_lt ht), if_pos ht] at hst
      exact .inr ⟨rfl, rfl, hst⟩

/-- A request that runs has a swap before it. -/
theorem Follows.inBody (h : Follows P d s) {i : ℕ} (hrun : s.running = .at (.request i)) :
    ∃ n, 0 < n ∧ InBody P i n (s.request i) := by
  rcases h.running (i := i) (by rw [hrun]; rfl) with ⟨-, -, hb⟩ | ⟨-, -, hb⟩
  · exact ⟨2, by omega, hb⟩
  · exact ⟨1, by omega, hb⟩

theorem Follows.suffix (h : Follows P d s) {i : ℕ} (hrun : s.running = .at (.request i)) :
    (s.request i).code <:+ P.request i := by
  obtain ⟨n, -, hb⟩ := h.inBody hrun
  exact hb.suffix

/-- The scheduler has the turn unless a request has control. -/
theorem Follows.scheduler (h : Follows P d s) (hrun : s.running.request = none) :
    d.turn = .scheduler := by
  have hact := h.active
  rw [hrun] at hact
  cases ht : d.turn <;> simp [InOrder.active, ht] at hact ⊢

theorem Follows.scheduler_of_executor (h : Follows P d s) (hrun : s.running = .at .executor) :
    d.turn = .scheduler :=
  h.scheduler (by rw [hrun]; rfl)

/-- While a request has control, the scheduler does not have the turn. -/
theorem Follows.turn_ne (h : Follows P d s) {i : ℕ} (hrun : s.running = .at (.request i)) :
    d.turn ≠ .scheduler := by
  intro ht
  have := h.active
  simp [hrun, InOrder.active, ht, Running.request] at this

/-- The moves of the thread and of the hardware, when requests follow the discipline: a request
that runs has been entered and is not at its end. -/
inductive Move (P : Program F L M) (s : Sys F L M) : Sys F L M → Prop where
  | hw (m : M) (h : P.hw.Moves s.mem m) : Move P s { s with mem := m }
  | goto (f : F) (hrun : s.running = .at .executor)
      (h : P.executor s.frame s.arrived s.requestsCompleted s.mem = .goto f) :
      Move P s { s with frame := f }
  | exit (f : F) (hrun : s.running = .at .executor)
      (h : P.executor s.frame s.arrived s.requestsCompleted s.mem = .exit f) :
      Move P s { s with frame := f, running := .exited }
  | fault (hrun : s.running = .at .executor)
      (h : P.executor s.frame s.arrived s.requestsCompleted s.mem = .fault) :
      Move P s { s with running := .fault }
  | swap (t : Handle Ctx) (x : Data) (f : F) (hrun : s.running = .at .executor)
      (h : P.executor s.frame s.arrived s.requestsCompleted s.mem = .swap t x f) :
      Move P s (Sys.fcontextSwap { s with frame := f } .executor t x)
  | op (i : ℕ) (f : L → M → L × M × Next) (c : List (Instr L M))
      (hrun : s.running = .at (.request i)) (hc : (s.request i).code = .op f :: c) :
      Move P s (s.instr i c (.op f))
  | completed (i : ℕ) (c : List (Instr L M)) (hrun : s.running = .at (.request i))
      (hc : (s.request i).code = .completed :: c) :
      Move P s { s.setCode i c with requestsCompleted := s.requestsCompleted + 1 }
  | back (i n : ℕ) (c : List (Instr L M)) (x : Data) (hrun : s.running = .at (.request i))
      (hc : (s.request i).code = .swap :: c)
      (harg : (s.request i).arg = some ⟨⟨.executor, n⟩, x⟩) :
      Move P s ((s.setCode i c).fcontextSwap (.request i) ⟨.executor, n⟩ .null)
  | filler (i : ℕ) (hrun : s.running = .at (.filler i)) : Move P s (s.fillerStep P.hw i)

theorem Move.of_step (hbody : ∀ i, s.running = .at (.request i) →
    ∃ n, 0 < n ∧ InBody P i n (s.request i)) (hs : Sys.Step P s s') : Move P s s' := by
  cases hs with
  | hw m hm => exact .hw m hm
  | thread _ hs =>
      simp only [Sys.thread] at hs
      split at hs <;> (try cases hs)
      · next hrun =>
          simp only [Sys.executorStep]
          split
          · next f e => exact .goto f hrun e
          · next t x f e => exact .swap t x f hrun e
          · next f e => exact .exit f hrun e
          · next e => exact .fault hrun e
      · next i hrun =>
          obtain ⟨n, hn, ⟨⟨⟨o, k⟩, x⟩, harg, ho⟩, -, hsw⟩ := hbody i hrun
          simp only at ho
          subst ho
          simp only [Sys.requestStep]
          split
          · next hc =>
              rw [hc] at hsw
              simp only [swapsLeft_nil] at hsw
              omega
          · next ins c hc =>
              cases ins with
              | op f => exact .op i f c hrun hc
              | completed => exact .completed i c hrun hc
              | swap =>
                  simp only [Sys.instr, harg]
                  exact .back i k c x hrun hc harg
      · next i hrun => exact .filler i hrun

theorem Follows.move (h : Follows P d s) (hs : Sys.Step P s s') : Move P s s' :=
  .of_step (fun _ hrun => h.inBody hrun) hs

/-- Changes that do not concern the requests, who runs, or the log. -/
theorem Follows.congr (h : Follows P d s) (hr : s'.request = s.request)
    (ha : s'.running.request = s.running.request) (hw : s'.swaps = s.swaps) : Follows P d s' where
  stages := hr ▸ h.stages
  active := ha.trans h.active
  starts := (congrArg (List.filterMap Swap.start) hw).trans h.starts
  resumes := (congrArg (List.filterMap Swap.resume) hw).trans h.resumes

/-- The running request goes on inside its body, without swapping. -/
theorem Follows.within (h : Follows P d s) {i : ℕ} (hrun : s.running.request = some i)
    {r : RequestFiber L M} (harg : r.arg = (s.request i).arg)
    (hcode : r.code <:+ (s.request i).code)
    (hsw : swapsLeft r.code = swapsLeft (s.request i).code)
    (hr : s'.request = Function.update s.request i r)
    (ha : s'.running.request = s.running.request) (hw : s'.swaps = s.swaps) : Follows P d s' where
  stages j := by
    have hst := h.stages j
    rw [hr]
    rcases eq_or_ne j i with rfl | hne
    · have inBody {n : ℕ} (hb : InBody P j n (s.request j)) : InBody P j n r :=
        ⟨harg ▸ hb.entered, hcode.trans hb.suffix, hsw.trans hb.swaps⟩
      rw [Function.update_self]
      rcases h.running hrun with ⟨ht, rfl, hb⟩ | ⟨ht, rfl, hb⟩
      · rw [d.stage_started, if_pos ht]
        exact inBody hb
      · rw [d.stage_resumed (d.resuming_lt ht), if_pos ht]
        exact inBody hb
    · rwa [Function.update_of_ne hne]
  active := ha.trans h.active
  starts := (congrArg (List.filterMap Swap.start) hw).trans h.starts
  resumes := (congrArg (List.filterMap Swap.resume) hw).trans h.resumes

theorem Follows.op (h : Follows P d s) {i : ℕ} {f : L → M → L × M × Next} {c : List (Instr L M)}
    (hrun : s.running = .at (.request i)) (hc : (s.request i).code = .op f :: c) :
    Follows P d (s.instr i c (.op f)) := by
  refine h.within (i := i)
    (r := { s.request i with
      locals := (f (s.request i).locals s.mem).1
      code := if (f (s.request i).locals s.mem).2.2 = .stay then .op f :: c else c })
    (by rw [hrun]; rfl) rfl ?_ ?_ rfl ?_ rfl
  · simp only [hc]
    split_ifs
    · exact List.suffix_rfl
    · exact List.suffix_cons _ _
  · simp only [hc]
    split_ifs <;> simp
  · simp only [Sys.instr, hrun]
    split_ifs <;> rfl

theorem Follows.completed (h : Follows P d s) {i : ℕ} {c : List (Instr L M)}
    (hrun : s.running = .at (.request i)) (hc : (s.request i).code = .completed :: c) :
    Follows P d { s.setCode i c with requestsCompleted := s.requestsCompleted + 1 } := by
  refine h.within (i := i) (r := { s.request i with code := c }) (by rw [hrun]; rfl) rfl ?_ ?_ rfl
    rfl rfl
  · simp only [hc]
    exact List.suffix_cons _ _
  · simp [hc]

/-- One request changes its stage. -/
theorem Follows.change {d' : InOrder N} (h : Follows P d s) (i : ℕ) (r : RequestFiber L M)
    (st : Stage) (hr : s'.request = Function.update s.request i r)
    (hst : d'.stage = Function.update d.stage i st) (hi : AtStage P i r st)
    (ha : s'.running.request = d'.active) (hs : s'.starts = d'.starts)
    (hr' : s'.resumes = d'.resumes) : Follows P d' s' where
  stages j := by
    rw [hr, hst]
    rcases eq_or_ne j i with rfl | hne
    · simpa only [Function.update_self] using hi
    · simpa only [Function.update_of_ne hne] using h.stages j
  active := ha
  starts := hs
  resumes := hr'

/-- A request swaps back to the executor: the one that was started waits, the one that was resumed
is done. -/
theorem Follows.back (h : Follows P d s) {i n : ℕ} {c : List (Instr L M)} {x : Data}
    (hrun : s.running = .at (.request i)) (hc : (s.request i).code = .swap :: c) :
    (∃ ht : d.turn = .starting, i = d.started ∧
        Follows P (d.yield ht) ((s.setCode i c).fcontextSwap (.request i) ⟨.executor, n⟩ x)) ∨
      ∃ ht : d.turn = .resuming, i = d.resumed ∧
        Follows P (d.finish ht) ((s.setCode i c).fcontextSwap (.request i) ⟨.executor, n⟩ x) := by
  have inBody {k : ℕ} (hb : InBody P i (k + 1) (s.request i)) :
      InBody P i k { s.request i with code := c } := by
    obtain ⟨hent, hsuf, hsw⟩ := hb
    rw [hc] at hsuf hsw
    rw [swapsLeft_swap] at hsw
    refine ⟨hent, (List.suffix_cons _ _).trans hsuf, ?_⟩
    show swapsLeft c = k
    omega
  have hst : ((s.setCode i c).fcontextSwap (.request i) ⟨.executor, n⟩ x).starts = s.starts :=
    Sys.starts_swap_executor _ _ _ _
  have hre : ((s.setCode i c).fcontextSwap (.request i) ⟨.executor, n⟩ x).resumes = s.resumes :=
    Sys.resumes_swap_executor _ _ _ _
  rcases h.running (i := i) (by rw [hrun]; rfl) with ⟨ht, hi, hb⟩ | ⟨ht, hi, hb⟩
  · refine .inl ⟨ht, hi, h.change i _ .waiting rfl (hi ▸ d.stage_yield ht) (inBody hb)
      rfl ?_ ?_⟩
    · rw [hst, h.starts]
      simp [InOrder.starts, InOrder.yield, ht]
    · rw [hre, h.resumes]
      simp [InOrder.resumes, InOrder.yield, ht]
  · refine .inr ⟨ht, hi, h.change i _ .done rfl (hi ▸ d.stage_finish ht) (inBody hb)
      rfl ?_ ?_⟩
    · rw [hst, h.starts]
      simp [InOrder.starts, InOrder.finish, ht]
    · rw [hre, h.resumes]
      simp [InOrder.resumes, InOrder.finish, ht]

/-- The executor starts the next request. -/
theorem Follows.start (hP : TwoSwaps P) (h : Follows P d s) (ht : d.turn = .scheduler)
    (hlt : d.started < N) (f : F) (x : Data) :
    Follows P (d.start hlt) (Sys.fcontextSwap { s with frame := f } .executor
      (fcontextCreate (.request d.started)) x) := by
  have hfresh : s.request d.started = ⟨none, P.request d.started, P.locals d.started⟩ := by
    have := h.stages d.started
    rwa [d.stage_started, if_neg (by simp [ht])] at this
  refine h.change d.started { s.request d.started with
      arg := some ⟨(s.handles.jump .executor (fcontextCreate (.request d.started))).1, x⟩ }
    .offloading ?_ (d.stage_start ht hlt) ⟨⟨_, rfl, rfl⟩, ?_, ?_⟩ rfl ?_ ?_
  · simp [fcontextCreate, hfresh]
  · simp only [hfresh, List.suffix_rfl]
  · rw [hfresh]
    exact hP d.started
  · rw [Sys.starts_swap_start]
    show s.starts ++ _ = _
    simp [h.starts, InOrder.starts, InOrder.start, ht, List.range_succ]
  · rw [Sys.resumes_swap_start]
    show s.resumes = _
    simp [h.resumes, InOrder.resumes, InOrder.start, ht]

/-- The executor resumes the oldest request that waits. -/
theorem Follows.resume (h : Follows P d s) (ht : d.turn = .scheduler)
    (hlt : d.resumed < d.started) (n : ℕ) (f : F) (x : Data) :
    Follows P (d.resume hlt) (Sys.fcontextSwap { s with frame := f } .executor
      ⟨.request d.resumed, n + 1⟩ x) := by
  have hwait := h.stages d.resumed
  rw [d.stage_resumed hlt, if_neg (by simp [ht])] at hwait
  obtain ⟨⟨y, harg, ho⟩, hsuf, hsw⟩ := hwait
  refine h.change d.resumed (s.request d.resumed) .finishing ?_ (d.stage_resume ht hlt)
    ⟨⟨y, harg, ho⟩, hsuf, hsw⟩ rfl ?_ ?_
  · have e : { s.request d.resumed with arg := some y } = s.request d.resumed := by rw [← harg]
    simp [harg, e]
  · rw [Sys.starts_swap_resume]
    show s.starts = _
    simp [h.starts, InOrder.starts, InOrder.resume, ht]
  · rw [Sys.resumes_swap_resume]
    show s.resumes ++ _ = _
    simp [h.resumes, InOrder.resumes, InOrder.resume, ht, List.range_succ]

/-- Swaps between the executor and a filler do not concern the requests. -/
theorem Follows.fill (h : Follows P d s) (ht : d.turn = .scheduler) {self : Ctx} {t : Handle Ctx}
    {x : Data} (hown : t.owner = .executor ∨ ∃ i, t.owner = .filler i) :
    Follows P d (s.fcontextSwap self t x) := by
  have hact : d.active = none := by simp [InOrder.active, ht]
  obtain ⟨o, n⟩ := t
  have hst : ∀ i, o ≠ .request i := by
    rintro i rfl
    simp at hown
  refine ⟨?_, ?_, ?_, ?_⟩
  · rcases hown with ho | ⟨i, ho⟩ <;> simp only at ho <;> subst ho <;> exact h.stages
  · rw [Sys.swap_running, hact]
    cases o with
    | request i => exact absurd rfl (hst i)
    | _ => rfl
  · rw [← h.starts]
    cases o with
    | request i => exact absurd rfl (hst i)
    | _ => simp [Sys.starts, Swap.start]
  · rw [← h.resumes]
    cases o with
    | request i => exact absurd rfl (hst i)
    | _ => simp [Sys.resumes, Swap.resume]

end follows

end XMPGym
