import XMPGym.EmulAx
import XMPGym.Lib.Handles
import XMPGym.Lib.Transition

/-!
# Fibers

One thread runs an executor, the request fibers it starts and, for some executors, filler fibers.
They hand control around by `fcontext_swap` (`src/inc/fcontext.h`): each suspension makes a fresh
handle, which is delivered to the side that gets control, as entry argument or as return value.  A
swap lands at the latest suspension of the handle's owner, consumed or not; whether the handle was
still live is kept in the log of swaps.

The executor is a program over a frame type `F`.  The body of a request is a list of instructions
over its local variables `L` and the memory `M` that the device shares.
-/

open Relation Transition

namespace XMPGym

/-! ## Contexts -/

/-- The contexts: the executor's own and those made by `create_contexts`. -/
inductive Ctx where
  | executor
  | request (i : ℕ)
  | filler (i : ℕ)
  deriving DecidableEq, Repr

/-- The pointer passed with a swap: `NULL`, `off_args[i]` or `&comps[i]`. -/
inductive Data where
  | null
  | offArgs (i : ℕ)
  | comp (i : ℕ)
  deriving DecidableEq, Repr

/-- `fcontext_transfer_t` -/
structure FcontextTransfer where
  prevContext : Handle Ctx
  data : Data
  deriving DecidableEq, Repr

/-- The context of a fiber that has not been entered, as `fcontext_create` makes it. -/
def fcontextCreate (c : Ctx) : Handle Ctx := ⟨c, 0⟩

/-- A swap as logged: who made it, whether its target was live, and `requests_completed` then. -/
structure Swap where
  self : Ctx
  target : Handle Ctx
  live : Bool
  completed : ℕ
  deriving DecidableEq, Repr

/-! ## The device -/

/-- What the thread sees of the hardware, and what the hardware does on its own. -/
structure Hardware (M : Type*) where
  /-- `comps[i].status` -/
  status : M → ℕ → ℕ
  /-- `sampleCoderdtsc()` -/
  clock : M → ℕ
  Moves : M → M → Prop

/-! ## Request fibers -/

/-- Where a request goes after an operation: on, to the same operation again (it spins), or out of
its entry function. -/
inductive Next where
  | next
  | stay
  | ret
  deriving DecidableEq, Repr

/-- An instruction of a request's body. -/
inductive Instr (L M : Type*) where
  /-- an operation on the local variables and the memory -/
  | op (f : L → M → L × M × Next)
  /-- `requests_completed ++` -/
  | completed
  /-- `fcontext_swap(arg.prev_context, NULL)` -/
  | swap

/-- A request: its entry argument, once it is entered, what is left of its body, and its local
variables. -/
structure RequestFiber (L M : Type*) where
  arg : Option FcontextTransfer
  code : List (Instr L M)
  locals : L

/-! ## Filler fibers -/

/-- The position of a filler that calls `init_probe` first and yields in `probe_point` only. -/
inductive FillerPc where
  /-- `init_probe(arg)` -/
  | entry
  /-- `is_signal_set(p_sig)`, between two pieces of the filler's own work -/
  | probe
  /-- `p_sig = parent_resume.data` -/
  | resumed
  deriving DecidableEq, Repr

/-- A filler and the transfer that was last delivered to it. -/
structure FillerFiber where
  pc : FillerPc
  arrived : FcontextTransfer

/-! ## The thread -/

/-- What an executor does next. -/
inductive Act (F : Type*) where
  | goto (f : F)
  | swap (target : Handle Ctx) (data : Data) (f : F)
  | exit (f : F)
  | fault

/-- An executor: its next action, from its frame, the transfer its last swap returned,
`requests_completed` and the memory. -/
def Executor (F M : Type*) : Type _ := F → FcontextTransfer → ℕ → M → Act F

/-- The executor with the frame it starts in, the request bodies and the hardware. -/
structure Program (F L M : Type*) where
  hw : Hardware M
  executor : Executor F M
  frame : F
  request : ℕ → List (Instr L M)
  locals : ℕ → L

/-- Who runs. -/
inductive Running where
  | at (c : Ctx)
  /-- the executor has returned -/
  | exited
  /-- the entry function of a request has returned, which ends the process -/
  | returned (i : ℕ)
  /-- an access out of bounds or through a pointer that was never stored -/
  | fault
  deriving DecidableEq, Repr

/-- The state of the thread and the memory. -/
structure Sys (F L M : Type*) where
  running : Running
  frame : F
  arrived : FcontextTransfer
  request : ℕ → RequestFiber L M
  filler : ℕ → FillerFiber
  requestsCompleted : ℕ
  pSig : Data
  schedCtx : Option FcontextTransfer
  handles : Handles Ctx
  swaps : List Swap
  mem : M

namespace Sys

variable {F L M : Type*}

/-- Before the executor's first step. -/
def init (P : Program F L M) (m : M) : Sys F L M where
  running := .at .executor
  frame := P.frame
  arrived := ⟨fcontextCreate .executor, .null⟩
  request i := ⟨none, P.request i, P.locals i⟩
  filler _ := ⟨.entry, ⟨fcontextCreate .executor, .null⟩⟩
  requestsCompleted := 0
  pSig := .null
  schedCtx := none
  handles := .start
  swaps := []
  mem := m

/-- Control reaches the context `c` with the transfer `x`.  A request keeps its entry argument and
discards what its swaps return. -/
def land (s : Sys F L M) (c : Ctx) (x : FcontextTransfer) : Sys F L M :=
  match c with
  | .executor => { s with running := .at .executor, arrived := x }
  | .request i =>
      { s with
        running := .at (.request i)
        request := Function.update s.request i
          { s.request i with arg := some ((s.request i).arg.getD x) } }
  | .filler i =>
      { s with
        running := .at (.filler i)
        filler := Function.update s.filler i { s.filler i with arrived := x } }

/-- `self` suspends itself to jump to `target`. -/
def suspend (s : Sys F L M) (self : Ctx) (target : Handle Ctx) : Sys F L M :=
  { s with
    handles := (s.handles.jump self target).2
    swaps := s.swaps ++ [⟨self, target, s.handles.live target, s.requestsCompleted⟩] }

/-- `fcontext_swap(target, data)`, made by `self`. -/
def fcontextSwap (s : Sys F L M) (self : Ctx) (target : Handle Ctx) (data : Data) : Sys F L M :=
  (s.suspend self target).land target.owner ⟨(s.handles.jump self target).1, data⟩

/-- Request `i` goes on with `code`. -/
def setCode (s : Sys F L M) (i : ℕ) (code : List (Instr L M)) : Sys F L M :=
  { s with request := Function.update s.request i { s.request i with code := code } }

/-- One instruction of request `i`, with `c` the rest of its body. -/
def instr (s : Sys F L M) (i : ℕ) (c : List (Instr L M)) : Instr L M → Sys F L M
  | .op f =>
      match f (s.request i).locals s.mem with
      | (l, m, n) =>
          { s with
            running := if n = .ret then .returned i else s.running
            request := Function.update s.request i
              { s.request i with
                locals := l
                code := if n = .stay then .op f :: c else c }
            mem := m }
  | .completed => { s.setCode i c with requestsCompleted := s.requestsCompleted + 1 }
  | .swap =>
      match (s.request i).arg with
      | some arg => (s.setCode i c).fcontextSwap (.request i) arg.prevContext .null
      | none => { s with running := .fault }

/-- One step of request `i`. -/
def requestStep (s : Sys F L M) (i : ℕ) : Sys F L M :=
  match (s.request i).code with
  | [] => { s with running := .returned i }
  | ins :: c => s.instr i c ins

/-- Filler `i` goes to `pc`. -/
def setFillerPc (s : Sys F L M) (i : ℕ) (pc : FillerPc) : Sys F L M :=
  { s with filler := Function.update s.filler i { s.filler i with pc := pc } }

/-- `init_probe(arg)` -/
def initProbe (s : Sys F L M) (arg : FcontextTransfer) : Sys F L M :=
  { s with pSig := arg.data, schedCtx := some arg }

/-- `is_signal_set(p_sig)`, where the pointer is one to a completion record. -/
def isSignalSet (hw : Hardware M) (s : Sys F L M) : Option Bool :=
  match s.pSig with
  | .comp i => some (hw.status s.mem i = compStatusCompleted)
  | _ => none

/-- One step of filler `i`. -/
def fillerStep (hw : Hardware M) (s : Sys F L M) (i : ℕ) : Sys F L M :=
  match (s.filler i).pc with
  | .entry => (s.initProbe (s.filler i).arrived).setFillerPc i .probe
  | .probe =>
      match s.isSignalSet hw, s.schedCtx with
      | some true, some ctx =>
          (s.setFillerPc i .resumed).fcontextSwap (.filler i) ctx.prevContext .null
      | some false, _ => s
      | _, _ => { s with running := .fault }
  | .resumed => { s.setFillerPc i .probe with pSig := (s.filler i).arrived.data }

/-- One step of the executor. -/
def executorStep (P : Program F L M) (s : Sys F L M) : Sys F L M :=
  match P.executor s.frame s.arrived s.requestsCompleted s.mem with
  | .goto f => { s with frame := f }
  | .swap target data f => fcontextSwap { s with frame := f } .executor target data
  | .exit f => { s with frame := f, running := .exited }
  | .fault => { s with running := .fault }

/-- One step of the thread, as long as it has one. -/
def thread (P : Program F L M) (s : Sys F L M) : Option (Sys F L M) :=
  match s.running with
  | .at .executor => some (s.executorStep P)
  | .at (.request i) => some (s.requestStep i)
  | .at (.filler i) => some (s.fillerStep P.hw i)
  | _ => none

/-- The thread moves, or the hardware does. -/
inductive Step (P : Program F L M) : Sys F L M → Sys F L M → Prop where
  | thread (s s' : Sys F L M) (h : s.thread P = some s') : Step P s s'
  | hw (s : Sys F L M) (m : M) (h : P.hw.Moves s.mem m) : Step P s { s with mem := m }

/-- Reachable from the start of the executor with memory `m`. -/
def Reachable (P : Program F L M) (m : M) (s : Sys F L M) : Prop :=
  ReflTransGen (Step P) (init P m) s

/-! ## Schedules -/

section schedules

variable {α : Type*} (move : M → α → Option M)

/-- One choice: the thread moves (`none`), or the hardware makes one of its moves. -/
def perform (P : Program F L M) (s : Sys F L M) : Option α → Option (Sys F L M)
  | none => s.thread P
  | some a => (move s.mem a).map fun m => { s with mem := m }

/-- The run that a list of choices makes. -/
def schedule (P : Program F L M) (m : M) (l : List (Option α)) : Option (Sys F L M) :=
  l.foldlM (perform move P) (init P m)

variable {move}

theorem step_of_perform {P : Program F L M}
    (hmove : ∀ m a m', move m a = some m' → P.hw.Moves m m') {s s' : Sys F L M} {c : Option α}
    (h : perform move P s c = some s') : Step P s s' := by
  cases c with
  | none => exact .thread _ _ h
  | some a =>
      obtain ⟨m, hm, rfl⟩ := Option.map_eq_some_iff.1 h
      exact .hw _ _ (hmove _ _ _ hm)

theorem reachable_of_schedule {P : Program F L M}
    (hmove : ∀ m a m', move m a = some m' → P.hw.Moves m m') {m : M} {s : Sys F L M}
    {l : List (Option α)} (h : schedule move P m l = some s) : Reachable P m s :=
  run_of_choices (perform move P) (fun _ _ _ => step_of_perform hmove) h

end schedules

end Sys

end XMPGym
