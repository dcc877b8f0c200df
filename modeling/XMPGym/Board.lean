import XMPGym.Records
import XMPGym.Requests

/-!
# A board

A small device on which the results about the executors can be tried: jobs are submitted by number
and end once, in any order, at any time and with any status.  Runs on it are given by schedules.
-/

open Relation Transition

namespace XMPGym

variable {F L : Type*}

/-- The jobs that have been submitted, their completion records and the time. -/
structure Board where
  submitted : ℕ → Bool
  status : ℕ → ℕ
  clock : ℕ

/-- What the board does on its own. -/
inductive BoardMove where
  /-- job `i` ends with the status `st` -/
  | ends (i st : ℕ)
  | tick
  deriving DecidableEq, Repr

namespace Board

/-- Nothing has been submitted. -/
def blank : Board := ⟨fun _ => false, fun _ => compStatusPending, 0⟩

/-- A move of the board, where it is possible. -/
def move (m : Board) : BoardMove → Option Board
  | .ends i st =>
      if m.submitted i = true ∧ m.status i = compStatusPending then
        some { m with status := Function.update m.status i st }
      else none
  | .tick => some { m with clock := m.clock + 1 }

/-- The board as hardware. -/
def hardware : Hardware Board := ⟨status, clock, fun m m' => ∃ b, m.move b = some m'⟩

/-- Job `i` is submitted. -/
def submit (i : ℕ) (m : Board) : Board := { m with submitted := Function.update m.submitted i true }

/-- The record of job `i` is cleared. -/
def clear (i : ℕ) (m : Board) : Board :=
  { m with status := Function.update m.status i compStatusPending }

/-- Request `i` submits its job. -/
def offload (i : ℕ) : List (Unit → Board → Unit × Board × Next) :=
  [fun l m => (l, m.submit i, .next)]

/-- The work of a request takes one step. -/
def work (_ : ℕ) : List (Unit → Board → Unit × Board × Next) := [fun l m => (l, m, .next)]

/-- Request `i` -/
def request (i : ℕ) : List (Instr Unit Board) := yieldingRequest (offload i) (work i)

/-- The three phases on a board; data is not modelled. -/
def fns : ThreePhaseFns Board where
  preProc _ _ n m := (m, n)
  prep _ _ _ comp _ m := m.clear comp
  submit desc m := m.submit desc
  postOffload comp m := m.status comp = compStatusPending
  axFunc _ _ n _ m := (m, n)
  postProc _ _ n _ m := (m, n)
  stamp _ _ m := m

/-- The arguments of request `i`: its descriptor and its record have its number. -/
def args (i : ℕ) : OffArgs := ⟨i, i, i, i, i, 8, i, 8, i, 8, 8⟩

/-! ## The assumption on records -/

theorem hardware_moves {m m' : Board} (h : hardware.Moves m m') (j : ℕ) :
    (m'.submitted j = true → m.submitted j = true) ∧
      (m'.status j = m.status j ∨ m.submitted j = true) := by
  obtain ⟨b, hb⟩ := h
  cases b with
  | ends i st =>
      simp only [move, Option.ite_none_right_eq_some, Option.some.injEq] at hb
      obtain ⟨⟨hs, -⟩, rfl⟩ := hb
      refine ⟨fun h => h, ?_⟩
      rcases eq_or_ne j i with rfl | hne
      · exact .inr hs
      · exact .inl (Function.update_of_ne hne _ _)
  | tick =>
      obtain rfl := Option.some.inj hb
      exact ⟨fun h => h, .inl rfl⟩

/-- A board does not write a record twice. -/
theorem status_of_moves {m m' : Board} (h : hardware.Moves m m') {i : ℕ}
    (hi : m.status i ≠ compStatusPending) : m'.status i = m.status i := by
  obtain ⟨b, hb⟩ := h
  cases b with
  | ends j st =>
      simp only [move, Option.ite_none_right_eq_some, Option.some.injEq] at hb
      obtain ⟨⟨-, hj⟩, rfl⟩ := hb
      refine Function.update_of_ne ?_ _ _
      rintro rfl
      exact hi hj
  | tick =>
      obtain rfl := Option.some.inj hb
      rfl

theorem submit_rules (i j : ℕ) (m : Board) :
    ((m.submit i).submitted j = true → m.submitted j = true ∨ j = i) ∧
      ((m.submit i).status j = m.status j ∨
        j = i ∧ (m.submit i).status j = compStatusPending) := by
  refine ⟨fun h => ?_, .inl rfl⟩
  rcases eq_or_ne j i with rfl | hne
  · exact .inr rfl
  · exact .inl (by simpa [submit, Function.update_of_ne hne] using h)

theorem clear_rules (i j : ℕ) (m : Board) :
    ((m.clear i).submitted j = true → m.submitted j = true ∨ j = i) ∧
      ((m.clear i).status j = m.status j ∨
        j = i ∧ (m.clear i).status j = compStatusPending) := by
  refine ⟨.inl, ?_⟩
  rcases eq_or_ne j i with rfl | hne
  · exact .inr ⟨rfl, Function.update_self _ _ _⟩
  · exact .inl (Function.update_of_ne hne _ _)

/-- Two-phase requests on a board keep to the rules under every executor. -/
theorem recordContract_request (x : Executor F Board) (f : F) :
    RecordContract ⟨hardware, x, f, request, fun _ => ()⟩ (fun m i => m.submitted i = true)
      blank := by
  refine recordContract_of_ops _ _ _ (fun _ => rfl) (fun _ => by simp [blank]) ?_
    fun m m' h => hardware_moves h
  intro i f hf l m j
  simp only [request, offload, work, yieldingRequest, List.map_cons, List.map_nil, List.cons_append,
    List.nil_append, List.mem_cons, List.not_mem_nil, Instr.op.injEq, reduceCtorEq, or_false,
    false_or] at hf
  rcases hf with rfl | rfl
  · exact submit_rules i j m
  · exact ⟨.inl, .inl rfl⟩

/-- Three-phase requests on a board keep to the rules under every executor. -/
theorem recordContract_threePhase (x : Executor F Board) (f : F) (t : List ThreePhaseOp) :
    RecordContract ⟨hardware, x, f, fun i => t.map (ThreePhaseOp.instr fns (args i)),
      fun i => .init (args i)⟩ (fun m i => m.submitted i = true) blank := by
  refine recordContract_of_ops _ _ _ (fun _ => rfl) (fun _ => by simp [blank]) ?_
    fun m m' h => hardware_moves h
  intro i f hf l m j
  obtain ⟨op, -, hop⟩ := List.mem_map.1 hf
  cases op <;> simp only [ThreePhaseOp.instr, Instr.op.injEq, reduceCtorEq] at hop <;> subst hop
  case prep => exact clear_rules i j m
  case submit => exact submit_rules i j m
  all_goals exact ⟨.inl, .inl rfl⟩

/-! ## Schedules -/

/-- The run that a list of choices makes. -/
def schedule (P : Program F L Board) (l : List (Option BoardMove)) : Option (Sys F L Board) :=
  Sys.schedule move P blank l

theorem reachable_of_schedule {P : Program F L Board} (hP : P.hw = hardware) {s : Sys F L Board}
    {l : List (Option BoardMove)} (h : schedule P l = some s) : Sys.Reachable P blank s :=
  Sys.reachable_of_schedule (fun _ b _ hb => by rw [hP]; exact ⟨b, hb⟩) h

end Board

end XMPGym
