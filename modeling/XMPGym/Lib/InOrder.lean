import Mathlib.Data.List.Basic
import Mathlib.Data.Nat.Notation
import Mathlib.Logic.Function.Basic

/-!
# In-order dispatch

A scheduler starts the jobs `0, …, total - 1` in order.  A job hands control back twice: when it
has to wait and when it is done.  In between the scheduler resumes it once, and the jobs are
resumed in the order in which they were started.  A value of `InOrder total` is a state of this
discipline; its fields make a state outside of it impossible.
-/

/-- Who has control. -/
inductive Turn where
  | scheduler
  | starting
  | resuming
  deriving DecidableEq, Repr

/-- The life of a job. -/
inductive Stage where
  | fresh
  | offloading
  | waiting
  | finishing
  | done
  deriving DecidableEq, Repr

/-- Jobs below `started` have been started and have yielded, those below `resumed` are done. -/
structure InOrder (total : ℕ) where
  started : ℕ
  resumed : ℕ
  turn : Turn
  resumed_le : resumed ≤ started
  started_le : started ≤ total
  starting_lt : turn = .starting → started < total
  resuming_lt : turn = .resuming → resumed < started

namespace InOrder

variable {total : ℕ}

/-- Nothing has been started. -/
def idle : InOrder total := ⟨0, 0, .scheduler, Nat.le_refl 0, Nat.zero_le _, by simp, by simp⟩

/-- The next job is started. -/
def start (d : InOrder total) (h : d.started < total) : InOrder total :=
  ⟨d.started, d.resumed, .starting, d.resumed_le, d.started_le, fun _ => h, by simp⟩

/-- The job that was started waits. -/
def yield (d : InOrder total) (h : d.turn = .starting) : InOrder total :=
  ⟨d.started + 1, d.resumed, .scheduler, Nat.le_succ_of_le d.resumed_le, d.starting_lt h, by simp,
    by simp⟩

/-- The oldest waiting job is resumed. -/
def resume (d : InOrder total) (h : d.resumed < d.started) : InOrder total :=
  ⟨d.started, d.resumed, .resuming, d.resumed_le, d.started_le, by simp, fun _ => h⟩

/-- The job that was resumed is done. -/
def finish (d : InOrder total) (h : d.turn = .resuming) : InOrder total :=
  ⟨d.started, d.resumed + 1, .scheduler, d.resuming_lt h, d.started_le, by simp, by simp⟩

/-- The stage of job `i`. -/
def stage (d : InOrder total) (i : ℕ) : Stage :=
  if i < d.resumed then .done
  else if i < d.started then
    if i = d.resumed ∧ d.turn = .resuming then .finishing else .waiting
  else if i = d.started ∧ d.turn = .starting then .offloading else .fresh

/-- The job that has control. -/
def active (d : InOrder total) : Option ℕ :=
  match d.turn with
  | .scheduler => none
  | .starting => some d.started
  | .resuming => some d.resumed

/-- The jobs that have been started, in order. -/
def starts (d : InOrder total) : List ℕ :=
  List.range (if d.turn = .starting then d.started + 1 else d.started)

/-- The jobs that have been resumed, in order. -/
def resumes (d : InOrder total) : List ℕ :=
  List.range (if d.turn = .resuming then d.resumed + 1 else d.resumed)

theorem starts_eq (d : InOrder total) : ∃ n ≤ total, d.starts = List.range n := by
  refine ⟨_, ?_, rfl⟩
  split_ifs with h
  · exact d.starting_lt h
  · exact d.started_le

theorem resumes_eq (d : InOrder total) : ∃ n ≤ total, d.resumes = List.range n := by
  have h₁ := d.resumed_le
  have h₂ := d.started_le
  refine ⟨_, ?_, rfl⟩
  split_ifs with h
  · have := d.resuming_lt h
    omega
  · omega

/-! ## Stages -/

section stage

variable (d : InOrder total)

theorem stage_start (h : d.turn = .scheduler) (h' : d.started < total) :
    (d.start h').stage = Function.update d.stage d.started .offloading := by
  funext i
  have := d.resumed_le
  simp only [stage, start, Function.update_apply, h]
  split_ifs <;> simp_all
  omega

theorem stage_yield (h : d.turn = .starting) :
    (d.yield h).stage = Function.update d.stage d.started .waiting := by
  funext i
  have := d.resumed_le
  simp only [stage, yield, Function.update_apply, h]
  split_ifs <;> simp_all <;> omega

theorem stage_resume (h : d.turn = .scheduler) (h' : d.resumed < d.started) :
    (d.resume h').stage = Function.update d.stage d.resumed .finishing := by
  funext i
  simp only [stage, resume, Function.update_apply, h]
  split_ifs <;> simp_all

theorem stage_finish (h : d.turn = .resuming) :
    (d.finish h).stage = Function.update d.stage d.resumed .done := by
  funext i
  simp only [stage, finish, Function.update_apply, h]
  split_ifs <;> simp_all <;> omega

end stage

theorem stage_started (d : InOrder total) :
    d.stage d.started = if d.turn = .starting then .offloading else .fresh := by
  have := d.resumed_le
  simp only [stage, Nat.lt_irrefl, if_false, true_and]
  rw [if_neg (by omega)]

theorem stage_resumed (d : InOrder total) (h : d.resumed < d.started) :
    d.stage d.resumed = if d.turn = .resuming then .finishing else .waiting := by
  simp only [stage, Nat.lt_irrefl, if_false, if_pos h, true_and]

/-- A job that is not fresh has been started. -/
theorem lt_started_of_stage {d : InOrder total} {i : ℕ} (h : d.turn ≠ .starting)
    (hi : d.stage i ≠ .fresh) : i < d.started := by
  by_contra hn
  have := d.resumed_le
  simp only [stage, if_neg (show ¬ i < d.resumed by omega), if_neg hn, h, and_false, if_false,
    ne_eq, not_true_eq_false] at hi

theorem stage_eq_done {d : InOrder total} {i : ℕ} : d.stage i = .done ↔ i < d.resumed := by
  simp only [stage]
  split_ifs <;> simp_all

end InOrder
