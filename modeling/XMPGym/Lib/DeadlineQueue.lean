import Mathlib.Data.List.Basic
import Mathlib.Data.Prod.Basic

/-!
# Bounded queues with deadlines

What a bounded first-in first-out server is for: jobs are accepted while there is room, they wait
in the order of acceptance, and the head is served no earlier than it is due.  The invariant is
part of the type, so a queue that lost, duplicated, reordered or anticipated a job cannot be
written down; `accept` and `serve` are its only moves.
-/

/-- A queue of at most `cap` waiting jobs; `due x` is the earliest time at which `x` may be served.
`accepted` and `served` are the histories, oldest first. -/
structure DeadlineQueue (α : Type*) (due : α → ℕ) (cap : ℕ) where
  accepted : List α
  served : List (α × ℕ)
  waiting : List α
  history : accepted = served.map Prod.fst ++ waiting
  bounded : waiting.length ≤ cap
  sorted : waiting.Pairwise fun x y => due x ≤ due y
  onTime : ∀ x ∈ served, due x.1 ≤ x.2

namespace DeadlineQueue

variable {α : Type*} {due : α → ℕ} {cap : ℕ}

/-- A queue holding `l`, with no history before it. -/
def ofList (l : List α) (hl : l.length ≤ cap) (hs : l.Pairwise fun x y => due x ≤ due y) :
    DeadlineQueue α due cap where
  accepted := l
  served := []
  waiting := l
  history := by simp
  bounded := hl
  sorted := hs
  onTime := by simp

/-- Accept the job `x`. -/
def accept (q : DeadlineQueue α due cap) (x : α) (room : q.waiting.length < cap)
    (last : ∀ y ∈ q.waiting, due y ≤ due x) : DeadlineQueue α due cap where
  accepted := q.accepted ++ [x]
  served := q.served
  waiting := q.waiting ++ [x]
  history := by rw [q.history, List.append_assoc]
  bounded := by
    rw [List.length_append, List.length_singleton]
    exact room
  sorted := by
    rw [List.pairwise_append]
    exact ⟨q.sorted, List.pairwise_singleton _ _, by simpa using last⟩
  onTime := q.onTime

/-- Serve the head at time `now`. -/
def serve (q : DeadlineQueue α due cap) (x : α) (rest : List α) (head : q.waiting = x :: rest)
    (now : ℕ) (ready : due x ≤ now) : DeadlineQueue α due cap where
  accepted := q.accepted
  served := q.served ++ [(x, now)]
  waiting := rest
  history := by rw [q.history, head, List.map_append]; simp
  bounded := by have := q.bounded; rw [head, List.length_cons] at this; omega
  sorted := by have := q.sorted; rw [head] at this; exact this.of_cons
  onTime := by
    simp only [List.mem_append, List.mem_singleton]
    rintro y (hy | rfl)
    · exact q.onTime y hy
    · exact ready

@[simp] theorem accept_accepted (q : DeadlineQueue α due cap) (x : α) (h₁ h₂) :
    (q.accept x h₁ h₂).accepted = q.accepted ++ [x] := rfl

@[simp] theorem accept_served (q : DeadlineQueue α due cap) (x : α) (h₁ h₂) :
    (q.accept x h₁ h₂).served = q.served := rfl

@[simp] theorem accept_waiting (q : DeadlineQueue α due cap) (x : α) (h₁ h₂) :
    (q.accept x h₁ h₂).waiting = q.waiting ++ [x] := rfl

@[simp] theorem serve_accepted (q : DeadlineQueue α due cap) (x : α) (rest h₁ now h₂) :
    (q.serve x rest h₁ now h₂).accepted = q.accepted := rfl

@[simp] theorem serve_served (q : DeadlineQueue α due cap) (x : α) (rest h₁ now h₂) :
    (q.serve x rest h₁ now h₂).served = q.served ++ [(x, now)] := rfl

@[simp] theorem serve_waiting (q : DeadlineQueue α due cap) (x : α) (rest h₁ now h₂) :
    (q.serve x rest h₁ now h₂).waiting = rest := rfl

/-- Jobs are served in the order in which they were accepted, each at most once. -/
theorem served_prefix (q : DeadlineQueue α due cap) : q.served.map Prod.fst <+: q.accepted :=
  ⟨q.waiting, q.history.symm⟩

/-- The jobs accepted and not yet served are those that wait. -/
theorem length_waiting (q : DeadlineQueue α due cap) :
    q.waiting.length = q.accepted.length - q.served.length := by
  rw [q.history]
  simp

/-- Behind the jobs served, the history is what waits. -/
theorem getElem?_accepted (q : DeadlineQueue α due cap) {m : ℕ} (h : q.served.length ≤ m) :
    q.accepted[m]? = q.waiting[m - q.served.length]? := by
  rw [q.history, List.getElem?_append_right (by simpa using h), List.length_map]

/-- What is served under a number is what was accepted under it. -/
theorem getElem?_served (q : DeadlineQueue α due cap) {m : ℕ} {x : α}
    (hx : q.accepted[m]? = some x) (hm : m < q.served.length) :
    ∃ now, q.served[m]? = some (x, now) := by
  rw [q.history, List.getElem?_append_left (by simpa using hm), List.getElem?_map] at hx
  obtain ⟨⟨y, now⟩, hy, rfl⟩ := Option.map_eq_some_iff.1 hx
  exact ⟨now, hy⟩

/-- When a job that waits is due, so is the head. -/
theorem head_le (q : DeadlineQueue α due cap) {x y : α} {i : ℕ} (hx : q.waiting.head? = some x)
    (hy : q.waiting[i]? = some y) : due x ≤ due y := by
  have hsorted := q.sorted
  obtain ⟨rest, hl⟩ := List.head?_eq_some_iff.1 hx
  rw [hl] at hsorted hy
  rcases List.mem_cons.1 (List.mem_of_getElem? hy) with rfl | hmem
  · exact Nat.le_refl _
  · exact List.rel_of_pairwise_cons hsorted hmem

end DeadlineQueue
