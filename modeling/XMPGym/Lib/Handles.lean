import Mathlib.Data.List.Basic
import Mathlib.Data.Nat.Notation

/-!
# One-shot handles

The handles of suspended computations.  A suspension makes a fresh handle, and jumping to a handle
consumes it.  `κ` names the computations; serial number 0 is that of the handles that exist before
anything has run.
-/

/-- A suspension of `owner`. -/
structure Handle (κ : Type*) where
  owner : κ
  serial : ℕ
  deriving DecidableEq, Repr

/-- The handles that have been jumped to, all older than the next one to be made. -/
structure Handles (κ : Type*) where
  fresh : ℕ
  consumed : List (Handle κ)
  older : ∀ h ∈ consumed, h.serial < fresh

namespace Handles

variable {κ : Type*}

/-- No handle has been jumped to. -/
def start : Handles κ := ⟨1, [], by simp⟩

/-- `self` suspends itself and jumps to `h`: the handle of its suspension, and what is consumed
from then on. -/
def jump (t : Handles κ) (self : κ) (h : Handle κ) : Handle κ × Handles κ :=
  (⟨self, max t.fresh (h.serial + 1)⟩,
    { fresh := max t.fresh (h.serial + 1) + 1
      consumed := h :: t.consumed
      older := by
        intro g hg
        rcases List.mem_cons.1 hg with rfl | hg
        · omega
        · have := t.older g hg
          omega })

@[simp] theorem jump_owner (t : Handles κ) (self : κ) (h : Handle κ) :
    (t.jump self h).1.owner = self := rfl

/-- A handle made by a jump does not have serial number 0. -/
theorem jump_eq (t : Handles κ) (self : κ) (h : Handle κ) :
    ∃ k, (t.jump self h).1 = ⟨self, k + 1⟩ := by
  refine ⟨max t.fresh (h.serial + 1) - 1, ?_⟩
  simp only [jump, Handle.mk.injEq, true_and]
  omega

variable [DecidableEq κ]

/-- The handle has not been consumed. -/
def live (t : Handles κ) (h : Handle κ) : Bool := h ∉ t.consumed

@[simp] theorem live_start (h : Handle κ) : (start : Handles κ).live h = true := by
  simp [live, start]

/-- The handle just made is live. -/
theorem live_jump_self (t : Handles κ) (self : κ) (h : Handle κ) :
    (t.jump self h).2.live (t.jump self h).1 = true := by
  rw [live, decide_eq_true_eq]
  intro hmem
  rcases List.mem_cons.1 hmem with e | hmem
  · have := congrArg Handle.serial e
    simp only [jump] at this
    omega
  · have := t.older _ hmem
    simp only [jump] at this
    omega

/-- A jump consumes its target and nothing else. -/
theorem live_jump (t : Handles κ) (self : κ) (h g : Handle κ) :
    (t.jump self h).2.live g = true ↔ g ≠ h ∧ t.live g = true := by
  simp [live, jump]

end Handles
