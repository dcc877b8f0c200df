import Mathlib.Dynamics.PeriodicPts.Defs
import Mathlib.Data.Finset.Card
import Mathlib.Data.Nat.ModEq
import Mathlib.Order.Interval.Finset.Nat

/-!
# Cycles

A map that takes each of `n` places to the next one, and the last one to the first, goes through all
of them from any of them: each is reached once in `n` steps, and after these the map is back
(`minimalPeriod_eq`).  The first `c` places of a run are `min c n` different ones.
-/

open Function

namespace Cycle

variable {α : Type*} {f : α → α} {e : ℕ → α} {n : ℕ}

/-- `f` leads from `e i` to `e (i + 1)` and from `e (n - 1)` to `e 0`, which are `n` places. -/
structure IsCycle (f : α → α) (e : ℕ → α) (n : ℕ) : Prop where
  pos : 0 < n
  inj : ∀ i < n, ∀ j < n, e i = e j → i = j
  next : ∀ i < n, f (e i) = e ((i + 1) % n)

variable (h : IsCycle f e n) {i j : ℕ}
include h

theorem IsCycle.iterate (hi : i < n) (k : ℕ) : f^[k] (e i) = e ((i + k) % n) := by
  induction k with
  | zero => rw [iterate_zero_apply, Nat.add_zero, Nat.mod_eq_of_lt hi]
  | succ k ih =>
      rw [iterate_succ_apply', ih, h.next _ (Nat.mod_lt _ h.pos), Nat.mod_add_mod, Nat.add_assoc]

/-- Iterates are the same if and only if their numbers are, up to turns. -/
theorem IsCycle.iterate_eq_iff (hi : i < n) (k l : ℕ) :
    f^[k] (e i) = f^[l] (e i) ↔ k % n = l % n := by
  have hmod : (i + k) % n = (i + l) % n ↔ k % n = l % n :=
    ⟨Nat.ModEq.add_left_cancel' i, Nat.ModEq.add_left i⟩
  rw [h.iterate hi, h.iterate hi, ← hmod]
  exact ⟨h.inj _ (Nat.mod_lt _ h.pos) _ (Nat.mod_lt _ h.pos), fun heq => heq ▸ rfl⟩

/-- After `n` steps, and not before, the map is back. -/
theorem IsCycle.minimalPeriod_eq (hi : i < n) : minimalPeriod f (e i) = n := by
  refine Nat.dvd_antisymm ?_ ?_
  · refine IsPeriodicPt.minimalPeriod_dvd ((h.iterate_eq_iff hi n 0).2 ?_)
    rw [Nat.mod_self, Nat.zero_mod]
  · rw [Nat.dvd_iff_mod_eq_zero, ← Nat.zero_mod n, ← h.iterate_eq_iff hi, iterate_minimalPeriod]
    rfl

/-- Each place is reached once. -/
theorem IsCycle.existsUnique (hi : i < n) (hj : j < n) : ∃! k, k < n ∧ f^[k] (e i) = e j := by
  have hlt := Nat.mod_lt (j + n - i) h.pos
  have hreach : f^[(j + n - i) % n] (e i) = e j := by
    rw [h.iterate hi, Nat.add_mod_mod, show i + (j + n - i) = j + n by omega, Nat.add_mod_right,
      Nat.mod_eq_of_lt hj]
  refine ⟨(j + n - i) % n, ⟨hlt, hreach⟩, fun k ⟨hk, heq⟩ => ?_⟩
  have hmod := (h.iterate_eq_iff hi k _).1 (heq.trans hreach.symm)
  rwa [Nat.mod_eq_of_lt hk, Nat.mod_mod] at hmod

/-- The places of the first `c` steps. -/
theorem IsCycle.card_iterate [DecidableEq α] (hi : i < n) (c : ℕ) :
    ((Finset.range c).image fun k => f^[k] (e i)).card = min c n := by
  have hturns : ((Finset.range c).image fun k => f^[k] (e i)) =
      (Finset.range (min c n)).image fun k => f^[k] (e i) := by
    ext p
    simp only [Finset.mem_image, Finset.mem_range]
    constructor
    · rintro ⟨k, hk, rfl⟩
      have hlt := Nat.mod_lt k h.pos
      have hle := Nat.mod_le k n
      exact ⟨k % n, by omega, (h.iterate_eq_iff hi _ _).2 (Nat.mod_mod k n)⟩
    · rintro ⟨k, hk, rfl⟩
      exact ⟨k, by omega, rfl⟩
  rw [hturns, Finset.card_image_of_injOn, Finset.card_range]
  intro k hk l hl heq
  have hk := Finset.mem_range.1 hk
  have hl := Finset.mem_range.1 hl
  have hmod := (h.iterate_eq_iff hi k l).1 heq
  rwa [Nat.mod_eq_of_lt (by omega), Nat.mod_eq_of_lt (by omega)] at hmod

end Cycle
