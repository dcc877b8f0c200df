import Mathlib.Algebra.Order.Ring.Nat
import Mathlib.Data.Nat.Notation
import Mathlib.Data.Set.Defs

/-!
# Walks over pages

Addresses in pages of one size, and walks from an address in strides of at most that size.  Only the
last page can be left out, and it is left out exactly when the walk ends before it
(`touches_stops_iff`).
-/

namespace Pages

/-- Each page of `page` bytes with an address from `a` up to `a + n` has an address in `W`. -/
def Touches (page : ℕ) (W : Set ℕ) (a n : ℕ) : Prop :=
  ∀ x, a ≤ x → x < a + n → ∃ y ∈ W, y / page = x / page

/-- The addresses from `a` up to `a + n` in strides of `s`. -/
def stops (s a n : ℕ) : Set ℕ := {x | ∃ k, s * k < n ∧ x = a + s * k}

variable {page s a n x : ℕ} {W : Set ℕ}

theorem mem_of_mem_stops (h : x ∈ stops s a n) : a ≤ x ∧ x < a + n := by
  obtain ⟨k, hk, rfl⟩ := h
  exact ⟨Nat.le_add_right _ _, Nat.add_lt_add_left hk a⟩

/-- The last stop is `(n - 1) % s` bytes before the end. -/
theorem le_last_of_mem_stops (h : x ∈ stops s a n) : x + (n - 1) % s ≤ a + (n - 1) := by
  obtain ⟨k, hk, rfl⟩ := h
  have hle : s * k ≤ s * ((n - 1) / s) := by
    rcases Nat.eq_zero_or_pos s with rfl | hs
    · rw [Nat.zero_mul, Nat.zero_mul]
    · exact Nat.mul_le_mul_left s ((Nat.le_div_iff_mul_le hs).2 (by rw [Nat.mul_comm]; omega))
  have := Nat.div_add_mod (n - 1) s
  omega

/-- A stop at or before an address, less than a stride away. -/
theorem exists_stop_le (hs : 0 < s) (hlow : a ≤ x) (hhigh : x < a + n) :
    ∃ y ∈ stops s a n, y ≤ x ∧ x < y + s := by
  have hdiv := Nat.div_add_mod (x - a) s
  have hmod := Nat.mod_lt (x - a) hs
  exact ⟨a + s * ((x - a) / s), ⟨_, by omega, rfl⟩, by omega, by omega⟩

/-- The stop after a stop, or there is none before the end. -/
theorem next_stop (h : x ∈ stops s a n) (hx : x + s < a + n) : x + s ∈ stops s a n := by
  obtain ⟨k, -, rfl⟩ := h
  exact ⟨k + 1, by rw [Nat.mul_succ]; omega, by rw [Nat.mul_succ, Nat.add_assoc]⟩

/-- The last stop is as far from the end as it can be. -/
theorem eq_last_of_mem_stops (h : x ∈ stops s a n) (hend : a + n ≤ x + s) :
    x + (n - 1) % s = a + (n - 1) := by
  obtain ⟨k, hk, rfl⟩ := h
  have hsplit : n - 1 = s * k + (n - 1 - s * k) := by omega
  rw [hsplit, Nat.mul_add_mod, Nat.mod_eq_of_lt (by omega), Nat.add_assoc]

/-- A walk touches all pages if and only if its last stop is in the last one. -/
theorem touches_stops_iff (hs : 0 < s) (hpage : s ≤ page) (hn : 0 < n) :
    Touches page (stops s a n) a n ↔ (n - 1) % s ≤ (a + (n - 1)) % page := by
  have hend := Nat.div_add_mod (a + (n - 1)) page
  constructor
  · intro h
    obtain ⟨y, hy, hsame⟩ := h (a + (n - 1)) (by omega) (by omega)
    have hlast := le_last_of_mem_stops hy
    have hdiv := Nat.div_add_mod y page
    rw [hsame] at hdiv
    omega
  · intro h x hlow hhigh
    obtain ⟨y, hy, hyx, hxy⟩ := exists_stop_le hs hlow hhigh
    have hdiv := Nat.div_add_mod x page
    have hmod := Nat.mod_lt x (Nat.lt_of_lt_of_le hs hpage)
    have hin : ∀ z, page * (x / page) ≤ z → z < page * (x / page) + page → z / page = x / page :=
      fun z hz hz' => Nat.div_eq_of_lt_le (by rwa [Nat.mul_comm]) (by rwa [Nat.mul_comm])
    by_cases hbefore : page * (x / page) ≤ y
    · exact ⟨y, hy, hin y hbefore (by omega)⟩
    · -- the walk comes to the page with its next stop, unless it ends
      by_cases hnext : y + s < a + n
      · exact ⟨y + s, next_stop hy hnext, hin (y + s) (by omega) (by omega)⟩
      · have hlast := eq_last_of_mem_stops hy (Nat.le_of_not_lt hnext)
        have hle : page * (x / page) ≤ page * ((a + (n - 1)) / page) :=
          Nat.mul_le_mul_left page (Nat.div_le_div_right (by omega))
        omega

end Pages
