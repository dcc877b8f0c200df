import Mathlib.Algebra.Order.Ring.Nat
import Mathlib.Data.Nat.Size
import Mathlib.Tactic.SplitIfs

/-!
# Rounding to significant bits

A number is rounded to its `p` most significant bits, to the nearest multiple of the last of them,
and half way to the even one; this is what a binary floating-point format of precision `p` does to
an integer that is in its range.  Rounding is monotone, so whether it can leave an interval is
decided at the end of the interval (`forall_lt_roundBits_iff`).
-/

namespace RoundBits

/-- The number of bits of `x` that are dropped. -/
def dropped (p x : ℕ) : ℕ := x.size - p

/-- The bits that are dropped are more than half of the last one that is kept, or just half of it
and that one is odd. -/
def RoundsUp (p x : ℕ) : Prop :=
  2 ^ dropped p x < 2 * (x % 2 ^ dropped p x) ∨
    2 ^ dropped p x = 2 * (x % 2 ^ dropped p x) ∧ x / 2 ^ dropped p x % 2 = 1

instance (p x : ℕ) : Decidable (RoundsUp p x) := inferInstanceAs (Decidable (_ ∨ _))

/-- The first number of `p` bits above `x`. -/
def next (p x : ℕ) : ℕ := (x / 2 ^ dropped p x + 1) * 2 ^ dropped p x

/-- `x` to `p` significant bits, ties to even. -/
def roundBits (p x : ℕ) : ℕ :=
  if RoundsUp p x then next p x else x / 2 ^ dropped p x * 2 ^ dropped p x

variable {p x y : ℕ}

theorem roundBits_of_not (h : ¬ RoundsUp p x) : roundBits p x ≤ x := by
  rw [roundBits, if_neg h]
  exact Nat.div_mul_le_self _ _

theorem lt_roundBits_of (h : RoundsUp p x) : x < roundBits p x := by
  rw [roundBits, if_pos h, next, Nat.mul_comm]
  exact Nat.lt_mul_div_succ _ (Nat.two_pow_pos _)

theorem roundBits_lt_iff {n : ℕ} (h : x < n) :
    roundBits p x < n ↔ (RoundsUp p x → next p x < n) := by
  by_cases hup : RoundsUp p x
  · rw [roundBits, if_pos hup]
    exact ⟨fun hlt _ => hlt, fun hlt => hlt hup⟩
  · exact ⟨fun _ h => absurd h hup, fun _ => (roundBits_of_not hup).trans_lt h⟩

/-- Rounding gives one of the two multiples around the number. -/
theorem roundBits_bounds (p x : ℕ) :
    x / 2 ^ dropped p x * 2 ^ dropped p x ≤ roundBits p x ∧
      roundBits p x ≤ next p x := by
  unfold roundBits next
  split_ifs
  · exact ⟨Nat.mul_le_mul_right _ (Nat.le_succ _), Nat.le_refl _⟩
  · exact ⟨Nat.le_refl _, Nat.mul_le_mul_right _ (Nat.le_succ _)⟩

/-- Rounding does not go past the next power of two. -/
theorem roundBits_le_two_pow (p x : ℕ) : roundBits p x ≤ 2 ^ x.size := by
  have hlt := Nat.lt_size_self x
  by_cases hk : dropped p x = 0
  · have hup : ¬ RoundsUp p x := by
      unfold RoundsUp
      rw [hk, Nat.pow_zero, Nat.mod_one]
      omega
    exact (roundBits_of_not hup).trans hlt.le
  · have hsize : x.size = x.size - dropped p x + dropped p x := by
      unfold dropped at hk ⊢
      omega
    have hquot : x / 2 ^ dropped p x < 2 ^ (x.size - dropped p x) := by
      rw [Nat.div_lt_iff_lt_mul (Nat.two_pow_pos _), ← Nat.pow_add, ← hsize]
      exact hlt
    refine (roundBits_bounds p x).2.trans ?_
    calc next p x
        ≤ 2 ^ (x.size - dropped p x) * 2 ^ dropped p x := Nat.mul_le_mul_right _ hquot
      _ = 2 ^ x.size := by rw [← Nat.pow_add, ← hsize]

/-- Rounding does not go below a power of two. -/
theorem two_pow_le_roundBits (hp : 1 ≤ p) {n : ℕ} (h : 2 ^ n ≤ x) : 2 ^ n ≤ roundBits p x := by
  have key {m : ℕ} (hk : dropped p x ≤ m) (hm : 2 ^ m ≤ x) : 2 ^ m ≤ roundBits p x := by
    refine le_trans ?_ (roundBits_bounds p x).1
    rw [← Nat.sub_add_cancel hk, Nat.pow_add]
    refine Nat.mul_le_mul_right _ ?_
    rw [Nat.le_div_iff_mul_le (Nat.two_pow_pos _), ← Nat.pow_add, Nat.sub_add_cancel hk]
    exact hm
  rcases Nat.le_total (dropped p x) n with hk | hk
  · exact key hk h
  · -- the leading bit is kept
    have hlead : dropped p x < x.size := by
      have := Nat.lt_size.2 h
      unfold dropped at hk ⊢
      omega
    exact (Nat.pow_le_pow_right (by decide) hk).trans (key (Nat.le_refl _) (Nat.lt_size.1 hlead))

theorem roundBits_mono (hp : 1 ≤ p) (h : x ≤ y) : roundBits p x ≤ roundBits p y := by
  rcases Nat.eq_or_lt_of_le (Nat.size_le_size h) with hsize | hsize
  · -- the same bits are dropped
    have hk : dropped p x = dropped p y := by rw [dropped, dropped, hsize]
    rcases Nat.eq_or_lt_of_le (Nat.div_le_div_right (c := 2 ^ dropped p y) h) with hq | hq
    · have hr : x % 2 ^ dropped p y ≤ y % 2 ^ dropped p y := by
        have hx := Nat.div_add_mod x (2 ^ dropped p y)
        have hy := Nat.div_add_mod y (2 ^ dropped p y)
        rw [hq] at hx
        omega
      have hup : RoundsUp p x → RoundsUp p y := by
        unfold RoundsUp
        rw [hk, hq]
        omega
      unfold roundBits next
      rw [hk, hq]
      split_ifs with hx hy
      · exact Nat.le_refl _
      · exact absurd (hup hx) hy
      · exact Nat.mul_le_mul_right _ (Nat.le_succ _)
      · exact Nat.le_refl _
    · refine (roundBits_bounds p x).2.trans (le_trans ?_ (roundBits_bounds p y).1)
      unfold next
      rw [hk]
      exact Nat.mul_le_mul_right _ hq
  · refine (roundBits_le_two_pow p x).trans (two_pow_le_roundBits hp ?_)
    exact Nat.lt_size.1 hsize

/-- Every number below `n` is rounded to a number below `n` if and only if the last one is not
rounded up. -/
theorem forall_lt_roundBits_iff (hp : 1 ≤ p) {n : ℕ} (hn : 1 ≤ n) :
    (∀ x < n, roundBits p x < n) ↔ ¬ RoundsUp p (n - 1) := by
  constructor
  · intro h hup
    have hlast := h (n - 1) (by omega)
    have := lt_roundBits_of hup
    omega
  · intro hup x hx
    have hmono := roundBits_mono hp (show x ≤ n - 1 by omega)
    have := roundBits_of_not hup
    omega

end RoundBits
