import Mathlib.Algebra.BigOperators.Ring.Finset
import Mathlib.Algebra.Order.BigOperators.Group.Finset
import Mathlib.Algebra.Order.Ring.Int
import Mathlib.Data.Int.ModEq

/-!
# Mean and variance

`avg_from_array` and `stddev_from_array` (`src/stats.cpp`).  All of it is computed in 64 bits, where
a deviation below the mean wraps around, and its square once more; the sum of the squares is right
nevertheless, as long as the true sum has room.
-/

namespace XMPGym

/-- `for(int i=0; i<size; i++) sum += term[i]`, from 0, as `uint64_t`. -/
def wrappedSum (term : ℕ → ℕ) : ℕ → ℕ
  | 0 => 0
  | n + 1 => (wrappedSum term n + term n) % 2 ^ 64

/-- `avg_from_array` -/
def avgFromArray (arr : ℕ → ℕ) (size : ℕ) : ℕ := wrappedSum arr size / size

/-- `x - y`, as `uint64_t` -/
def wrappedSub (x y : ℕ) : ℕ := (x + (2 ^ 64 - y % 2 ^ 64)) % 2 ^ 64

/-- `(x - avg) * (x - avg)`, as `uint64_t` -/
def wrappedSquare (avg x : ℕ) : ℕ := wrappedSub x avg * wrappedSub x avg % 2 ^ 64

/-- `stddev_from_array`, over any square root. -/
def stddevFromArray {D : Type*} (sqrt : ℕ → D) (arr : ℕ → ℕ) (size : ℕ) : D :=
  sqrt (wrappedSum (fun i => wrappedSquare (avgFromArray arr size) (arr i)) size / size)

/-! ## Residues -/

section residues

variable {term : ℕ → ℕ} {f : ℕ → ℤ}

/-- A difference that wraps around has the residue of the true one. -/
theorem wrappedSub_modEq (x y : ℕ) : (wrappedSub x y : ℤ) ≡ x - y [ZMOD 2 ^ 64] := by
  unfold wrappedSub Int.ModEq
  omega

/-- So does its square, which is that of the true difference. -/
theorem wrappedSquare_modEq (avg x : ℕ) :
    (wrappedSquare avg x : ℤ) ≡ ((x : ℤ) - avg) ^ 2 [ZMOD 2 ^ 64] := by
  have h := wrappedSub_modEq x avg
  calc (wrappedSquare avg x : ℤ)
      ≡ wrappedSub x avg * wrappedSub x avg [ZMOD 2 ^ 64] := by
        unfold wrappedSquare
        push_cast
        exact Int.mod_modEq _ _
    _ ≡ (x - avg) * (x - avg) [ZMOD 2 ^ 64] := h.mul h
    _ = ((x : ℤ) - avg) ^ 2 := (sq _).symm

/-- A sum that is kept in 64 bits has the residue of the sum of the terms, whatever these are
modulo `2 ^ 64`. -/
theorem wrappedSum_modEq (h : ∀ i, (term i : ℤ) ≡ f i [ZMOD 2 ^ 64]) (n : ℕ) :
    (wrappedSum term n : ℤ) ≡ ∑ i ∈ Finset.range n, f i [ZMOD 2 ^ 64] := by
  induction n with
  | zero => rfl
  | succ n ih =>
      unfold wrappedSum
      rw [Finset.sum_range_succ]
      push_cast
      exact (Int.mod_modEq _ _).trans (ih.add (h n))

theorem wrappedSum_lt (term : ℕ → ℕ) (n : ℕ) : wrappedSum term n < 2 ^ 64 := by
  cases n with
  | zero => exact Nat.two_pow_pos 64
  | succ n => exact Nat.mod_lt _ (Nat.two_pow_pos 64)

/-- A residue that is in range is the number itself. -/
theorem wrappedSum_eq (h : ∀ i, (term i : ℤ) ≡ f i [ZMOD 2 ^ 64]) {n : ℕ}
    (h₀ : 0 ≤ ∑ i ∈ Finset.range n, f i) (hlt : ∑ i ∈ Finset.range n, f i < 2 ^ 64) :
    (wrappedSum term n : ℤ) = ∑ i ∈ Finset.range n, f i := by
  have hmod := wrappedSum_modEq h n
  have hword := wrappedSum_lt term n
  unfold Int.ModEq at hmod
  rwa [Int.emod_eq_of_lt (by omega) (by exact_mod_cast hword), Int.emod_eq_of_lt h₀ hlt] at hmod

end residues

/-- The mean is the true one, and the number whose square root is taken is the true sum of the
squares of the deviations from it, divided by the number of entries; both quotients are rounded
down. -/
theorem stddevFromArray_eq {D : Type*} (sqrt : ℕ → D) (arr : ℕ → ℕ) (size : ℕ)
    (hsum : ∑ i ∈ Finset.range size, arr i < 2 ^ 64)
    (hdev : ∑ i ∈ Finset.range size, ((arr i : ℤ) - avgFromArray arr size) ^ 2 < 2 ^ 64) :
    avgFromArray arr size = (∑ i ∈ Finset.range size, arr i) / size ∧
      ∃ v : ℕ, stddevFromArray sqrt arr size = sqrt v ∧
        (v : ℤ) = (∑ i ∈ Finset.range size, ((arr i : ℤ) - avgFromArray arr size) ^ 2) / size := by
  refine ⟨?_, _, rfl, ?_⟩
  · have hlt : ∑ i ∈ Finset.range size, (arr i : ℤ) < 2 ^ 64 := by exact_mod_cast hsum
    have hterm : ∀ i, (arr i : ℤ) ≡ arr i [ZMOD 2 ^ 64] := fun _ => Int.ModEq.refl _
    have h := wrappedSum_eq hterm
      (Finset.sum_nonneg fun i _ => Int.natCast_nonneg (arr i)) hlt
    unfold avgFromArray
    congr 1
    exact_mod_cast h
  · rw [Int.natCast_div, wrappedSum_eq (fun i => wrappedSquare_modEq _ _)
      (Finset.sum_nonneg fun i _ => sq_nonneg _) hdev]

/-- Of the entries 1, 2 and 6 the mean is 3, and two of the deviations wrap around. -/
theorem stddevFromArray_eq_three :
    avgFromArray (fun i => i * i + 1 + i / 2) 3 = 3 ∧
      ∃ v : ℕ, stddevFromArray (fun v => v) (fun i => i * i + 1 + i / 2) 3 = v ∧ v = 4 := by
  obtain ⟨havg, v, hv, heq⟩ := stddevFromArray_eq (fun v => v) (fun i => i * i + 1 + i / 2) 3
    (by decide) (by decide)
  exact ⟨havg, v, hv, Int.ofNat.inj heq⟩

end XMPGym
