import Mathlib.Tactic.Linarith
import Mathlib.Data.Nat.Notation

/-!
# Machine integers

Conversions to `uInt` and `int`, which wrap around, and the arithmetic of `int`, which must not.
-/

namespace XMPGym

/-- A number as a `uInt`. -/
def toUInt (v : ℤ) : ℕ := (v % 2 ^ 32).toNat

/-- A number as an `int`. -/
def toInt (v : ℕ) : ℤ := if v % 2 ^ 32 < 2 ^ 31 then (v % 2 ^ 32 : ℕ) else (v % 2 ^ 32 : ℕ) - 2 ^ 32

theorem toUInt_of_lt {v : ℕ} (h : v < 2 ^ 32) : toUInt v = v := by
  unfold toUInt
  omega

theorem toInt_of_lt {v : ℕ} (h : v < 2 ^ 31) : toInt v = v := by
  unfold toInt
  rw [Nat.mod_eq_of_lt (by omega), if_pos h]

/-- A number of type `int`; `none` when it overflows. -/
def checkInt (v : ℤ) : Option ℤ := if -2 ^ 31 ≤ v ∧ v < 2 ^ 31 then some v else none

/-- A sum of numbers of type `int`. -/
def addInt (a b : ℤ) : Option ℤ := checkInt (a + b)

/-- A product of numbers of type `int`. -/
def mulInt (a b : ℤ) : Option ℤ := checkInt (a * b)

theorem addInt_of_lt {a b : ℤ} (h₀ : -2 ^ 31 ≤ a + b) (h : a + b < 2 ^ 31) :
    addInt a b = some (a + b) := if_pos ⟨h₀, h⟩

theorem addInt_of_le {a b : ℤ} (h : 2 ^ 31 ≤ a + b) : addInt a b = none :=
  if_neg (by omega)

/-- A number that is not negative can overflow at the top only. -/
theorem checkInt_natCast_ne_none {n : ℕ} : checkInt n ≠ none ↔ n < 2 ^ 31 := by
  simp only [checkInt, ne_eq, ite_eq_right_iff, reduceCtorEq, imp_false, not_not]
  omega

theorem addInt_natCast_ne_none {a b : ℕ} : addInt a b ≠ none ↔ a + b < 2 ^ 31 := by
  rw [addInt, ← Nat.cast_add, checkInt_natCast_ne_none]

theorem mulInt_natCast_ne_none {a b : ℕ} : mulInt a b ≠ none ↔ a * b < 2 ^ 31 := by
  rw [mulInt, ← Nat.cast_mul, checkInt_natCast_ne_none]

end XMPGym
