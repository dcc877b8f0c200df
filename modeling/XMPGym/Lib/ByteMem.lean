import Mathlib.Algebra.Order.Ring.Nat
import Mathlib.Algebra.Ring.Nat
import Mathlib.Data.Nat.Notation
import Mathlib.Logic.Function.Basic

/-!
# Byte-addressed memory

Single bytes are stored, and numbers are loaded from several bytes, the least significant one
first.  What is loaded is `v` exactly when the bytes are those of `v` (`load_eq_iff`).
-/

/-- The byte at each address. -/
abbrev ByteMem := ℕ → UInt8

namespace ByteMem

/-- One byte is stored. -/
def store (m : ByteMem) (a : ℕ) (b : UInt8) : ByteMem := Function.update m a b

/-- Bytes are stored one after the other. -/
def writeBytes (m : ByteMem) (a : ℕ) : List UInt8 → ByteMem
  | [] => m
  | b :: bs => writeBytes (m.store a b) (a + 1) bs

/-- The number in `n` bytes. -/
def load (m : ByteMem) (a : ℕ) : ℕ → ℕ
  | 0 => 0
  | n + 1 => (m a).toNat + 256 * load m (a + 1) n

/-- Byte `j` of a number. -/
def byteOf (v j : ℕ) : ℕ := v / 256 ^ j % 256

/-- A number is stored in `n` bytes. -/
def storeNat (m : ByteMem) (a v n : ℕ) : ByteMem := fun x =>
  if a ≤ x ∧ x < a + n then UInt8.ofNat (byteOf v (x - a)) else m x

/-- `n` bytes are copied from `src` to `dst`. -/
def copy (m : ByteMem) (dst src n : ℕ) : ByteMem := fun x =>
  if dst ≤ x ∧ x < dst + n then m (src + (x - dst)) else m x

variable {m : ByteMem} {a n v : ℕ}

theorem byteOf_zero (v : ℕ) : byteOf v 0 = v % 256 := by
  rw [byteOf, Nat.pow_zero, Nat.div_one]

theorem byteOf_succ (v j : ℕ) : byteOf v (j + 1) = byteOf (v / 256) j := by
  rw [byteOf, byteOf, Nat.pow_succ', Nat.div_div_eq_div_mul]

theorem store_self (m : ByteMem) (a : ℕ) (b : UInt8) : m.store a b a = b := by
  unfold store
  rw [Function.update_self]

theorem store_of_ne {x : ℕ} (h : x ≠ a) (b : UInt8) : m.store a b x = m x := by
  unfold store
  rw [Function.update_of_ne h]

/-- Stores change nothing below and nothing above. -/
theorem writeBytes_of_outside {x : ℕ} (bs : List UInt8) (h : x < a ∨ a + bs.length ≤ x) :
    m.writeBytes a bs x = m x := by
  induction bs generalizing m a with
  | nil => rfl
  | cons b bs ih =>
      rw [List.length_cons] at h
      unfold writeBytes
      rw [ih (by omega)]
      exact store_of_ne (by omega) b

/-- The bytes that are stored are there afterwards. -/
theorem writeBytes_getElem? {bs : List UInt8} {j : ℕ} (hj : j < bs.length) :
    bs[j]? = some (m.writeBytes a bs (a + j)) := by
  induction bs generalizing m a j with
  | nil => exact absurd hj (Nat.not_lt_zero j)
  | cons b bs ih =>
      unfold writeBytes
      cases j with
      | zero =>
          have hfirst := writeBytes_of_outside (m := m.store a b) bs (.inl (Nat.lt_add_one a))
          rw [store_self] at hfirst
          exact congrArg some hfirst.symm
      | succ j =>
          rw [List.getElem?_cons_succ, ih (a := a + 1) (Nat.lt_of_succ_lt_succ hj), Nat.add_assoc,
            Nat.add_comm 1 j]

theorem load_lt (m : ByteMem) (a n : ℕ) : m.load a n < 256 ^ n := by
  induction n generalizing a with
  | zero => exact Nat.one_pos
  | succ n ih =>
      have hbyte := UInt8.toNat_lt (m a)
      have := ih (a + 1)
      unfold load
      rw [Nat.pow_succ]
      omega

/-- A number of `n` bytes is loaded exactly where its bytes are. -/
theorem load_eq_iff (hv : v < 256 ^ n) :
    m.load a n = v ↔ ∀ j < n, (m (a + j)).toNat = byteOf v j := by
  induction n generalizing a v with
  | zero =>
      rw [Nat.pow_zero] at hv
      constructor
      · intro _ j hj
        omega
      · intro _
        unfold load
        omega
  | succ n ih =>
      have hbyte := UInt8.toNat_lt (m a)
      rw [Nat.pow_succ] at hv
      have hih := ih (a := a + 1) (v := v / 256) (by omega)
      unfold load
      constructor
      · intro h j hj
        cases j with
        | zero =>
            rw [byteOf_zero, Nat.add_zero]
            omega
        | succ j =>
            have := hih.1 (by omega) j (by omega)
            rw [byteOf_succ, ← this, Nat.add_assoc, Nat.add_comm 1]
      · intro h
        have hlow := h 0 (Nat.succ_pos n)
        have hhigh := hih.2 fun j hj => by
          have := h (j + 1) (by omega)
          rwa [byteOf_succ, ← Nat.add_assoc, Nat.add_right_comm] at this
        rw [byteOf_zero, Nat.add_zero] at hlow
        omega

/-- The same bytes are the same number. -/
theorem load_congr {m' : ByteMem} {b : ℕ} (h : ∀ j < n, m' (b + j) = m (a + j)) :
    m'.load b n = m.load a n := by
  induction n generalizing a b with
  | zero => rfl
  | succ n ih =>
      have hfirst := h 0 (Nat.succ_pos n)
      rw [Nat.add_zero, Nat.add_zero] at hfirst
      unfold load
      rw [hfirst, ih fun j hj => by
        have := h (j + 1) (by omega)
        rwa [← Nat.add_assoc, ← Nat.add_assoc, Nat.add_right_comm b, Nat.add_right_comm a] at this]

theorem load_storeNat_self (hv : v < 256 ^ n) : (m.storeNat a v n).load a n = v := by
  rw [load_eq_iff hv]
  intro j hj
  rw [storeNat, if_pos (by omega), Nat.add_sub_cancel_left, UInt8.toNat_ofNat', byteOf]
  exact Nat.mod_mod _ _

theorem storeNat_of_outside {x : ℕ} (h : x < a ∨ a + n ≤ x) : m.storeNat a v n x = m x := by
  unfold storeNat
  rw [if_neg (by omega)]

theorem load_storeNat_of_disjoint {b k : ℕ} (h : b + k ≤ a ∨ a + n ≤ b) :
    (m.storeNat a v n).load b k = m.load b k :=
  load_congr fun _ hj => storeNat_of_outside (by omega)

/-- What has been copied is loaded as it was. -/
theorem load_copy {dst src k p : ℕ} (hlow : dst ≤ p) (hhigh : p + k ≤ dst + n) :
    (m.copy dst src n).load p k = m.load (src + (p - dst)) k := by
  refine load_congr fun j hj => ?_
  rw [copy, if_pos (by omega), show p + j - dst = p - dst + j by omega, Nat.add_assoc]

end ByteMem
