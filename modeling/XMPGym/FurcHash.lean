import Mathlib.Algebra.Order.Ring.Nat
import Mathlib.Algebra.Ring.Nat
import Mathlib.Data.Nat.Notation

/-!
# The shard hash

`furc_hash` (`src/ch3_hash.cpp`).  A key gives a sequence of bits, and the hash reads numbers off it
until one is below the size `m` of the pool; the depth `d` is the number of bits it reads for one
number.  When the pool grows by one shard, a key stays where it is or moves to the new shard.
-/

namespace XMPGym

/-! ## Bits -/

/-- The words of a key: `murmur_hash_64A(key, len, SEED)`, and from each the next one by
`murmur_rehash_64A`. -/
def hashWord (word₀ : ℕ) (rehash : ℕ → ℕ) (ord : ℕ) : ℕ := rehash^[ord] word₀

/-- Bit number `idx` of the words. -/
def hashBit (word₀ : ℕ) (rehash : ℕ → ℕ) (idx : ℕ) : Bool :=
  (hashWord word₀ rehash (idx >>> 6)).testBit (idx % 64)

/-! ## The hash -/

/-- `MAX_TRIES` -/
def maxTries : ℕ := 32

/-- `FURC_SHIFT` -/
def furcShift : ℕ := 23

/-- `for (d = 0; m > (1ul << d); d++)`, from `d` on, for at most `n` rounds. -/
def depthFrom (m : ℕ) : ℕ → ℕ → ℕ
  | 0, d => d
  | n + 1, d => if 1 <<< d < m then depthFrom m n (d + 1) else d

/-- The depth for `m` shards. -/
def furcDepth (m : ℕ) : ℕ := depthFrom m m 0

/-- The `while` loop: the next one of depth at most `d`, and where it stands; `none` when the depth
comes to zero. -/
def descend (bit : ℕ → Bool) : ℕ → ℕ → Option (ℕ × ℕ)
  | 0, _ => none
  | d + 1, a =>
      if bit a then some (d + 1, a)
      else if d = 0 then none
      else descend bit d d

/-- The inner `for` loop: `n` more bits of a number. -/
def readNum (bit : ℕ → Bool) : ℕ → ℕ → ℕ → ℕ × ℕ
  | 0, num, a => (num, a)
  | n + 1, num, a =>
      readNum bit n ((num <<< 1 ||| (bit a).toNat) % 2 ^ 32) ((a + furcShift) % 2 ^ 32)

/-- The last `n` attempts; `none` when they run out. -/
def attempts (bit : ℕ → Bool) (m : ℕ) : ℕ → ℕ → ℕ → Option ℕ
  | 0, _, _ => none
  | n + 1, d, a =>
      match descend bit d a with
      | none => some 0
      | some (d, a) =>
          let r := readNum bit (d - 1) 1 ((a + furcShift) % 2 ^ 32)
          if r.1 < m then some r.1 else attempts bit m n d r.2

/-- `furc_hash(key, len, m)`, from the bits of the key; `none` when it gives up. -/
def furcShard (bit : ℕ → Bool) (m : ℕ) : Option ℕ :=
  if m ≤ 1 then some 0 else attempts bit m maxTries (furcDepth m) (furcDepth m)

/-- `furc_hash` returns 0 when it gives up. -/
def furcHash (bit : ℕ → Bool) (m : ℕ) : ℕ := (furcShard bit m).getD 0

/-! ## Its parts -/

section parts

variable {bit : ℕ → Bool} {m d a n num : ℕ}

/-- The depth is the least `d` with `m ≤ 2 ^ d`. -/
theorem depthFrom_spec (hn : m ≤ 2 ^ (d + n)) (hlt : ∀ k < d, 2 ^ k < m) :
    m ≤ 2 ^ depthFrom m n d ∧ ∀ k < depthFrom m n d, 2 ^ k < m := by
  induction n generalizing d with
  | zero => exact ⟨hn, hlt⟩
  | succ n ih =>
      unfold depthFrom
      by_cases h : 1 <<< d < m
      · rw [if_pos h]
        rw [Nat.one_shiftLeft] at h
        rw [show d + (n + 1) = d + 1 + n by omega] at hn
        refine ih hn fun k hk => ?_
        rcases Nat.lt_succ_iff_lt_or_eq.1 hk with hk | rfl
        · exact hlt k hk
        · exact h
      · rw [if_neg h]
        rw [Nat.one_shiftLeft] at h
        exact ⟨Nat.not_lt.1 h, hlt⟩

theorem furcDepth_spec (m : ℕ) : m ≤ 2 ^ furcDepth m ∧ ∀ k < furcDepth m, 2 ^ k < m := by
  refine depthFrom_spec ?_ (by omega)
  rw [Nat.zero_add]
  exact Nat.lt_two_pow_self.le

/-- Between two powers of two the depth is that of the greater one. -/
theorem furcDepth_eq (hle : m ≤ 2 ^ d) (hlt : ∀ k < d, 2 ^ k < m) : furcDepth m = d := by
  have h := furcDepth_spec m
  rcases Nat.lt_trichotomy (furcDepth m) d with hd | hd | hd
  · exact absurd h.1 (Nat.not_le.2 (hlt _ hd))
  · exact hd
  · exact absurd hle (Nat.not_le.2 (h.2 _ hd))

/-- The `while` loop stops at a one, and it does not go up. -/
theorem descend_some {r : ℕ × ℕ} (h : descend bit d a = some r) : 1 ≤ r.1 ∧ r.1 ≤ d := by
  induction d generalizing a with
  | zero => cases h
  | succ d ih =>
      unfold descend at h
      split_ifs at h with hbit hzero
      · obtain rfl := Option.some.inj h
        exact ⟨Nat.succ_pos d, Nat.le_refl _⟩
      · have := ih h
        omega

/-- One more bit of a number. -/
theorem shiftLeft_or_toNat (num : ℕ) (b : Bool) : num <<< 1 ||| b.toNat = 2 * num + b.toNat := by
  rw [Nat.shiftLeft_eq, Nat.pow_one, Nat.mul_comm]
  have := Nat.two_pow_add_eq_or_of_lt (i := 1) (Bool.toNat_lt b) num
  rw [Nat.pow_one] at this
  exact this.symm

/-- A number that starts with `num`, after `n` more bits. -/
theorem readNum_bounds (h : num < 2 ^ d) (hd : d + n ≤ 32) :
    num * 2 ^ n ≤ (readNum bit n num a).1 ∧ (readNum bit n num a).1 < 2 ^ (d + n) := by
  induction n generalizing num d a with
  | zero => simpa [readNum] using h
  | succ n ih =>
      have hb := Bool.toNat_lt (bit a)
      have hnext : 2 * num + (bit a).toNat < 2 ^ (d + 1) := by
        rw [Nat.pow_succ]
        omega
      have hword : (2 : ℕ) ^ (d + 1) ≤ 2 ^ 32 := Nat.pow_le_pow_right (by decide) (by omega)
      unfold readNum
      rw [shiftLeft_or_toNat, Nat.mod_eq_of_lt (Nat.lt_of_lt_of_le hnext hword),
        show d + (n + 1) = d + 1 + n by omega]
      refine ⟨Nat.le_trans ?_ (ih hnext (by omega)).1, (ih hnext (by omega)).2⟩
      rw [Nat.pow_succ, Nat.mul_comm _ 2, ← Nat.mul_assoc]
      exact Nat.mul_le_mul_right _ (by omega)

/-- A number of `d` bits. -/
theorem readNum_one (bit : ℕ → Bool) (a : ℕ) (hpos : 1 ≤ d) (hd : d ≤ 32) :
    2 ^ (d - 1) ≤ (readNum bit (d - 1) 1 a).1 ∧ (readNum bit (d - 1) 1 a).1 < 2 ^ d := by
  have h : 1 * 2 ^ (d - 1) ≤ (readNum bit (d - 1) 1 a).1 ∧
      (readNum bit (d - 1) 1 a).1 < 2 ^ (1 + (d - 1)) :=
    readNum_bounds (by decide) (by omega)
  rw [Nat.one_mul, show 1 + (d - 1) = d by omega] at h
  exact h

/-- What comes out of the attempts is below `m`. -/
theorem attempts_lt {r : ℕ} (hm : 1 ≤ m) (h : attempts bit m n d a = some r) : r < m := by
  induction n generalizing d a with
  | zero => cases h
  | succ n ih =>
      unfold attempts at h
      cases hdesc : descend bit d a with
      | none =>
          simp only [hdesc, Option.some.injEq] at h
          omega
      | some p =>
          simp only [hdesc] at h
          split_ifs at h with hlt
          · obtain rfl := Option.some.inj h
            exact hlt
          · exact ih h

theorem furcHash_lt (bit : ℕ → Bool) (hm : 1 ≤ m) : furcHash bit m < m := by
  unfold furcHash furcShard
  by_cases hone : m ≤ 1
  · rw [if_pos hone]
    exact hm
  · rw [if_neg hone]
    cases h : attempts bit m maxTries (furcDepth m) (furcDepth m) with
    | none => exact hm
    | some r => exact attempts_lt hm h

/-! ## One shard more -/

/-- From one and the same place: every attempt fails for both sizes, or succeeds with the same
number for both, or gives the new shard. -/
theorem attempts_succ {r : ℕ} (h : attempts bit (m + 1) n d a = some r) :
    r = m ∨ attempts bit m n d a = some r := by
  induction n generalizing d a with
  | zero => cases h
  | succ n ih =>
      unfold attempts at h ⊢
      cases hdesc : descend bit d a with
      | none =>
          simp only [hdesc] at h
          exact .inr h
      | some p =>
          simp only [hdesc] at h ⊢
          split_ifs at h with hlt
          · obtain rfl := Option.some.inj h
            rcases Nat.lt_succ_iff_lt_or_eq.1 hlt with hlt | heq
            · rw [if_pos hlt]
              exact .inr rfl
            · exact .inl heq
          · rw [if_neg (by omega)]
            exact ih h

/-- When `m = 2 ^ k`, one bit more is read.  If it is set, the number is at least `m`; if not, the
attempt goes on where the first one for `m` begins, and any number of at most `k` bits will do. -/
theorem attempts_two_pow {r k N : ℕ} (hk : 1 ≤ k) (hk' : k < 32)
    (h : attempts bit (2 ^ k + 1) n (k + 1) a = some r) :
    r = 2 ^ k ∨ attempts bit (2 ^ k) (N + 1) k k = some r := by
  induction n generalizing a with
  | zero => cases h
  | succ n ih =>
      unfold attempts descend at h
      by_cases hbit : bit a = true
      · simp only [if_pos hbit] at h
        have hnum := readNum_one bit ((a + furcShift) % 2 ^ 32) (show 1 ≤ k + 1 by omega)
          (by omega)
        rw [Nat.add_sub_cancel] at h hnum
        split_ifs at h with hlt
        · obtain rfl := Option.some.inj h
          exact .inl (by omega)
        · exact ih h
      · simp only [if_neg hbit, if_neg (show ¬ k = 0 by omega)] at h
        unfold attempts
        cases hdesc : descend bit k k with
        | none =>
            simp only [hdesc] at h
            exact .inr h
        | some p =>
            have hp := descend_some hdesc
            have hnum := readNum_one bit ((p.2 + furcShift) % 2 ^ 32) hp.1 (by omega)
            have hle : (2 : ℕ) ^ p.1 ≤ 2 ^ k := Nat.pow_le_pow_right (by decide) hp.2
            simp only [hdesc] at h ⊢
            rw [if_pos (by omega)] at h
            rw [if_pos (by omega)]
            exact .inr h

/-- The depth changes at the powers of two only. -/
theorem furcDepth_succ (hm : 1 ≤ m) :
    furcDepth (m + 1) = furcDepth m ∨
      m = 2 ^ furcDepth m ∧ furcDepth (m + 1) = furcDepth m + 1 := by
  have h := furcDepth_spec m
  by_cases heq : m = 2 ^ furcDepth m
  · refine .inr ⟨heq, furcDepth_eq ?_ fun k hk => ?_⟩
    · rw [Nat.pow_succ]
      omega
    · have : (2 : ℕ) ^ k ≤ 2 ^ furcDepth m := Nat.pow_le_pow_right (by decide) (by omega)
      omega
  · refine .inl (furcDepth_eq (by omega) fun k hk => ?_)
    have := h.2 k hk
    omega

end parts

/-- When the pool grows from `m` to `m + 1` shards, a key stays on its shard or moves to the new
one, unless the search for `m + 1` gives up. -/
theorem furcHash_succ (bit : ℕ → Bool) (m : ℕ) (hm : 1 ≤ m) (hmax : m < 2 ^ 32 - 1)
    (h : furcShard bit (m + 1) ≠ none) :
    (furcHash bit (m + 1) = furcHash bit m ∨ furcHash bit (m + 1) = m) ∧
      furcHash bit (m + 1) < m + 1 ∧ furcHash bit m < m := by
  refine ⟨?_, furcHash_lt bit (by omega), furcHash_lt bit hm⟩
  obtain ⟨r, hr⟩ := Option.ne_none_iff_exists'.1 h
  have hsucc : furcHash bit (m + 1) = r := by rw [furcHash, hr, Option.getD_some]
  rw [hsucc]
  by_cases hone : m = 1
  · have := furcHash_lt bit (show 1 ≤ m + 1 by omega)
    have := furcHash_lt bit hm
    omega
  · rw [furcShard, if_neg (by omega)] at hr
    have key : r = m ∨ attempts bit m maxTries (furcDepth m) (furcDepth m) = some r := by
      rcases furcDepth_succ hm with hd | ⟨hpow, hd⟩
      · rw [hd] at hr
        exact attempts_succ hr
      · rw [hd] at hr
        generalize furcDepth m = k at hpow hr
        subst hpow
        refine attempts_two_pow ?_ ?_ hr
        · exact Nat.pos_of_ne_zero fun hzero => hone (by rw [hzero]; rfl)
        · exact (Nat.pow_lt_pow_iff_right (by decide)).1 (Nat.lt_trans hmax (by decide))
    rcases key with rfl | key
    · exact .inr rfl
    · left
      rw [furcHash, furcShard, if_neg (by omega), key]
      rfl

/-- A key all of whose bits are set moves to the new shard. -/
theorem furcHash_succ_two :
    furcHash (fun _ => true) 4 = 3 ∧
      (furcHash (fun _ => true) 4 = furcHash (fun _ => true) 3 ∨ furcHash (fun _ => true) 4 = 3) ∧
      furcHash (fun _ => true) 4 < 4 ∧ furcHash (fun _ => true) 3 < 3 :=
  ⟨by decide, furcHash_succ (fun _ => true) 3 (by decide) (by decide) (by decide)⟩

/-! ## Any number of shards more -/

section growth

variable {bit : ℕ → Bool} {m m' d a k n N r : ℕ}

/-- More attempts do no harm. -/
theorem attempts_mono (h : attempts bit m n d a = some r) (hle : n ≤ N) :
    attempts bit m N d a = some r := by
  induction n generalizing d a N with
  | zero => cases h
  | succ n ih =>
      obtain ⟨N, rfl⟩ := Nat.exists_eq_add_of_le' (show 1 ≤ N by omega)
      unfold attempts at h ⊢
      cases hdesc : descend bit d a with
      | none => simpa only [hdesc] using h
      | some p =>
          simp only [hdesc] at h ⊢
          split_ifs at h ⊢ with hlt
          · exact h
          · exact ih h (by omega)

/-- From one and the same place, a number that the smaller pool has is found for it as well. -/
theorem attempts_shrink (h : attempts bit m' n d a = some r) (hle : m ≤ m') (hr : r < m) :
    attempts bit m n d a = some r := by
  induction n generalizing d a with
  | zero => cases h
  | succ n ih =>
      unfold attempts at h ⊢
      cases hdesc : descend bit d a with
      | none => simpa only [hdesc] using h
      | some p =>
          simp only [hdesc] at h ⊢
          split_ifs at h with hlt
          · obtain rfl := Option.some.inj h
            rw [if_pos hr]
          · rw [if_neg (by omega)]
            exact ih h

/-- The `while` loop stops above the depth `k`, or it comes to where it starts for `k`. -/
theorem descend_above (hk : 1 ≤ k) (hd : k < d) :
    (∃ p, descend bit d a = some p ∧ k < p.1) ∨ descend bit d a = descend bit k k := by
  induction d generalizing a with
  | zero => omega
  | succ d ih =>
      rw [descend]
      by_cases hbit : bit a = true
      · rw [if_pos hbit]
        exact .inl ⟨_, rfl, hd⟩
      · rw [if_neg hbit, if_neg (by omega)]
        rcases Nat.lt_succ_iff_lt_or_eq.1 hd with hlt | rfl
        · exact ih hlt
        · exact .inr rfl

/-- From a depth `d` above `k`, where `m ≤ 2 ^ k`: the numbers of more than `k` bits are no shards
of the smaller pool, and once the depth drops to `k` both pools go on from the same place. -/
theorem attempts_drop (hk : 1 ≤ k) (hm : m ≤ 2 ^ k) (hle : m ≤ m') (hd : k < d) (hd' : d ≤ 32)
    (h : attempts bit m' n d a = some r) (hr : r < m) :
    attempts bit m n k k = some r := by
  induction n generalizing d a with
  | zero => cases h
  | succ n ih =>
      have habove : (∃ p, descend bit d a = some p ∧ k < p.1) ∨
          descend bit d a = descend bit k k := descend_above hk hd
      rcases habove with ⟨p, hp, hkp⟩ | heq
      · have hdp := descend_some hp
        have hnum := readNum_one bit ((p.2 + furcShift) % 2 ^ 32) hdp.1 (by omega)
        have hpow : (2 : ℕ) ^ k ≤ 2 ^ (p.1 - 1) := Nat.pow_le_pow_right (by decide) (by omega)
        simp only [attempts, hp] at h
        split_ifs at h with hlt
        · obtain rfl := Option.some.inj h
          omega
        · exact attempts_mono (ih hkp (by omega) h) (Nat.le_succ n)
      · have hsame : attempts bit m' (n + 1) k k = some r := by
          rw [attempts] at h ⊢
          rw [← heq]
          exact h
        exact attempts_shrink hsame hle hr

theorem furcDepth_mono (hle : m ≤ m') : furcDepth m ≤ furcDepth m' := by
  by_contra hlt
  have := (furcDepth_spec m).2 (furcDepth m') (by omega)
  have := (furcDepth_spec m').1
  omega

theorem furcDepth_le (hm : m ≤ 2 ^ k) : furcDepth m ≤ k := by
  by_contra hlt
  have := (furcDepth_spec m).2 k (by omega)
  omega

/-- A key that the greater pool has on one of the first `m` shards is found there in the smaller
pool. -/
theorem furcShard_shrink (hm : 1 ≤ m) (hle : m ≤ m') (hmax : m' ≤ 2 ^ 32)
    (h : furcShard bit m' = some r) (hr : r < m) : furcShard bit m = some r := by
  by_cases hone : m ≤ 1
  · rw [furcShard, if_pos hone]
    exact congrArg some (by omega)
  · rw [furcShard, if_neg (by omega)] at h
    rw [furcShard, if_neg hone]
    have hk : 1 ≤ furcDepth m := Nat.pos_of_ne_zero fun hzero => by
      have := (furcDepth_spec m).1
      rw [hzero] at this
      omega
    rcases Nat.lt_or_eq_of_le (furcDepth_mono hle) with hlt | heq
    · exact attempts_drop hk (furcDepth_spec m).1 hle hlt (furcDepth_le hmax) h hr
    · rw [heq]
      exact attempts_shrink h hle hr

end growth

/-- When the pool grows from `m` to any greater number of shards, a key keeps its shard or moves to
one of the new ones, unless the search for the greater number gives up; whether it gives up for
sizes in between is of no matter.  A key that keeps its shard did not come to it by giving up. -/
theorem furcHash_grow (bit : ℕ → Bool) (m m' : ℕ) (hm : 1 ≤ m) (hle : m ≤ m') (hmax : m' < 2 ^ 32)
    (h : furcShard bit m' ≠ none) :
    furcHash bit m ≤ furcHash bit m' ∧ furcHash bit m' < m' ∧
      (furcHash bit m' = furcHash bit m ∧ furcShard bit m ≠ none ∨ m ≤ furcHash bit m') := by
  have hold := furcHash_lt bit hm
  refine and_left_comm.1 ⟨furcHash_lt bit (by omega), ?_⟩
  obtain ⟨r, hr⟩ := Option.ne_none_iff_exists'.1 h
  have hnew : furcHash bit m' = r := by rw [furcHash, hr, Option.getD_some]
  rw [hnew]
  rcases Nat.lt_or_ge r m with hlt | hge
  · have hsmall := furcShard_shrink hm hle hmax.le hr hlt
    have heq : furcHash bit m = r := by rw [furcHash, hsmall, Option.getD_some]
    exact ⟨heq.le, .inl ⟨heq.symm, by simp [hsmall]⟩⟩
  · exact ⟨by omega, .inr hge⟩

/-- From 3 shards to 100: a key stays on its shard. -/
theorem furcHash_grow_hundred :
    furcHash (fun i => i == 2) 100 = 2 ∧ furcHash (fun i => i == 2) 3 = 2 := by
  have h := furcHash_grow (fun i => i == 2) 3 100 (by decide) (by decide) (by decide) (by decide)
  have hnew : furcHash (fun i => i == 2) 100 = 2 := by decide
  rcases h.2.2 with ⟨heq, -⟩ | hge
  · exact ⟨hnew, heq ▸ hnew⟩
  · omega

end XMPGym
