import XMPGym.FurcHash
import XMPGym.Lib.ByteMem

/-!
# The words of a key and their cache

`murmur_hash_64A` and `murmur_rehash_64A` (`src/ch3_hash.cpp`), which give the words that
`furc_hash` takes its bits from, and a run of `furc_hash` in which every access to its array `hash`
is checked.  The words are `uint64_t`, and are loaded from memory with the least significant byte
first.
-/

namespace XMPGym

/-! ## The hash functions -/

/-- `m` -/
def murmurM : UInt64 := 0xc6a4a7935bd1e995

/-- `SEED` -/
def murmurSeed : UInt32 := 4193360111

/-- `k *= m; k ^= k >> r; k *= m; h ^= k; h *= m` -/
def murmurMix (h k : UInt64) : UInt64 :=
  let k := k * murmurM
  let k := k ^^^ (k >>> 47)
  let k := k * murmurM
  (h ^^^ k) * murmurM

/-- `h ^= h >> r; h *= m; h ^= h >> r` -/
def murmurFinish (h : UInt64) : UInt64 :=
  let h := h ^^^ (h >>> 47)
  let h := h * murmurM
  h ^^^ (h >>> 47)

/-- `murmur_rehash_64A` -/
def murmurRehash64A (k : UInt64) : UInt64 :=
  let h := murmurSeed.toUInt64 ^^^ (8 * murmurM)
  murmurFinish (murmurMix h k)

/-- `*data`, where `data` is a `uint64_t *`. -/
def loadWord (mem : ByteMem) (data : ℕ) : UInt64 := UInt64.ofNat (mem.load data 8)

/-- The `while` loop of `murmur_hash_64A`: `n` words, from `data` on. -/
def murmurWords (mem : ByteMem) (n data : ℕ) (h : UInt64) : UInt64 :=
  (List.range n).foldl (fun h i => murmurMix h (loadWord mem (data + 8 * i))) h

/-- The `switch` of `murmur_hash_64A`, from a case on. -/
def murmurTail (mem : ByteMem) (data2 : ℕ) : ℕ → UInt64 → UInt64
  | 0, h => h
  | 1, h => (h ^^^ (mem data2).toUInt64) * murmurM
  | j + 2, h =>
      murmurTail mem data2 (j + 1)
        (h ^^^ ((mem (data2 + (j + 1))).toUInt64 <<< UInt64.ofNat (8 * (j + 1))))

/-- `murmur_hash_64A` -/
def murmurHash64A (mem : ByteMem) (key len : ℕ) (seed : UInt32) : UInt64 :=
  let h := seed.toUInt64 ^^^ (UInt64.ofNat len * murmurM)
  let h := murmurWords mem (len / 8) key h
  let h := murmurTail mem (key + 8 * (len / 8)) (len % 8) h
  murmurFinish h

/-- The eight bytes of a word, from address 0 on. -/
def wordBytes (k : UInt64) : ByteMem := fun j => UInt8.ofNat (ByteMem.byteOf k.toNat j)

/-- `n + 1` times `murmur_hash_64A`: of the key, and then of the bytes of the word before. -/
def murmurIterate (mem : ByteMem) (key len n : ℕ) : UInt64 :=
  (fun word => murmurHash64A (wordBytes word) 0 8 murmurSeed)^[n]
    (murmurHash64A mem key len murmurSeed)

theorem loadWord_wordBytes (k : UInt64) : loadWord (wordBytes k) 0 = k := by
  have hload : (wordBytes k).load 0 8 = k.toNat := by
    rw [ByteMem.load_eq_iff k.toNat_lt]
    intro j _
    rw [Nat.zero_add, wordBytes, UInt8.toNat_ofNat', ByteMem.byteOf]
    exact Nat.mod_mod _ _
  rw [loadWord, hload, UInt64.ofNat_toNat]

/-- `murmur_rehash_64A` is `murmur_hash_64A` of the bytes of a word. -/
theorem murmurRehash64A_eq (k : UInt64) :
    murmurRehash64A k = murmurHash64A (wordBytes k) 0 8 murmurSeed := by
  have hone : murmurWords (wordBytes k) 1 0 (murmurSeed.toUInt64 ^^^ 8 * murmurM) =
      murmurMix (murmurSeed.toUInt64 ^^^ 8 * murmurM) (loadWord (wordBytes k) 0) := rfl
  rw [murmurHash64A, show UInt64.ofNat 8 = 8 from rfl, show 8 / 8 = 1 from rfl,
    show 8 % 8 = 0 from rfl, hone, loadWord_wordBytes, murmurTail, murmurRehash64A]

section words

variable (mem : ByteMem) (key len : ℕ)

/-- The first word of a key, for `furc_get_bit`. -/
def keyWord : ℕ := (murmurHash64A mem key len murmurSeed).toNat

/-- The next word. -/
def rehashWord (k : ℕ) : ℕ := (murmurRehash64A (UInt64.ofNat k)).toNat

/-- The words of a key are the iterates of `murmur_hash_64A`. -/
theorem hashWord_eq (n : ℕ) :
    hashWord (keyWord mem key len) rehashWord n = (murmurIterate mem key len n).toNat := by
  unfold hashWord murmurIterate keyWord
  induction n with
  | zero => rw [Function.iterate_zero_apply, Function.iterate_zero_apply]
  | succ n ih =>
      rw [Function.iterate_succ_apply', Function.iterate_succ_apply', ih, rehashWord,
        UInt64.ofNat_toNat, murmurRehash64A_eq]

end words

/-! ## The array -/

/-- `FURC_CACHE_SIZE` -/
def furcCacheSize : ℕ := 1024

/-- The array `hash` with the entries that have been written, `old_ord`, and the calls of
`furc_get_bit` with what they have returned. -/
structure HashArray where
  entry : ℕ → Option ℕ
  oldOrd : ℤ
  calls : List (ℕ × Bool)

namespace HashArray

/-- `hash[n]`, if that is an entry which has been written. -/
def read (A : HashArray) (n : ℕ) : Option ℕ := if n < furcCacheSize then A.entry n else none

/-- `hash[n] = v`, if that is an entry. -/
def write (A : HashArray) (n v : ℕ) : Option HashArray :=
  if n < furcCacheSize then some { A with entry := Function.update A.entry n (some v) } else none

variable (word₀ : ℕ) (rehash : ℕ → ℕ)

/-- `(n == 0) ? murmur_hash_64A(key, len, SEED) : murmur_rehash_64A(hash[n - 1])` -/
def word (n : ℕ) (A : HashArray) : Option ℕ :=
  if n = 0 then some word₀ else (A.read (n - 1)).map rehash

/-- `hash[n] = ...`, for the `k` entries from `n` on. -/
def fill (n : ℕ) : ℕ → HashArray → Option HashArray
  | 0, A => some A
  | k + 1, A => do
      let v ← A.word word₀ rehash n
      let A ← A.write n v
      fill (n + 1) k A

/-- `if (*old_ord_p < ord) { ... }` -/
def extend (ord : ℕ) (A : HashArray) : Option HashArray :=
  if A.oldOrd < ord then
    (A.fill word₀ rehash (A.oldOrd + 1).toNat (ord + 1 - (A.oldOrd + 1).toNat)).map
      fun A => { A with oldOrd := ord }
  else some A

/-- `furc_get_bit`, with a key; `none` when it leaves the array or reads an entry that has not been
written. -/
def getBit (idx : ℕ) : StateT HashArray Option Bool := fun A => do
  let ord := idx >>> 6
  let A ← A.extend word₀ rehash ord
  let word ← A.read ord
  let bit := word.testBit (idx % 64)
  some (bit, { A with calls := A.calls ++ [(idx, bit)] })

end HashArray

/-! ## The loops, over the way in which they are given a bit -/

section loops

variable {M : Type → Type} [Monad M] (bit : ℕ → M Bool)

/-- The `while` loop of `furc_hash`. -/
def descendM : ℕ → ℕ → M (Option (ℕ × ℕ))
  | 0, _ => pure none
  | d + 1, a => do
      if ← bit a then pure (some (d + 1, a))
      else if d = 0 then pure none
      else descendM d d

/-- The inner `for` loop. -/
def readNumM : ℕ → ℕ → ℕ → M (ℕ × ℕ)
  | 0, num, a => pure (num, a)
  | n + 1, num, a => do
      let b ← bit a
      readNumM n ((num <<< 1 ||| b.toNat) % 2 ^ 32) ((a + furcShift) % 2 ^ 32)

/-- The last `n` attempts. -/
def attemptsM (m : ℕ) : ℕ → ℕ → ℕ → M (Option ℕ)
  | 0, _, _ => pure none
  | n + 1, d, a => do
      match ← descendM bit d a with
      | none => pure (some 0)
      | some (d, a) =>
          let r ← readNumM bit (d - 1) 1 ((a + furcShift) % 2 ^ 32)
          if r.1 < m then pure (some r.1) else attemptsM m n d r.2

/-- `furc_hash(key, len, m)` -/
def furcHashM (m : ℕ) : M ℕ :=
  if m ≤ 1 then pure 0
  else (·.getD 0) <$> attemptsM bit m maxTries (furcDepth m) (furcDepth m)

end loops

/-- `furc_hash(key, len, m)` with its array on the stack, of which no entry has been written: what
it returns, and the array at its end. -/
def furcHashArray (word₀ : ℕ) (rehash : ℕ → ℕ) (m : ℕ) : Option (ℕ × HashArray) :=
  furcHashM (HashArray.getBit word₀ rehash) m ⟨fun _ => none, -1, []⟩

/-! ## Every access is good -/

/-- The entries up to `old_ord` have been written and are words of the key, and each call has
returned its bit. -/
structure HashArray.Good (word₀ : ℕ) (rehash : ℕ → ℕ) (A : HashArray) : Prop where
  oldOrd : -1 ≤ A.oldOrd
  entry : ∀ n : ℕ, (n : ℤ) ≤ A.oldOrd → A.entry n = some (hashWord word₀ rehash n)
  calls : ∀ c ∈ A.calls, c.2 = hashBit word₀ rehash c.1

/-- What follows a call that has an outcome. -/
theorem bind_eq_of_eq_some {σ α β : Type} {x : StateT σ Option α} {s t : σ} {r : α}
    (hx : x s = some (r, t)) (f : α → StateT σ Option β) : (x >>= f) s = f r t := by
  change (x s).bind (fun p => f p.1 p.2) = f r t
  rw [hx, Option.bind_some]

section good

variable {word₀ : ℕ} {rehash : ℕ → ℕ} {A : HashArray}

/-- Filling in from `n` on, with the words before `n` in place. -/
theorem HashArray.fill_eq {n : ℕ} (k : ℕ)
    (h : ∀ i < n, A.entry i = some (hashWord word₀ rehash i)) (hlt : n + k ≤ furcCacheSize) :
    ∃ B, A.fill word₀ rehash n k = some B ∧ B.calls = A.calls ∧
      ∀ i < n + k, B.entry i = some (hashWord word₀ rehash i) := by
  induction k generalizing A n with
  | zero => exact ⟨A, rfl, rfl, h⟩
  | succ k ih =>
      have hword : A.word word₀ rehash n = some (hashWord word₀ rehash n) := by
        unfold word
        by_cases hzero : n = 0
        · rw [if_pos hzero, hzero]
          rfl
        · rw [if_neg hzero, read, if_pos (by omega), h (n - 1) (by omega), Option.map_some,
            hashWord, ← Function.iterate_succ_apply' rehash, show (n - 1).succ = n by omega]
          rfl
      have hnext : ∀ i < n + 1, Function.update A.entry n (some (hashWord word₀ rehash n)) i =
          some (hashWord word₀ rehash i) := by
        intro i hi
        rcases Nat.lt_succ_iff_lt_or_eq.1 hi with hi | rfl
        · exact (Function.update_of_ne (by omega) _ _).trans (h i hi)
        · exact Function.update_self _ _ _
      obtain ⟨B, hB, hcalls, hentry⟩ := ih
        (A := { A with entry := Function.update A.entry n (some (hashWord word₀ rehash n)) }) hnext
        (by omega)
      refine ⟨B, ?_, hcalls, fun i hi => hentry i (by omega)⟩
      simp only [fill, hword, write, if_pos (show n < furcCacheSize by omega), Option.bind_eq_bind,
        Option.bind_some]
      exact hB

/-- A call for a bit of one of the first words stays in the array and returns the bit. -/
theorem HashArray.getBit_eq (h : A.Good word₀ rehash) {idx : ℕ} (hidx : idx >>> 6 < furcCacheSize) :
    ∃ B, HashArray.getBit word₀ rehash idx A = some (hashBit word₀ rehash idx, B) ∧
      B.Good word₀ rehash := by
  have hold := h.oldOrd
  obtain ⟨C, hC, hcalls, hord, hentry⟩ : ∃ C, A.extend word₀ rehash (idx >>> 6) = some C ∧
      C.calls = A.calls ∧ ((idx >>> 6 : ℕ) : ℤ) ≤ C.oldOrd ∧
        ∀ n : ℕ, (n : ℤ) ≤ C.oldOrd → C.entry n = some (hashWord word₀ rehash n) := by
    unfold HashArray.extend
    by_cases hlt : A.oldOrd < ((idx >>> 6 : ℕ) : ℤ)
    · have hfilled : ∀ i < (A.oldOrd + 1).toNat, A.entry i = some (hashWord word₀ rehash i) :=
        fun i hi => h.entry i (by omega)
      obtain ⟨B, hB, hcalls, hentry⟩ := HashArray.fill_eq
        (idx >>> 6 + 1 - (A.oldOrd + 1).toNat) hfilled (by omega)
      rw [if_pos hlt, hB]
      exact ⟨_, rfl, hcalls, Int.le_refl _, fun n hn => hentry n (by simp only at hn; omega)⟩
    · exact ⟨A, if_neg hlt, rfl, by omega, h.entry⟩
  have hread : C.read (idx >>> 6) = some (hashWord word₀ rehash (idx >>> 6)) := by
    rw [HashArray.read, if_pos hidx, hentry _ hord]
  refine ⟨{ C with calls := C.calls ++ [(idx, hashBit word₀ rehash idx)] }, ?_,
    ⟨by simp only; omega, hentry, fun c hc => ?_⟩⟩
  · simp only [HashArray.getBit, hC, hread, Option.bind_eq_bind, Option.bind_some]
    rfl
  · rcases List.mem_append.1 hc with hc | hc
    · exact h.calls c (hcalls ▸ hc)
    · rw [List.mem_singleton.1 hc]

/-- Bits are asked for at indices up to this one. -/
def maxBit : ℕ := 32 + maxTries * (furcShift * 32)

theorem HashArray.getBit_of_le (h : A.Good word₀ rehash) {idx : ℕ} (hidx : idx ≤ maxBit) :
    ∃ B, HashArray.getBit word₀ rehash idx A = some (hashBit word₀ rehash idx, B) ∧
      B.Good word₀ rehash := by
  refine HashArray.getBit_eq h ?_
  rw [Nat.shiftRight_eq_div_pow]
  unfold maxBit maxTries furcShift at hidx
  unfold furcCacheSize
  omega

/-- The `while` loop, at a depth and an index that are not too great, and where it stands then. -/
theorem descendM_eq (h : A.Good word₀ rehash) {d a : ℕ} (hd : d ≤ 32) (ha : a ≤ maxBit) :
    ∃ B, descendM (HashArray.getBit word₀ rehash) d a A =
        some (descend (hashBit word₀ rehash) d a, B) ∧ B.Good word₀ rehash ∧
      ∀ p, descend (hashBit word₀ rehash) d a = some p → p.1 ≤ d ∧ p.2 ≤ max a 32 := by
  induction d generalizing a A with
  | zero => exact ⟨A, rfl, h, fun p hp => by cases hp⟩
  | succ d ih =>
      obtain ⟨B, hB, hgood⟩ := HashArray.getBit_of_le h ha
      rw [descendM, bind_eq_of_eq_some hB, descend]
      by_cases hbit : hashBit word₀ rehash a = true
      · rw [if_pos hbit, if_pos hbit]
        refine ⟨B, rfl, hgood, fun p hp => ?_⟩
        obtain rfl := Option.some.inj hp
        exact ⟨Nat.le_refl _, Nat.le_max_left _ _⟩
      · rw [if_neg hbit, if_neg hbit]
        by_cases hzero : d = 0
        · rw [if_pos hzero, if_pos hzero]
          exact ⟨B, rfl, hgood, fun p hp => by cases hp⟩
        · rw [if_neg hzero, if_neg hzero]
          obtain ⟨C, hC, hgood, hp⟩ := ih hgood (a := d) (by omega) (by unfold maxBit; omega)
          refine ⟨C, hC, hgood, fun p h => ?_⟩
          have := hp p h
          omega

/-- The inner `for` loop, where it has room for its bits. -/
theorem readNumM_eq (h : A.Good word₀ rehash) {n : ℕ} (num : ℕ) {a : ℕ}
    (ha : a + furcShift * n ≤ maxBit) :
    ∃ B, readNumM (HashArray.getBit word₀ rehash) n num a A =
        some (readNum (hashBit word₀ rehash) n num a, B) ∧ B.Good word₀ rehash ∧
      (readNum (hashBit word₀ rehash) n num a).2 = a + furcShift * n := by
  induction n generalizing num a A with
  | zero => exact ⟨A, rfl, h, rfl⟩
  | succ n ih =>
      obtain ⟨B, hB, hgood⟩ := HashArray.getBit_of_le h (show a ≤ maxBit by omega)
      have hword : (a + furcShift) % 2 ^ 32 = a + furcShift := by
        refine Nat.mod_eq_of_lt ?_
        unfold maxBit maxTries furcShift at ha
        unfold furcShift
        omega
      rw [readNumM, bind_eq_of_eq_some hB, readNum, hword]
      obtain ⟨C, hC, hgood, hp⟩ := ih hgood (a := a + furcShift)
        ((num <<< 1 ||| (hashBit word₀ rehash a).toNat) % 2 ^ 32)
        (by rw [Nat.mul_succ] at ha; omega)
      refine ⟨C, hC, hgood, hp.trans ?_⟩
      rw [Nat.mul_succ]
      omega

/-- The attempts that are left, each of which may advance by `furcShift * 32`. -/
theorem attemptsM_eq (h : A.Good word₀ rehash) (m : ℕ) {n d a : ℕ} (hd : d ≤ 32)
    (ha : a + n * (furcShift * 32) ≤ maxBit) (hn : n ≤ maxTries) :
    ∃ B, attemptsM (HashArray.getBit word₀ rehash) m n d a A =
        some (attempts (hashBit word₀ rehash) m n d a, B) ∧ B.Good word₀ rehash := by
  induction n generalizing d a A with
  | zero => exact ⟨A, rfl, h⟩
  | succ n ih =>
      have hroom : a + 736 * (n + 1) ≤ 23584 ∧ n < 32 := by
        unfold maxBit maxTries furcShift at ha
        unfold maxTries at hn
        omega
      have hmax {x : ℕ} (hx : x ≤ 23584) : x ≤ maxBit := hx
      obtain ⟨B, hB, hgood, hp⟩ := descendM_eq h hd (hmax (show a ≤ 23584 by omega))
      rw [attemptsM, bind_eq_of_eq_some hB, attempts]
      cases hdesc : descend (hashBit word₀ rehash) d a with
      | none => exact ⟨B, rfl, hgood⟩
      | some p =>
          have hpos := (descend_some hdesc).1
          obtain ⟨hle, hidx⟩ := hp p hdesc
          have hword : (p.2 + furcShift) % 2 ^ 32 = p.2 + furcShift := by
            refine Nat.mod_eq_of_lt ?_
            unfold furcShift
            omega
          obtain ⟨C, hC, hgood, hend⟩ := readNumM_eq hgood (n := p.1 - 1) 1
            (a := p.2 + furcShift) (hmax (by unfold furcShift; omega))
          simp only [hword]
          rw [bind_eq_of_eq_some hC]
          by_cases hlt : (readNum (hashBit word₀ rehash) (p.1 - 1) 1 (p.2 + furcShift)).1 < m
          · rw [if_pos hlt, if_pos hlt]
            exact ⟨C, rfl, hgood⟩
          · rw [if_neg hlt, if_neg hlt, hend]
            exact ih hgood (by omega) (hmax (by unfold furcShift; omega)) (by omega)

end good

/-- `murmur_rehash_64A` is `murmur_hash_64A` of the bytes of a word.  For every key and every 32-bit
size of the pool, `furc_hash` stays in its array and reads what it has written, each call of
`furc_get_bit` returns its bit of the iterates of `murmur_hash_64A`, and the hash is that of the
bits. -/
theorem furcHashArray_eq (mem : ByteMem) (key len m : ℕ) (hm : m < 2 ^ 32) :
    (∀ k, murmurRehash64A k = murmurHash64A (wordBytes k) 0 8 murmurSeed) ∧
    ∃ A, furcHashArray (keyWord mem key len) rehashWord m =
        some (furcHash (hashBit (keyWord mem key len) rehashWord) m, A) ∧
      ∀ c ∈ A.calls, c.2 = (murmurIterate mem key len (c.1 / 64)).toNat.testBit (c.1 % 64) := by
  refine ⟨murmurRehash64A_eq, ?_⟩
  have hdepth : furcDepth m ≤ 32 := by
    by_contra hlt
    have := (furcDepth_spec m).2 32 (by omega)
    omega
  have hgood : HashArray.Good (keyWord mem key len) rehashWord ⟨fun _ => none, -1, []⟩ :=
    ⟨Int.le_refl _, fun n hn => by simp only at hn; omega, fun c hc => by cases hc⟩
  obtain ⟨A, hA, hcalls⟩ : ∃ A, furcHashArray (keyWord mem key len) rehashWord m =
      some (furcHash (hashBit (keyWord mem key len) rehashWord) m, A) ∧
        A.Good (keyWord mem key len) rehashWord := by
    unfold furcHashArray furcHashM furcHash furcShard
    by_cases hone : m ≤ 1
    · rw [if_pos hone, if_pos hone]
      exact ⟨_, rfl, hgood⟩
    · obtain ⟨A, hA, hgood⟩ := attemptsM_eq hgood m hdepth (n := maxTries) (a := furcDepth m)
        (by unfold maxBit; omega) (Nat.le_refl _)
      rw [if_neg hone, if_neg hone]
      refine ⟨A, ?_, hgood⟩
      rw [map_eq_pure_bind, bind_eq_of_eq_some hA]
      rfl
  refine ⟨A, hA, fun c hc => ?_⟩
  rw [hcalls.calls c hc, hashBit, hashWord_eq, Nat.shiftRight_eq_div_pow]

/-- A key of five bytes and three shards. -/
theorem furcHashArray_eq_three :
    ∃ A, furcHashArray (keyWord (fun _ => 97) 8 5) rehashWord 3 =
        some (furcHash (hashBit (keyWord (fun _ => 97) 8 5) rehashWord) 3, A) ∧
      ∀ c ∈ A.calls,
        c.2 = (murmurIterate (fun _ => 97) 8 5 (c.1 / 64)).toNat.testBit (c.1 % 64) :=
  (furcHashArray_eq (fun _ => 97) 8 5 3 (by decide)).2

end XMPGym
