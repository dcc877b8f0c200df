import Mathlib.Logic.Equiv.Basic
import XMPGym.CpuRequests
import XMPGym.Lib.Cycle

/-!
# Pointer chasing

`random_permutation`, `create_random_chain` and `create_random_chain_starting_at`
(`src/payload_gen.cpp`) and `chase_pointers` (`src/pointer_chase.cpp`).  The requests of
`three_phase.cpp` chase pointers in a buffer of their own and in one that the accelerator has
copied.  Pointers are eight bytes in memory.  The first slots of the lines of a buffer, which are 64
bytes each, are linked in the order of a random permutation.
-/

open Function

namespace XMPGym

/-! ## The chain -/

/-- `temp = array[i]; array[i] = array[j]; array[j] = temp` -/
def swapAt (array : ℕ → ℕ) (i j : ℕ) : ℕ → ℕ :=
  let temp := array i
  let array := update array i (array j)
  update array j temp

/-- The loop of `random_permutation`, from `i` down, where `rand k` is what the `k`-th call of
`rand()` returns. -/
def permuteFrom (rand : ℕ → ℕ) : ℕ → ℕ → (ℕ → ℕ) → ℕ → ℕ
  | 0, _, array => array
  | i + 1, k, array => permuteFrom rand i (k + 1) (swapAt array (i + 1) (rand k % (i + 1 + 1)))

/-- `random_permutation` -/
def randomPermutation (rand : ℕ → ℕ) (array : ℕ → ℕ) (size : ℕ) : ℕ → ℕ :=
  permuteFrom rand (size - 1) 0 array

/-- `&memory[index * 8]`, where `memory` is a `void **`. -/
def slot (memory index : ℕ) : ℕ := memory + 8 * (index * 8)

/-- `*p = v`, where `p` is a `void **`. -/
def storePtr (m : ByteMem) (p v : ℕ) : ByteMem := m.storeNat p v 8

/-- `*p`, where `p` is a `void **`. -/
def loadPtr (m : ByteMem) (p : ℕ) : ℕ := m.load p 8

/-- The loop that links each index to the next one, for `i` from 1 to `n`. -/
def linkLoop (indices : ℕ → ℕ) (memory stAddr : ℕ) : ℕ → ByteMem → ByteMem
  | 0, m => m
  | n + 1, m =>
      storePtr (linkLoop indices memory stAddr n m) (slot memory (indices n))
        (slot stAddr (indices (n + 1)))

/-- The pointers in the block at `memory`, which lead through the buffer at `st_addr`. -/
def linkChain (indices : ℕ → ℕ) (memory stAddr len : ℕ) (m : ByteMem) : ByteMem :=
  storePtr (linkLoop indices memory stAddr (len - 1) m) (slot memory (indices (len - 1)))
    (slot stAddr (indices 0))

section chain

variable (rand : ℕ → ℕ) (size : ℕ)

/-- `create_random_chain_starting_at` -/
def createRandomChainStartingAt (stAddr : ℕ) (h : ByteHeap) : ℕ × ByteHeap :=
  let len := size / 64
  let (memory, h) := h.malloc size
  let indices := randomPermutation rand id len
  (memory, { h with mem := linkChain indices memory stAddr len h.mem })

/-- `create_random_chain` -/
def createRandomChain (h : ByteHeap) : ℕ × ByteHeap :=
  let len := size / 64
  let (memory, h) := h.malloc size
  let indices := randomPermutation rand id len
  (memory, { h with mem := linkChain indices memory memory len h.mem })

end chain

/-! ## Chasing -/

/-- The loop of `chase_pointers` with the last read: the places that are read, for `n` rounds from
`p`. -/
def chaseFrom (m : ByteMem) : ℕ → ℕ → List ℕ
  | 0, p => [p]
  | n + 1, p => p :: chaseFrom m n (loadPtr m p)

/-- `chase_pointers`: the places that are read. -/
def chasePointers (m : ByteMem) (memory : ℕ) (count : ℤ) : List ℕ := chaseFrom m count.toNat memory

/-! ## The permutation -/

section permutation

variable {array : ℕ → ℕ} {i j n : ℕ}

/-- The entries are a permutation that leaves those from `n` on where they are. -/
def PermutesBelow (n : ℕ) (array : ℕ → ℕ) : Prop :=
  ∃ σ : Equiv.Perm ℕ, array = σ ∧ ∀ x, n ≤ x → σ x = x

theorem permutesBelow_id (n : ℕ) : PermutesBelow n id := ⟨Equiv.refl ℕ, rfl, fun _ _ => rfl⟩

theorem PermutesBelow.swapAt (h : PermutesBelow n array) (hi : i < n) (hj : j < n) :
    PermutesBelow n (swapAt array i j) := by
  obtain ⟨σ, rfl, hσ⟩ := h
  refine ⟨(Equiv.swap i j).trans σ, funext fun x => ?_, fun x hx => ?_⟩
  · unfold XMPGym.swapAt
    by_cases hxj : x = j
    · rw [hxj, update_self, Equiv.trans_apply, Equiv.swap_apply_right]
    · by_cases hxi : x = i
      · rw [update_of_ne hxj, hxi, update_self, Equiv.trans_apply, Equiv.swap_apply_left]
      · rw [update_of_ne hxj, update_of_ne hxi, Equiv.trans_apply,
          Equiv.swap_apply_of_ne_of_ne hxi hxj]
  · rw [Equiv.trans_apply, Equiv.swap_apply_of_ne_of_ne (by omega) (by omega), hσ x hx]

/-- The shuffle permutes the entries, whatever `rand()` returns. -/
theorem PermutesBelow.permuteFrom (rand : ℕ → ℕ) (k : ℕ) (h : PermutesBelow n array) (hi : i < n) :
    PermutesBelow n (permuteFrom rand i k array) := by
  induction i generalizing k array with
  | zero => exact h
  | succ i ih =>
      have hlt := Nat.mod_lt (rand k) (show 0 < i + 1 + 1 by omega)
      exact ih (k + 1) (h.swapAt hi (by omega)) (by omega)

theorem PermutesBelow.lt (h : PermutesBelow n array) (hi : i < n) : array i < n := by
  obtain ⟨σ, rfl, hσ⟩ := h
  by_contra hle
  have := σ.injective (hσ (σ i) (by omega))
  omega

theorem PermutesBelow.injective (h : PermutesBelow n array) : Injective array := by
  obtain ⟨σ, rfl, -⟩ := h
  exact σ.injective

/-- Each index is somewhere. -/
theorem PermutesBelow.exists_eq (h : PermutesBelow n array) (hj : j < n) :
    ∃ i < n, array i = j := by
  obtain ⟨σ, rfl, hσ⟩ := h
  refine ⟨σ.symm j, ?_, σ.apply_symm_apply j⟩
  by_contra hle
  have := hσ (σ.symm j) (by omega)
  rw [σ.apply_symm_apply] at this
  omega

theorem permutesBelow_randomPermutation (rand : ℕ → ℕ) (hn : 0 < n) :
    PermutesBelow n (randomPermutation rand id n) :=
  (permutesBelow_id n).permuteFrom rand 0 (by omega)

end permutation

/-! ## The links -/

section links

variable {indices : ℕ → ℕ} {memory stAddr len n : ℕ} {m : ByteMem}

/-- Slots of different lines do not overlap. -/
theorem slot_disjoint {i j : ℕ} (h : i ≠ j) :
    slot memory i + 8 ≤ slot memory j ∨ slot memory j + 8 ≤ slot memory i := by
  unfold slot
  omega

theorem loadPtr_storePtr_self {p v : ℕ} (hv : v < 2 ^ 64) : loadPtr (storePtr m p v) p = v :=
  ByteMem.load_storeNat_self hv

theorem loadPtr_storePtr_slot {i j v : ℕ} (h : i ≠ j) :
    loadPtr (storePtr m (slot memory i) v) (slot memory j) = loadPtr m (slot memory j) :=
  ByteMem.load_storeNat_of_disjoint (slot_disjoint h.symm)

/-- The loop leaves the slots of other indices, and links those of the first `n` ones. -/
theorem loadPtr_linkLoop (hinj : Injective indices)
    (hptr : ∀ i ≤ n, slot stAddr (indices i) < 2 ^ 64) :
    (∀ j, (∀ i < n, j ≠ indices i) →
      loadPtr (linkLoop indices memory stAddr n m) (slot memory j) = loadPtr m (slot memory j)) ∧
    ∀ i < n, loadPtr (linkLoop indices memory stAddr n m) (slot memory (indices i)) =
      slot stAddr (indices (i + 1)) := by
  induction n with
  | zero => exact ⟨fun j _ => rfl, by omega⟩
  | succ n ih =>
      obtain ⟨hkept, hlinked⟩ := ih fun i hi => hptr i (by omega)
      unfold linkLoop
      refine ⟨fun j hj => ?_, fun i hi => ?_⟩
      · rw [loadPtr_storePtr_slot (hj n (by omega)).symm]
        exact hkept j fun i hi => hj i (by omega)
      · by_cases hlast : i = n
        · rw [hlast, loadPtr_storePtr_self (hptr (n + 1) (Nat.le_refl _))]
        · rw [loadPtr_storePtr_slot fun heq => hlast (hinj heq).symm]
          exact hlinked i (by omega)

/-- The slots of the indices are linked in a circle. -/
theorem loadPtr_linkChain (hinj : Injective indices)
    (hptr : ∀ i < len, slot stAddr (indices i) < 2 ^ 64) {i : ℕ} (hi : i < len) :
    loadPtr (linkChain indices memory stAddr len m) (slot memory (indices i)) =
      slot stAddr (indices ((i + 1) % len)) := by
  unfold linkChain
  by_cases hlast : i = len - 1
  · rw [hlast, loadPtr_storePtr_self (hptr 0 (by omega)), Nat.sub_add_cancel (by omega),
      Nat.mod_self]
  · rw [loadPtr_storePtr_slot fun heq => hlast (hinj heq).symm, Nat.mod_eq_of_lt (by omega)]
    exact (loadPtr_linkLoop hinj fun j hj => hptr j (by omega)).2 i (by omega)

end links

/-! ## Chains in memory -/

/-- The slots of the lines of a buffer are linked in a circle, in some order. -/
def Chained (m : ByteMem) (base len : ℕ) : Prop :=
  ∃ indices, PermutesBelow len indices ∧
    Cycle.IsCycle (loadPtr m) (fun i => slot base (indices i)) len

/-- Following the pointers from the slot of any line visits those of all lines, each once, is back
after as many steps and not before, and does not leave them. -/
structure SingleCycle (m : ByteMem) (base len : ℕ) : Prop where
  visits : ∀ i < len, ∀ j < len, ∃! k, k < len ∧ (loadPtr m)^[k] (slot base i) = slot base j
  returns : ∀ i < len, minimalPeriod (loadPtr m) (slot base i) = len
  stays : ∀ i < len, ∀ k, ∃ j < len, (loadPtr m)^[k] (slot base i) = slot base j

section chained

variable {m m' : ByteMem} {base len : ℕ}

theorem slot_inj {i j : ℕ} (h : slot base i = slot base j) : i = j := by
  unfold slot at h
  omega

theorem chained_of_load {indices : ℕ → ℕ} (hlen : 0 < len) (hp : PermutesBelow len indices)
    (h : ∀ i < len, loadPtr m (slot base (indices i)) = slot base (indices ((i + 1) % len))) :
    Chained m base len :=
  ⟨indices, hp, hlen, fun _ _ _ _ heq => hp.injective (slot_inj heq), h⟩

theorem Chained.singleCycle (h : Chained m base len) : SingleCycle m base len := by
  obtain ⟨indices, hp, hc⟩ := h
  refine ⟨fun i hi j hj => ?_, fun i hi => ?_, fun i hi k => ?_⟩
  · obtain ⟨a, ha, rfl⟩ := hp.exists_eq hi
    obtain ⟨b, hb, rfl⟩ := hp.exists_eq hj
    exact hc.existsUnique ha hb
  · obtain ⟨a, ha, rfl⟩ := hp.exists_eq hi
    exact hc.minimalPeriod_eq ha
  · obtain ⟨a, ha, rfl⟩ := hp.exists_eq hi
    have hlt := Nat.mod_lt (a + k) hc.pos
    exact ⟨_, hp.lt hlt, hc.iterate ha k⟩

/-- What is read: the iterates. -/
theorem chaseFrom_eq (n p : ℕ) :
    chaseFrom m n p = (List.range (n + 1)).map fun k => (loadPtr m)^[k] p := by
  induction n generalizing p with
  | zero => rfl
  | succ n ih =>
      rw [chaseFrom, ih, List.range_succ_eq_map (n := n + 1), List.map_cons, List.map_map]
      rfl

/-- `chase_pointers` reads slots of the buffer, of as many different lines as it makes reads, or of
all of them. -/
theorem Chained.chasePointers (h : Chained m base len) {count : ℤ} (hcount : 0 ≤ count) :
    (∀ p ∈ chasePointers m base count, base ≤ p ∧ p + 8 ≤ base + 64 * len) ∧
      (((chasePointers m base count).map fun p => (p - base) / 64).toFinset.card : ℤ) =
        min (count + 1) len := by
  have hstays := h.singleCycle.stays
  obtain ⟨indices, hp, hc⟩ := h
  obtain ⟨a, ha, hzero⟩ := hp.exists_eq hc.pos
  have hbase : slot base (indices a) = base := by rw [hzero, slot, Nat.zero_mul, Nat.mul_zero]; rfl
  have hread : XMPGym.chasePointers m base count =
      (List.range (count.toNat + 1)).map fun k => (loadPtr m)^[k] (slot base (indices a)) := by
    rw [hbase]
    exact chaseFrom_eq _ _
  have hslot (k : ℕ) := hstays _ (hp.lt ha) k
  refine ⟨fun p hmem => ?_, ?_⟩
  · rw [hread] at hmem
    obtain ⟨k, -, rfl⟩ := List.mem_map.1 hmem
    obtain ⟨j, hj, heq⟩ := hslot k
    rw [heq]
    unfold slot
    omega
  · have hlines : ((XMPGym.chasePointers m base count).map fun p => (p - base) / 64).toFinset =
        ((Finset.range (count.toNat + 1)).image
          fun k => (loadPtr m)^[k] (slot base (indices a))).image fun p => (p - base) / 64 := by
      ext line
      simp only [hread, List.mem_toFinset, List.mem_map, List.mem_range, Finset.mem_image,
        Finset.mem_range]
    rw [hlines, Finset.card_image_of_injOn, hc.card_iterate ha]
    · omega
    · -- a slot tells its line
      rintro p hmem q hmem' heq
      obtain ⟨k, -, rfl⟩ := Finset.mem_image.1 hmem
      obtain ⟨l, -, rfl⟩ := Finset.mem_image.1 hmem'
      obtain ⟨i, -, hi⟩ := hslot k
      obtain ⟨j, -, hj⟩ := hslot l
      simp only [hi, hj] at heq ⊢
      unfold slot at heq ⊢
      omega

end chained

theorem slot_lt {base size i : ℕ} (hroom : base + size ≤ 2 ^ 64) (hi : i < size / 64) :
    slot base i < 2 ^ 64 := by
  unfold slot
  omega

section create

variable (rand : ℕ → ℕ) {size : ℕ} (hsize : 64 ≤ size) (h : ByteHeap)
include hsize

theorem chained_createRandomChain (hroom : h.next + size ≤ 2 ^ 64) :
    Chained (createRandomChain rand size h).2.mem (createRandomChain rand size h).1
      (size / 64) := by
  have hp := permutesBelow_randomPermutation rand (n := size / 64) (by omega)
  exact chained_of_load (by omega) hp fun i hi =>
    loadPtr_linkChain hp.injective (fun j hj => slot_lt hroom (hp.lt hj)) hi

/-- The chain is one where it is copied to. -/
theorem chained_copy {stAddr memory : ℕ} {m : ByteMem} {indices : ℕ → ℕ}
    (hp : PermutesBelow (size / 64) indices)
    (hm : ∀ i < size / 64, loadPtr m (slot memory (indices i)) =
      slot stAddr (indices ((i + 1) % (size / 64)))) :
    Chained (m.copy stAddr memory size) stAddr (size / 64) := by
  refine chained_of_load (by omega) hp fun i hi => ?_
  have hlt := hp.lt hi
  have hcopy : loadPtr (m.copy stAddr memory size) (slot stAddr (indices i)) =
      loadPtr m (memory + (slot stAddr (indices i) - stAddr)) :=
    ByteMem.load_copy (Nat.le_add_right _ _) (by unfold slot; omega)
  rw [hcopy, show memory + (slot stAddr (indices i) - stAddr) = slot memory (indices i) by
    unfold slot; omega]
  exact hm i hi

theorem chained_createRandomChainStartingAt (stAddr : ℕ) (hst : stAddr + size ≤ 2 ^ 64) :
    Chained ((createRandomChainStartingAt rand size stAddr h).2.mem.copy stAddr
      (createRandomChainStartingAt rand size stAddr h).1 size) stAddr (size / 64) := by
  have hp := permutesBelow_randomPermutation rand (n := size / 64) (by omega)
  exact chained_copy hsize hp fun i hi =>
    loadPtr_linkChain hp.injective (fun j hj => slot_lt hst (hp.lt hj)) hi

end create

/-- Whatever `rand()` returns, the chain that is made in a buffer is a single cycle there, and the
one that is made for another buffer is a single cycle after it has been copied.  Chasing pointers
stays in the buffer, and reads as many of its lines as it makes reads, as far as there are. -/
theorem createRandomChain_singleCycle (rand : ℕ → ℕ) (size : ℕ) (hsize : 64 ≤ size) (h : ByteHeap)
    (stAddr : ℕ) (hroom : h.next + size ≤ 2 ^ 64) (hst : stAddr + size ≤ 2 ^ 64) :
    let chain := createRandomChain rand size h
    let other := createRandomChainStartingAt rand size stAddr h
    let copied := other.2.mem.copy stAddr other.1 size
    ∀ x ∈ [(chain.2.mem, chain.1), (copied, stAddr)],
      SingleCycle x.1 x.2 (size / 64) ∧
      ∀ count : ℤ, 0 ≤ count →
        (∀ p ∈ chasePointers x.1 x.2 count, x.2 ≤ p ∧ p + 8 ≤ x.2 + size) ∧
        (((chasePointers x.1 x.2 count).map fun p => (p - x.2) / 64).toFinset.card : ℤ) =
          min (count + 1) (size / 64 : ℕ) := by
  intro chain other copied
  have hchained : ∀ x ∈ [(chain.2.mem, chain.1), (copied, stAddr)],
      Chained x.1 x.2 (size / 64) := by
    simp only [List.forall_mem_cons]
    exact ⟨chained_createRandomChain rand hsize h hroom,
      chained_createRandomChainStartingAt rand hsize h stAddr hst, nofun⟩
  intro x hx
  refine ⟨(hchained x hx).singleCycle, fun count hcount => ?_⟩
  obtain ⟨hin, hlines⟩ := (hchained x hx).chasePointers hcount
  refine ⟨fun p hp => ?_, hlines⟩
  have := hin p hp
  omega

/-- A buffer of three lines, with ones from `rand()`. -/
theorem createRandomChain_singleCycle_three :
    let chain := createRandomChain (fun _ => 1) 200 ⟨4096, fun _ => 0⟩
    SingleCycle chain.2.mem chain.1 3 :=
  (createRandomChain_singleCycle (fun _ => 1) 200 (by decide) ⟨4096, fun _ => 0⟩ 8192 (by decide)
    (by decide) _ List.mem_cons_self).1

end XMPGym
