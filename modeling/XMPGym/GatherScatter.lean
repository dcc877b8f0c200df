import Mathlib.Data.List.Sort
import Mathlib.Data.Nat.Notation
import XMPGym.EmulAx
import XMPGym.Lib.RoundBits

/-!
# Gather and scatter

`indirect_array_gen` and `validate_scatter_array` (`src/gather_scatter.cpp`), with the loops that go
through the indices: `gather_access` (`three_phase_composable.cpp`) and `cpu_memcpy_and_compute`
(`src/memfill_gather.cpp`).  The indices are drawn below the number of floats in the buffer, and go
through a `float` on their way to the array.  The validator goes through entries and sorted indices
side by side.
-/

namespace XMPGym

/-! ## Floats -/

/-- A `float`, by its bits. -/
abbrev FloatBits := BitVec 32

/-- `1.0` -/
def floatOne : FloatBits := 0x3f800000#32

/-- `x == 1.0` -/
def isOne (x : FloatBits) : Bool := x = floatOne

/-- `x == 0.0`, which holds of both zeros. -/
def isZero (x : FloatBits) : Bool := x = 0x00000000#32 ∨ x = 0x80000000#32

/-- `(float)n`, for an `int` that is not negative. -/
def floatOfInt (n : ℕ) : ℕ := RoundBits.roundBits 24 n

/-- `input_size / sizeof(float)` -/
def numFeatureEnt (inputSize : ℕ) : ℕ := inputSize / 4

/-! ## Indices -/

section

variable (inputSize : ℕ) (rand : ℕ → ℕ)

/-- `idx`, in round `i` of the loop of `indirect_array_gen`. -/
def drawnIndex (i : ℕ) : ℕ :=
  let maxVal := numFeatureEnt inputSize - 1
  let minVal := 0
  rand i % (maxVal - minVal + 1) + minVal

/-- `indirect_array_gen` -/
def indirectArrayGen (numAccesses : ℕ) : List ℕ :=
  (List.range numAccesses).map fun i => floatOfInt (drawnIndex inputSize rand i)

end

/-- `outp[i] = input[glob_indir_arr[i]]`, for all `i`, on an input of `ents` floats; `none` when it
is left. -/
def gatherAccess (ents : ℕ) (indirArr : List ℕ) (input : ℕ → FloatBits) :
    Option (List FloatBits) :=
  indirArr.mapM fun idx => if idx < ents then some (input idx) else none

/-- `scatter_array[indirect_array[i]] = 1.0`, for all `i`, on an array of `ents` floats; `none` when
it is left. -/
def scatterOnes (ents : ℕ) : List ℕ → (ℕ → FloatBits) → Option (ℕ → FloatBits)
  | [], a => some a
  | idx :: rest, a =>
      if idx < ents then scatterOnes ents rest (Function.update a idx floatOne) else none

/-! ## The validator -/

/-- What comes of a validation. -/
inductive Validation where
  | ok
  /-- `Error in feature buf sidx: %d idx: %d ent: %f next_expected_one_hot %d` -/
  | error (sidx idx : ℕ) (ent : FloatBits) (next : ℕ)
  /-- a read of `indirect_array` past its end -/
  | outOfBounds
  deriving DecidableEq, Repr

/-- `while (indirect_array[sorted_idx] == i) sorted_idx++`, on the array from `sorted_idx` on;
`none` when its end is read past. -/
def skipIndex (i : ℕ) : List ℕ → Option (List ℕ)
  | [] => none
  | x :: xs => if x = i then skipIndex i xs else some (x :: xs)

/-- The loop of `validate_scatter_array`, for `n` entries from `i` on.  `rest` is the sorted array
from `sorted_idx` on. -/
def validateFrom (numAccesses : ℕ) (scatter : ℕ → FloatBits) : ℕ → ℕ → List ℕ → Validation
  | 0, _, _ => .ok
  | _ + 1, _, [] => .outOfBounds
  | n + 1, i, x :: xs =>
      if i = x then
        if isOne (scatter i) then
          match skipIndex i (x :: xs) with
          | some rest => validateFrom numAccesses scatter n (i + 1) rest
          | none => .outOfBounds
        else .error (numAccesses - (x :: xs).length) i (scatter i) x
      else if isZero (scatter i) then validateFrom numAccesses scatter n (i + 1) (x :: xs)
      else .error (numAccesses - (x :: xs).length) i (scatter i) x

/-- `validate_scatter_array`, and `validate_feature_vec` of `scan_and_gather.cpp`. -/
def validateScatterArray (inputSize : ℕ) (scatter : ℕ → FloatBits) (indirect : List ℕ) :
    Validation :=
  validateFrom indirect.length scatter (numFeatureEnt inputSize) 0 (indirect.insertionSort (· ≤ ·))

/-- `cpu_memcpy_and_compute`: the array afterwards, and what its validation gives, if there is
one. -/
def cpuMemcpyAndCompute (gLogLevel : ℤ) (inputSize : ℕ) (indirect : List ℕ)
    (scatter : ℕ → FloatBits) : Option ((ℕ → FloatBits) × Option Validation) :=
  let zeros := fun i => if i < numFeatureEnt inputSize then 0x00000000#32 else scatter i
  (scatterOnes (numFeatureEnt inputSize) indirect zeros).map fun a =>
    (a, if logDebug ≤ gLogLevel then some (validateScatterArray inputSize a indirect) else none)

/-! ## Indices in range -/

section indices

variable {inputSize ents : ℕ} {indirArr : List ℕ}

theorem gatherAccess_isSome_iff (input : ℕ → FloatBits) :
    (gatherAccess ents indirArr input).isSome ↔ ∀ idx ∈ indirArr, idx < ents := by
  unfold gatherAccess
  induction indirArr with
  | nil => simp
  | cons x xs ih =>
      rw [List.mapM_cons, List.forall_mem_cons, ← ih]
      by_cases hx : x < ents
      · cases xs.mapM fun idx => if idx < ents then some (input idx) else none <;> simp [hx]
      · simp [hx]

theorem scatterOnes_isSome_iff (a : ℕ → FloatBits) :
    (scatterOnes ents indirArr a).isSome ↔ ∀ idx ∈ indirArr, idx < ents := by
  induction indirArr generalizing a with
  | nil => simp [scatterOnes]
  | cons x xs ih =>
      rw [List.forall_mem_cons, scatterOnes]
      by_cases hx : x < ents
      · rw [if_pos hx, ih]
        simp [hx]
      · simp [hx]

theorem drawnIndex_eq (h : 4 ≤ inputSize) (rand : ℕ → ℕ) (i : ℕ) :
    drawnIndex inputSize rand i = rand i % numFeatureEnt inputSize := by
  have hpos : 1 ≤ numFeatureEnt inputSize := by
    unfold numFeatureEnt
    omega
  simp only [drawnIndex, Nat.sub_zero, Nat.sub_add_cancel hpos, Nat.add_zero]

end indices

/-- All indices that a run draws are below the number of entries if and only if none of those that
are rounded up on their way through a `float` comes to it; and then gathering and scattering stay in
the buffer.  All runs for a size are so if and only if the largest index is not rounded up. -/
theorem indirectArrayGen_inRange_iff (inputSize : ℕ) (h : 4 ≤ inputSize)
    (hint : inputSize < 2 ^ 31) :
    (∀ (rand : ℕ → ℕ) (numAccesses : ℕ),
      ((∀ idx ∈ indirectArrayGen inputSize rand numAccesses, idx < numFeatureEnt inputSize) ↔
        ∀ i < numAccesses, RoundBits.RoundsUp 24 (rand i % numFeatureEnt inputSize) →
          RoundBits.next 24 (rand i % numFeatureEnt inputSize) < numFeatureEnt inputSize) ∧
      ((∀ idx ∈ indirectArrayGen inputSize rand numAccesses, idx < numFeatureEnt inputSize) →
        ∀ a, (gatherAccess (numFeatureEnt inputSize)
            (indirectArrayGen inputSize rand numAccesses) a).isSome ∧
          (scatterOnes (numFeatureEnt inputSize)
            (indirectArrayGen inputSize rand numAccesses) a).isSome)) ∧
    ((∀ rand : ℕ → ℕ, (∀ i, rand i < 2 ^ 31) → ∀ numAccesses,
        ∀ idx ∈ indirectArrayGen inputSize rand numAccesses, idx < numFeatureEnt inputSize) ↔
      ¬ RoundBits.RoundsUp 24 (numFeatureEnt inputSize - 1)) := by
  have hpos : 1 ≤ numFeatureEnt inputSize := by
    unfold numFeatureEnt
    omega
  have hgen (rand : ℕ → ℕ) (numAccesses : ℕ) :
      (∀ idx ∈ indirectArrayGen inputSize rand numAccesses, idx < numFeatureEnt inputSize) ↔
        ∀ i < numAccesses,
          floatOfInt (rand i % numFeatureEnt inputSize) < numFeatureEnt inputSize := by
    simp [indirectArrayGen, drawnIndex_eq h]
  refine ⟨fun rand numAccesses => ⟨?_, fun hin a => ?_⟩, ?_⟩
  · rw [hgen]
    exact forall₂_congr fun i _ => RoundBits.roundBits_lt_iff (Nat.mod_lt _ hpos)
  · exact ⟨(gatherAccess_isSome_iff a).2 hin, (scatterOnes_isSome_iff a).2 hin⟩
  · rw [← RoundBits.forall_lt_roundBits_iff (by decide) hpos]
    constructor
    · intro hall x hx
      -- `rand` may return `x`
      have hword : x < 2 ^ 31 := by
        unfold numFeatureEnt at hx
        omega
      have := (hgen (fun _ => x) 1).1 (hall _ (fun _ => hword) 1) 0 Nat.one_pos
      rwa [Nat.mod_eq_of_lt hx] at this
    · intro hall rand _ numAccesses
      rw [hgen]
      exact fun i _ => hall _ (Nat.mod_lt _ hpos)

/-- Sixteen kilobytes, the size that the requests start with. -/
theorem indirectArrayGen_inRange_default :
    numFeatureEnt 16384 = 4096 ∧
      ∀ idx ∈ indirectArrayGen 16384 (fun i => 1000003 * i % 2 ^ 31) 10, idx < 4096 :=
  ⟨by decide, (indirectArrayGen_inRange_iff 16384 (by decide) (by decide)).2.2 (by decide +kernel)
    (fun i => 1000003 * i % 2 ^ 31) (fun _ => Nat.mod_lt _ (by decide)) 10⟩

/-- With 64 megabytes and a little more, the last index is rounded up to the number of entries. -/
theorem indirectArrayGen_not_inRange :
    indirectArrayGen 67108880 (fun _ => 16777219) 1 = [16777220] ∧
      numFeatureEnt 67108880 = 16777220 ∧
      ¬ ∀ idx ∈ indirectArrayGen 67108880 (fun _ => 16777219) 1, idx < numFeatureEnt 67108880 := by
  decide +kernel

/-! ## What the validator finds -/

/-- Entry `j` is as it should be, one if it is among the indices and zero if not. -/
def Right (scatter : ℕ → FloatBits) (indirect : List ℕ) (j : ℕ) : Prop :=
  if j ∈ indirect then isOne (scatter j) else isZero (scatter j)

section validator

variable {scatter : ℕ → FloatBits} {i n : ℕ} {l : List ℕ}

/-- The cursor goes past the entries that are `i`, and past the end when there are no others. -/
theorem skipIndex_spec (hs : l.Pairwise (· ≤ ·)) (hlow : ∀ x ∈ l, i ≤ x) :
    (skipIndex i l = none ∧ ∀ x ∈ l, x = i) ∨
      ∃ rest, skipIndex i l = some rest ∧ rest ≠ [] ∧ rest.Pairwise (· ≤ ·) ∧
        (∀ x ∈ rest, i < x) ∧ ∀ j, i < j → (j ∈ rest ↔ j ∈ l) := by
  induction l with
  | nil => exact .inl ⟨rfl, fun x hx => absurd hx List.not_mem_nil⟩
  | cons x xs ih =>
      obtain ⟨hx, hxs⟩ := List.pairwise_cons.1 hs
      obtain ⟨hle, hlow⟩ := List.forall_mem_cons.1 hlow
      unfold skipIndex
      by_cases heq : x = i
      · rw [if_pos heq]
        rcases ih hxs hlow with ⟨hnone, hall⟩ | ⟨rest, hsome, hne, hsort, hgt, hmem⟩
        · exact .inl ⟨hnone, List.forall_mem_cons.2 ⟨heq, hall⟩⟩
        · refine .inr ⟨rest, hsome, hne, hsort, hgt, fun j hj => ?_⟩
          rw [hmem j hj, List.mem_cons]
          exact ⟨.inr, fun h => h.resolve_left (by omega)⟩
      · rw [if_neg heq]
        refine .inr ⟨x :: xs, rfl, List.cons_ne_nil _ _, hs, ?_, fun _ _ => Iff.rfl⟩
        exact List.forall_mem_cons.2 ⟨by omega, fun y hy => by have := hx y hy; omega⟩

theorem right_congr {l' : List ℕ} {j : ℕ} (h : j ∈ l' ↔ j ∈ l) :
    Right scatter l' j ↔ Right scatter l j := by
  unfold Right
  rw [if_congr h rfl rfl]

/-- While indices are left, the loop does not come to its end: it reports the first entry that is
wrong, or, when everything is right up to the largest index, reads past that. -/
theorem validateFrom_spec (scatter : ℕ → FloatBits) (numAccesses : ℕ) (hne : l ≠ [])
    (hs : l.Pairwise (· ≤ ·)) (hin : ∀ x ∈ l, i ≤ x ∧ x < i + n) :
    validateFrom numAccesses scatter n i l ≠ .ok ∧
      (validateFrom numAccesses scatter n i l = .outOfBounds ↔
        ∀ j, i ≤ j → (∃ x ∈ l, j ≤ x) → Right scatter l j) := by
  induction n generalizing i l with
  | zero =>
      obtain ⟨x, hx⟩ := List.exists_mem_of_ne_nil l hne
      have := hin x hx
      omega
  | succ n ih =>
      obtain ⟨x, xs, rfl⟩ := List.exists_cons_of_ne_nil hne
      have hhead := hin x List.mem_cons_self
      -- the entries above `i`, after the test of `i` itself
      have step {rest : List ℕ} (hi : Right scatter (x :: xs) i)
          (hmem : ∀ j, i < j → (j ∈ rest ↔ j ∈ x :: xs)) :
          (∀ j, i + 1 ≤ j → (∃ y ∈ rest, j ≤ y) → Right scatter rest j) ↔
            ∀ j, i ≤ j → (∃ y ∈ x :: xs, j ≤ y) → Right scatter (x :: xs) j := by
        constructor
        · intro h j hj hle
          rcases Nat.eq_or_lt_of_le hj with rfl | hlt
          · exact hi
          · obtain ⟨y, hy, hle⟩ := hle
            refine (right_congr (hmem j hlt)).1 (h j hlt ⟨y, ?_, hle⟩)
            exact (hmem y (by omega)).2 hy
        · rintro h j hj ⟨y, hy, hle⟩
          refine (right_congr (hmem j hj)).2 (h j (by omega) ⟨y, ?_, hle⟩)
          exact (hmem y (by omega)).1 hy
      have wrong (hi : ¬ Right scatter (x :: xs) i) :
          ¬ ∀ j, i ≤ j → (∃ y ∈ x :: xs, j ≤ y) → Right scatter (x :: xs) j :=
        fun h => hi (h i (Nat.le_refl i) ⟨x, List.mem_cons_self, hhead.1⟩)
      unfold validateFrom
      by_cases heq : i = x
      · have hright : Right scatter (x :: xs) i ↔ isOne (scatter i) = true := by
          rw [Right, if_pos (heq ▸ List.mem_cons_self)]
        rw [if_pos heq]
        by_cases hone : isOne (scatter i) = true
        · rw [if_pos hone]
          rcases skipIndex_spec hs fun y hy => (hin y hy).1 with
            ⟨hnone, hall⟩ | ⟨rest, hsome, hne', hsort, hgt, hmem⟩
          · simp only [hnone, ne_eq, reduceCtorEq, not_false_eq_true, true_and, true_iff]
            rintro j hj ⟨y, hy, hle⟩
            rw [hall y hy] at hle
            rw [show j = i by omega]
            exact hright.2 hone
          · simp only [hsome]
            rw [← step (hright.2 hone) hmem]
            refine ih hne' hsort fun y hy => ⟨hgt y hy, ?_⟩
            have := (hin y ((hmem y (hgt y hy)).1 hy)).2
            omega
        · rw [if_neg hone]
          simpa using wrong fun h => hone (hright.1 h)
      · have hnot : i ∉ x :: xs := by
          intro hi
          rcases List.mem_cons.1 hi with hi | hi
          · exact heq hi
          · have := (List.pairwise_cons.1 hs).1 i hi
            omega
        have hright : Right scatter (x :: xs) i ↔ isZero (scatter i) = true := by
          rw [Right, if_neg hnot]
        rw [if_neg heq]
        by_cases hzero : isZero (scatter i) = true
        · rw [if_pos hzero, ← step (hright.2 hzero) fun _ _ => Iff.rfl]
          refine ih hne hs fun y hy => ?_
          have := hin y hy
          have : i ≠ y := fun h => hnot (h ▸ hy)
          omega
        · rw [if_neg hzero]
          simpa using wrong fun h => hzero (hright.1 h)

/-- The scatter loop writes ones at the indices and nothing else. -/
theorem scatterOnes_eq {ents : ℕ} {a b : ℕ → FloatBits} (h : scatterOnes ents l a = some b)
    (j : ℕ) : b j = if j ∈ l then floatOne else a j := by
  induction l generalizing a with
  | nil =>
      obtain rfl := Option.some.inj h
      rfl
  | cons x xs ih =>
      unfold scatterOnes at h
      split_ifs at h with hx
      rw [ih h]
      by_cases hj : j = x
      · simp [hj]
      · rw [Function.update_of_ne hj]
        exact if_congr (by rw [List.mem_cons, or_iff_right hj]) rfl rfl

/-- A buffer that is filled with zeros and scattered into is right everywhere. -/
theorem right_of_cpuMemcpyAndCompute {gLogLevel : ℤ} {inputSize : ℕ} {a : ℕ → FloatBits}
    {v : Option Validation} (h : cpuMemcpyAndCompute gLogLevel inputSize l scatter = some (a, v))
    {j : ℕ} (hj : j < numFeatureEnt inputSize) : Right a l j := by
  obtain ⟨b, hb, heq⟩ := Option.map_eq_some_iff.1 h
  obtain rfl := (Prod.mk.inj heq).1
  unfold Right
  rw [scatterOnes_eq hb, if_pos hj]
  by_cases hmem : j ∈ l
  · rw [if_pos hmem, if_pos hmem]
    rfl
  · rw [if_neg hmem, if_neg hmem]
    rfl

end validator

/-- The validator stays in bounds and accepts exactly the arrays that are right if and only if there
is an error up to the largest index, which it then reports.  Every array that
`cpu_memcpy_and_compute` makes is right, and takes it out of bounds. -/
theorem validateScatterArray_exact_iff (inputSize : ℕ) (indirect : List ℕ)
    (scatter : ℕ → FloatBits) (hne : indirect ≠ [])
    (hin : ∀ idx ∈ indirect, idx < numFeatureEnt inputSize) :
    (validateScatterArray inputSize scatter indirect ≠ .outOfBounds ∧
        (validateScatterArray inputSize scatter indirect = .ok ↔
          ∀ j < numFeatureEnt inputSize, Right scatter indirect j) ↔
      ∃ j, (∃ idx ∈ indirect, j ≤ idx) ∧ ¬ Right scatter indirect j) ∧
    ∀ gLogLevel a v, cpuMemcpyAndCompute gLogLevel inputSize indirect scatter = some (a, v) →
      (∀ j < numFeatureEnt inputSize, Right a indirect j) ∧
        validateScatterArray inputSize a indirect = .outOfBounds := by
  have hspec (a : ℕ → FloatBits) : validateScatterArray inputSize a indirect ≠ .ok ∧
      (validateScatterArray inputSize a indirect = .outOfBounds ↔
        ∀ j, (∃ idx ∈ indirect, j ≤ idx) → Right a indirect j) := by
    have h := validateFrom_spec (i := 0) (n := numFeatureEnt inputSize)
      (l := indirect.insertionSort (· ≤ ·)) a indirect.length ?_
      (List.pairwise_insertionSort _ _) ?_
    · simpa [validateScatterArray, List.mem_insertionSort,
        right_congr (List.mem_insertionSort (· ≤ ·))] using h
    · exact fun hnil => hne (List.perm_nil.1 (hnil ▸ (List.perm_insertionSort _ _).symm))
    · intro x hx
      have := hin x ((List.mem_insertionSort _).1 hx)
      omega
  refine ⟨?_, fun gLogLevel a v h => ?_⟩
  · have hwrong : (∃ j, (∃ idx ∈ indirect, j ≤ idx) ∧ ¬ Right scatter indirect j) ↔
        validateScatterArray inputSize scatter indirect ≠ .outOfBounds := by
      rw [ne_eq, (hspec scatter).2]
      push Not
      rfl
    rw [hwrong]
    refine ⟨fun h => h.1, fun h => ⟨h, fun hok => absurd hok (hspec scatter).1, fun hright => ?_⟩⟩
    refine absurd ((hspec scatter).2.2 ?_) h
    rintro j ⟨idx, hidx, hle⟩
    exact hright j (Nat.lt_of_le_of_lt hle (hin idx hidx))
  · have hright {j : ℕ} (hj : j < numFeatureEnt inputSize) := right_of_cpuMemcpyAndCompute h hj
    refine ⟨fun j hj => hright hj, (hspec a).2.2 ?_⟩
    rintro j ⟨idx, hidx, hle⟩
    exact hright (Nat.lt_of_le_of_lt hle (hin idx hidx))

/-- Of four entries, with a two where a one should be. -/
theorem validateScatterArray_exact_wrong :
    let scatter : ℕ → FloatBits := fun i => if i = 1 then 0x40000000#32 else 0x00000000#32
    validateScatterArray 16 scatter [1] ≠ .outOfBounds ∧
      (validateScatterArray 16 scatter [1] = .ok ↔ ∀ j < 4, Right scatter [1] j) :=
  (validateScatterArray_exact_iff 16 [1]
    (fun i => if i = 1 then 0x40000000#32 else 0x00000000#32) (by decide) (by decide)).1.2
    ⟨1, ⟨1, by decide, Nat.le_refl 1⟩, by unfold Right; decide⟩

/-- The array that `cpu_memcpy_and_compute` makes for one index is right, and the validator reads
past the index. -/
theorem validateScatterArray_reads_past :
    let a : ℕ → FloatBits := Function.update (fun _ => 0x00000000#32) 1 floatOne
    (∀ j < 4, Right a [1] j) ∧ validateScatterArray 16 a [1] = .outOfBounds := by
  unfold Right
  decide

end XMPGym
