import XMPGym.RequestExecutors

/-!
# Averages of time stamps

The macros of `inc/timer_utils.h`, with which the breakdown executors and `time_code_region` reduce
two arrays of time stamps to one number.  The sum leaves out the first difference, while the divisor
counts it.
-/

namespace XMPGym

/-- `gen_diff_array(dst_array, array1, array2, size)`: the array `dst_array` afterwards. -/
def genDiffArray (dstArray array1 array2 : ℕ → ℕ) : ℕ → ℕ → ℕ
  | 0 => dstArray
  | i + 1 =>
      Function.update (genDiffArray dstArray array1 array2 i) i (stampDiff (array2 i) (array1 i))

/-- `for (int i=1; i<iter; i++){ accum+=array[i]; }`, from 0, with `rounds` rounds. -/
def accumFromOne (array : ℕ → ℕ) : ℕ → ℕ
  | 0 => 0
  | rounds + 1 => (accumFromOne array rounds + array (rounds + 1)) % 2 ^ 64

/-- `do_sum_array(accum, array, iter)` -/
def doSumArray (array : ℕ → ℕ) (iter : ℕ) : ℕ := accumFromOne array (iter - 1) / iter

/-- `avg_samples_from_arrays(diff, avg, after, before, num_samples)`: the value of `avg`
afterwards.  The quotient that `do_avg` computes is dropped. -/
def avgSamplesFromArrays (diff after before : ℕ → ℕ) (numSamples : ℕ) : ℕ :=
  doSumArray (genDiffArray diff before after numSamples) numSamples

/-- What a breakdown form stores behind its loop: for each two neighbouring arrays of time stamps
the average of their differences.  The arrays are those that `off_args[0]` points to; without a
request there is no such entry, and `accum /= iter` divides by zero. -/
def requestBreakdown (totalRequests : ℕ) (diff : ℕ → ℕ) (ts : List (ℕ → ℕ)) : Option (List ℕ) :=
  if totalRequests = 0 then none
  else
    some (List.zipWith
      (fun before after => avgSamplesFromArrays diff after before totalRequests) ts ts.tail)

theorem requestBreakdown_ne_none {n : ℕ} (hn : 1 ≤ n) (diff : ℕ → ℕ) (ts : List (ℕ → ℕ)) :
    requestBreakdown n diff ts ≠ none := by
  simp [requestBreakdown, Nat.ne_of_gt hn]

/-! ## What they compute -/

section

variable {dstArray array1 array2 array : ℕ → ℕ} {n : ℕ}

theorem genDiffArray_of_lt {i : ℕ} (hi : i < n) :
    genDiffArray dstArray array1 array2 n i = stampDiff (array2 i) (array1 i) := by
  induction n with
  | zero => omega
  | succ n ih =>
      unfold genDiffArray
      by_cases hlast : i = n
      · rw [hlast, Function.update_self]
      · rw [Function.update_of_ne hlast]
        exact ih (by omega)

/-- Without wrap-around a difference of stamps is their difference. -/
theorem stampDiff_of_le {later earlier : ℕ} (hle : earlier ≤ later) (hword : later < 2 ^ 64) :
    stampDiff later earlier = later - earlier := by
  unfold stampDiff
  omega

/-- The loop adds up the entries from index 1 on. -/
theorem accumFromOne_eq (rounds : ℕ) :
    accumFromOne array rounds = ((List.range' 1 rounds).map array).sum % 2 ^ 64 := by
  induction rounds with
  | zero => rfl
  | succ rounds ih =>
      unfold accumFromOne
      rw [List.range'_1_concat, List.map_append, List.sum_append, ih, Nat.add_comm 1]
      show _ = (_ + (array (rounds + 1) + 0)) % 2 ^ 64
      omega

/-- What `avg` is: the differences from index 1 on, divided by the number of all of them. -/
theorem avgSamplesFromArrays_eq {diff after before : ℕ → ℕ}
    (hle : ∀ i < n, before i ≤ after i) (hword : ∀ i < n, after i < 2 ^ 64) :
    avgSamplesFromArrays diff after before n =
      ((List.range' 1 (n - 1)).map fun i => after i - before i).sum % 2 ^ 64 / n := by
  unfold avgSamplesFromArrays doSumArray
  rw [accumFromOne_eq]
  congr 3
  refine List.map_congr_left fun i hi => ?_
  rw [List.mem_range'_1] at hi
  have hlt : i < n := by omega
  rw [genDiffArray_of_lt hlt, stampDiff_of_le (hle i hlt) (hword i hlt)]

end

/-- The average is the mean of the differences if and only if the first one, which is left out of
the sum, and the remainder of the others do not make up another `n`. -/
theorem avgSamplesFromArrays_eq_mean_iff (diff after before : ℕ → ℕ) (n : ℕ) (hn : 1 ≤ n)
    (hle : ∀ i < n, before i ≤ after i) (hword : ∀ i < n, after i < 2 ^ 64)
    (hsum : ((List.range n).map fun i => after i - before i).sum < 2 ^ 64) :
    avgSamplesFromArrays diff after before n =
        ((List.range n).map fun i => after i - before i).sum / n ↔
      (after 0 - before 0) + ((List.range' 1 (n - 1)).map fun i => after i - before i).sum % n <
        n := by
  have hall : ((List.range n).map fun i => after i - before i).sum =
      (after 0 - before 0) + ((List.range' 1 (n - 1)).map fun i => after i - before i).sum := by
    obtain ⟨k, rfl⟩ := Nat.exists_eq_add_of_le' hn
    rw [List.range_eq_range', Nat.add_sub_cancel, List.range'_succ, List.map_cons, List.sum_cons]
  rw [avgSamplesFromArrays_eq hle hword]
  rw [hall] at hsum ⊢
  generalize after 0 - before 0 = first at hsum ⊢
  generalize ((List.range' 1 (n - 1)).map fun i => after i - before i).sum = rest at hsum ⊢
  have hrest : rest % 2 ^ 64 = rest := Nat.mod_eq_of_lt (by omega)
  have hquot : (first + rest) / n = (first + rest % n) / n + rest / n := by
    have hsplit : first + rest = first + rest % n + n * (rest / n) := by
      rw [Nat.add_assoc, Nat.mod_add_div]
    rw [hsplit, Nat.add_mul_div_left _ _ hn]
  rw [hrest, hquot]
  constructor
  · intro h
    exact (Nat.div_eq_zero_iff_lt hn).1 (by omega)
  · intro h
    rw [Nat.div_eq_of_lt h, Nat.zero_add]

/-- Of the differences 1 and 4 the mean and the average are both 2. -/
theorem avgSamplesFromArrays_eq_mean_two :
    avgSamplesFromArrays (fun _ => 0) (fun i => 3 * i + 1) (fun _ => 0) 2 =
      ((List.range 2).map fun i => 3 * i + 1 - 0).sum / 2 :=
  (avgSamplesFromArrays_eq_mean_iff (fun _ => 0) (fun i => 3 * i + 1) (fun _ => 0) 2 (by decide)
    (by decide) (by decide) (by decide)).2 (by decide)

/-- Of a single difference of 1, the average is 0. -/
theorem avgSamplesFromArrays_ne_mean_one :
    avgSamplesFromArrays (fun _ => 0) (fun _ => 1) (fun _ => 0) 1 = 0 ∧
      ((List.range 1).map fun _ => 1 - 0).sum / 1 = 1 := by
  decide

end XMPGym
