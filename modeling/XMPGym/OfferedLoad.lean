import Mathlib.Data.List.Nodup
import XMPGym.Ints
import XMPGym.Sampling

/-!
# Offered load

`run_yielding_offered_load` (`src/runners.cpp`) calls `yielding_request_offered_load`
(`src/test_harness.cpp`) once for each iteration and gives it its part of the array `exetime`.  The
caller fixes the number of samples for an iteration; the callee works it out anew, from the number
of requests between two stamps.
-/

open Relation Transition

namespace XMPGym

variable {L M : Type*}

/-! ## Slots of an array -/

theorem Writes.get_of_mem {w : Writes} {i v : ℕ} (h : (i, v) ∈ w) (hw : (w.map Prod.fst).Nodup) :
    w.get i = some v := by
  have hrev : (w.reverse.map Prod.fst).Nodup := by
    rw [List.map_reverse, List.nodup_reverse]
    exact hw
  unfold get
  cases hfind : w.reverse.find? fun e => e.1 = i with
  | none =>
      have := List.find?_eq_none.1 hfind (i, v) (List.mem_reverse.2 h)
      simp at this
  | some e =>
      have hi : e.1 = i := by simpa using List.find?_some hfind
      have hmem : e ∈ w.reverse := List.mem_of_find?_eq_some hfind
      rw [List.inj_on_of_nodup_map hrev hmem (List.mem_reverse.2 h) hi]
      rfl

/-- The number of samples that the callee works out is that of the caller exactly when what is left
of the requests does not make up another group. -/
theorem div_div_eq_iff {total samples : ℕ} (hk : total / samples ≠ 0) :
    total / (total / samples) = samples ↔ total % samples < total / samples := by
  have hsplit := Nat.div_add_mod total samples
  generalize total / samples = k at hk hsplit ⊢
  have hpos : 0 < k := Nat.pos_of_ne_zero hk
  have hquot : total / k = samples + total % samples / k := by
    have hsum : total = total % samples + k * samples := by
      rw [Nat.mul_comm k]
      omega
    conv_lhs => rw [hsum]
    rw [Nat.add_mul_div_left _ _ hpos, Nat.add_comm]
  rw [hquot]
  constructor
  · intro h
    exact (Nat.div_eq_zero_iff_lt hpos).1 (by omega)
  · intro h
    rw [Nat.div_eq_of_lt h, Nat.add_zero]

/-! ## The runner -/

section runner

variable (hw : Hardware M) (request : ℕ → List (Instr L M)) (locals : ℕ → L)
  (m₀ : ℕ → M) (totalRequests numExeTimeSamplesPerRun : ℕ)

/-- `num_requests_before_stamp` -/
def numRequestsBeforeStamp : ℕ := totalRequests / numExeTimeSamplesPerRun

/-- `sampling_intervals + 1`; `none` for a division by zero or an overflow. -/
def samplingIntervalTimestamps : Option ℤ :=
  if numRequestsBeforeStamp totalRequests numExeTimeSamplesPerRun = 0 then none
  else addInt
    (totalRequests / numRequestsBeforeStamp totalRequests numExeTimeSamplesPerRun : ℕ) 1

/-- What is computed for call number `i` of `yielding_request_offered_load` before the executor
begins: its first slot of `exetime` and its number of time stamps. -/
def callSizes (i : ℕ) : Option (ℤ × ℤ) := do
  let idx ← mulInt i numExeTimeSamplesPerRun
  let timestamps ← samplingIntervalTimestamps totalRequests numExeTimeSamplesPerRun
  return (idx, timestamps)

/-- The executor under call number `i`, whose first slot has not overflowed. -/
abbrev callProgram (i : ℕ) : Program ClosedFrame L M :=
  offeredLoad (numRequestsBeforeStamp totalRequests numExeTimeSamplesPerRun) totalRequests
    (i * numExeTimeSamplesPerRun) hw request locals

/-- What comes of call number `i`, in the memory `m₀ i`: the writes to `exetime`, or `none` when
there is an overflow or a division by zero, or something else is used out of bounds. -/
inductive CallOutcome (i : ℕ) : Option Writes → Prop where
  | undefined (h : callSizes totalRequests numExeTimeSamplesPerRun i = none) : CallOutcome i none
  | fault {s : Sys ClosedFrame L M}
      (h : callSizes totalRequests numExeTimeSamplesPerRun i ≠ none)
      (hr : Sys.Reachable (callProgram hw request locals totalRequests numExeTimeSamplesPerRun i)
        (m₀ i) s) (hfault : s.running = .fault) : CallOutcome i none
  | returns {s : Sys ClosedFrame L M}
      (h : callSizes totalRequests numExeTimeSamplesPerRun i ≠ none)
      (hr : Sys.Reachable (callProgram hw request locals totalRequests numExeTimeSamplesPerRun i)
        (m₀ i) s) (hexit : s.running = .exited) : CallOutcome i (some s.frame.exetime)

/-- The loop of `run_yielding_offered_load` after `n` of its `iter` calls: the writes so far, or
`none` from the overflow of `total_exe_time_samples` or the call on that did not come to its
end. -/
inductive AfterCalls (iter : ℕ) : ℕ → Option Writes → Prop where
  | begin (h : mulInt iter numExeTimeSamplesPerRun ≠ none) : AfterCalls iter 0 (some [])
  | overflow (h : mulInt iter numExeTimeSamplesPerRun = none) : AfterCalls iter 0 none
  | call {n : ℕ} {w w' : Writes} (hn : n < iter) (h : AfterCalls iter n (some w))
      (hcall : CallOutcome hw request locals m₀ totalRequests numExeTimeSamplesPerRun n
        (some w')) : AfterCalls iter (n + 1) (some (w ++ w'))
  | fault {n : ℕ} {w : Writes} (hn : n < iter) (h : AfterCalls iter n (some w))
      (hcall : CallOutcome hw request locals m₀ totalRequests numExeTimeSamplesPerRun n none) :
      AfterCalls iter (n + 1) none
  | faulted {n : ℕ} (hn : n < iter) (h : AfterCalls iter n none) : AfterCalls iter (n + 1) none

/-- The requests that are left over do not make up another group, and neither the number of samples
of all iterations nor the number of time stamps of one overflows. -/
def SamplesFit (iter : ℕ) : Prop :=
  totalRequests % numExeTimeSamplesPerRun < totalRequests / numExeTimeSamplesPerRun ∧
    iter * numExeTimeSamplesPerRun < 2 ^ 31 ∧ numExeTimeSamplesPerRun + 1 < 2 ^ 31

instance (iter : ℕ) : Decidable (SamplesFit totalRequests numExeTimeSamplesPerRun iter) :=
  inferInstanceAs (Decidable (_ ∧ _))

/-- `v` is the time of the completions number `j * k` to `(j + 1) * k` of a call, where `k` is the
number of requests before a stamp. -/
def GroupTime (i j v : ℕ) : Prop :=
  ∃ s t t', Sys.Reachable (callProgram hw request locals totalRequests numExeTimeSamplesPerRun i)
      (m₀ i) s ∧
    StampedAt (callProgram hw request locals totalRequests numExeTimeSamplesPerRun i) (m₀ i)
      (numRequestsBeforeStamp totalRequests numExeTimeSamplesPerRun) s j t ∧
    StampedAt (callProgram hw request locals totalRequests numExeTimeSamplesPerRun i) (m₀ i)
      (numRequestsBeforeStamp totalRequests numExeTimeSamplesPerRun) s (j + 1) t' ∧
    v = stampDiff t' t

/-- The array `exetime` of `iter * num_exe_time_samples_per_run` entries, a product that has not
overflowed where there is an array, after `n` calls. -/
structure Sound (iter n : ℕ) (o : Option Writes) : Prop where
  /-- nothing was divided by zero, has overflowed or went wrong otherwise -/
  noFault : o ≠ none
  /-- all writes are inside the array -/
  inside : ∀ w, o = some w → ∀ e ∈ w, e.1 < iter * numExeTimeSamplesPerRun
  /-- nothing is overwritten -/
  once : ∀ w, o = some w → (w.map Prod.fst).Nodup
  /-- the entries of the calls so far are there, each with the time of a group of completions -/
  filled : ∀ w, o = some w → ∀ i < n, ∀ j < numExeTimeSamplesPerRun, ∃ v,
    w.get (i * numExeTimeSamplesPerRun + j) = some v ∧
      GroupTime hw request locals m₀ totalRequests numExeTimeSamplesPerRun i j v

end runner

/-! ## One call -/

theorem callSizes_ne_none_iff {totalRequests samples i : ℕ} :
    callSizes totalRequests samples i ≠ none ↔
      i * samples < 2 ^ 31 ∧ numRequestsBeforeStamp totalRequests samples ≠ 0 ∧
        totalRequests / numRequestsBeforeStamp totalRequests samples + 1 < 2 ^ 31 := by
  have hpair : ∀ a b : Option ℤ, (do let x ← a; let y ← b; return (x, y)) ≠ none ↔
      a ≠ none ∧ b ≠ none := by
    rintro (_ | x) (_ | y) <;> simp
  rw [callSizes, hpair, mulInt_natCast_ne_none, samplingIntervalTimestamps]
  refine and_congr_right fun _ => ?_
  split_ifs with hk
  · simp [hk]
  · exact (addInt_natCast_ne_none (b := 1)).trans (and_iff_right hk).symm

/-- The callee takes as many samples as the caller has asked for. -/
theorem SamplesFit.samples_eq {totalRequests samples iter : ℕ}
    (h : SamplesFit totalRequests samples iter) :
    numRequestsBeforeStamp totalRequests samples ≠ 0 ∧
      totalRequests / numRequestsBeforeStamp totalRequests samples = samples := by
  have hk : numRequestsBeforeStamp totalRequests samples ≠ 0 := Nat.ne_zero_of_lt h.1
  exact ⟨hk, (div_div_eq_iff hk).2 h.1⟩

/-- In no call the sizes overflow. -/
theorem SamplesFit.callSizes_ne_none {totalRequests samples iter : ℕ}
    (h : SamplesFit totalRequests samples iter) {i : ℕ} (hi : i < iter) :
    callSizes totalRequests samples i ≠ none := by
  obtain ⟨hk, hm⟩ := h.samples_eq
  refine callSizes_ne_none_iff.2 ⟨(Nat.mul_le_mul_right _ hi.le).trans_lt h.2.1, hk, ?_⟩
  rw [hm]
  exact h.2.2

section calls

variable {hw : Hardware M} {request : ℕ → List (Instr L M)} {locals : ℕ → L}
  {submitted : M → ℕ → Prop} {m₀ : ℕ → M} {totalRequests samples i n iter : ℕ} {w : Writes}

/-- A call that returns has written as many samples as it worked out. -/
theorem CallOutcome.writes
    (hP : ∀ i, CompletesOnce (callProgram hw request locals totalRequests samples i))
    (hP' : ∀ i, TwoSwaps (callProgram hw request locals totalRequests samples i))
    (hc : ∀ i, RecordContract (callProgram hw request locals totalRequests samples i) submitted
      (m₀ i))
    {o : Option Writes} (h : CallOutcome hw request locals m₀ totalRequests samples i o)
    (hsizes : callSizes totalRequests samples i ≠ none) :
    ∃ v : ℕ → ℕ, o = some
        ((List.range (totalRequests / numRequestsBeforeStamp totalRequests samples)).map
          fun j => (i * samples + j, v j)) ∧
      ∀ j < totalRequests / numRequestsBeforeStamp totalRequests samples,
        GroupTime hw request locals m₀ totalRequests samples i j (v j) := by
  have hk := Nat.pos_of_ne_zero (callSizes_ne_none_iff.1 hsizes).2.1
  cases h with
  | undefined h => exact absurd h hsizes
  | fault _ hr hfault =>
      exact absurd hfault (sampledRun_of_reachable hk (hP i) (hP' i) (hc i) hr).noFault
  | @returns s _ hr hexit =>
      obtain ⟨t, -, hex, horig⟩ :=
        (sampledRun_of_reachable hk (hP i) (hP' i) (hc i) hr).after hexit
      exact ⟨fun j => stampDiff (t (j + 1)) (t j), congrArg some hex, fun j hj =>
        ⟨s, t j, t (j + 1), hr, horig j (by omega), horig (j + 1) (by omega), rfl⟩⟩

/-- Where the writes of `n` calls go, when each call writes `m` samples. -/
theorem AfterCalls.writes
    (hP : ∀ i, CompletesOnce (callProgram hw request locals totalRequests samples i))
    (hP' : ∀ i, TwoSwaps (callProgram hw request locals totalRequests samples i))
    (hc : ∀ i, RecordContract (callProgram hw request locals totalRequests samples i) submitted
      (m₀ i))
    {o : Option Writes} (h : AfterCalls hw request locals m₀ totalRequests samples iter n o)
    (hiter : mulInt iter samples ≠ none)
    (hsizes : ∀ i < iter, callSizes totalRequests samples i ≠ none) :
    ∃ v : ℕ → ℕ → ℕ, o = some ((List.range n).flatMap fun i =>
        (List.range (totalRequests / numRequestsBeforeStamp totalRequests samples)).map
          fun j => (i * samples + j, v i j)) ∧
      ∀ i < n, ∀ j < totalRequests / numRequestsBeforeStamp totalRequests samples,
        GroupTime hw request locals m₀ totalRequests samples i j (v i j) := by
  induction h with
  | begin => exact ⟨fun _ _ => 0, rfl, fun i hi => absurd hi (Nat.not_lt_zero i)⟩
  | overflow h => exact absurd h hiter
  | fault hn _ hcall =>
      obtain ⟨v, hv, -⟩ := hcall.writes hP hP' hc (hsizes _ hn)
      cases hv
  | faulted _ _ ih =>
      obtain ⟨v, hv, -⟩ := ih
      cases hv
  | @call n w w' hn _ hcall ih =>
      obtain ⟨v, hw, htimes⟩ := ih
      obtain ⟨v', hw', htimes'⟩ := hcall.writes hP hP' hc (hsizes n hn)
      have old {i : ℕ} (hi : i < n) : Function.update v n v' i = v i :=
        Function.update_of_ne (by omega) _ _
      refine ⟨Function.update v n v', ?_, fun i hi j hj => ?_⟩
      · rw [Option.some.inj hw, Option.some.inj hw', List.range_succ, List.flatMap_append,
          List.flatMap_singleton, Function.update_self]
        congr 2
        refine List.flatMap_congr fun i hi => ?_
        rw [old (List.mem_range.1 hi)]
      · by_cases hlast : i = n
        · rw [hlast, Function.update_self]
          exact htimes' j hj
        · rw [old (by omega)]
          exact htimes i (by omega) j hj

/-- An array is there only if its size has not overflowed. -/
theorem AfterCalls.size_ne_none {o : Option Writes} {w : Writes}
    (h : AfterCalls hw request locals m₀ totalRequests samples iter n o) (ho : o = some w) :
    mulInt iter samples ≠ none := by
  induction h generalizing w with
  | begin h => exact h
  | overflow | fault | faulted => cases ho
  | call _ _ _ ih => exact ih rfl

end calls

/-- The slots of `n` calls with `k` samples each. -/
theorem map_fst_slots (n k : ℕ) (v : ℕ → ℕ → ℕ) :
    (((List.range n).flatMap fun i => (List.range k).map fun j => (i * k + j, v i j)).map
      Prod.fst) = List.range (n * k) := by
  induction n with
  | zero => simp
  | succ n ih =>
      rw [List.range_succ, List.flatMap_append, List.map_append, ih, List.flatMap_singleton,
        List.map_map, Nat.add_mul, Nat.one_mul, List.range_add]
      rfl

section sound

variable {hw : Hardware M} {request : ℕ → List (Instr L M)} {locals : ℕ → L}
  {submitted : M → ℕ → Prop} {m₀ : ℕ → M} {totalRequests samples n iter : ℕ} {o : Option Writes}
  (hP : ∀ i, CompletesOnce (callProgram hw request locals totalRequests samples i))
  (hP' : ∀ i, TwoSwaps (callProgram hw request locals totalRequests samples i))
  (hc : ∀ i, RecordContract (callProgram hw request locals totalRequests samples i) submitted
    (m₀ i))
include hP hP' hc

/-- When caller and callee agree on the number of samples, every call fills its own slots. -/
theorem AfterCalls.sound (hfit : SamplesFit totalRequests samples iter) (hn : n ≤ iter)
    (h : AfterCalls hw request locals m₀ totalRequests samples iter n o) :
    Sound hw request locals m₀ totalRequests samples iter n o := by
  obtain ⟨v, rfl, htimes⟩ :=
    h.writes hP hP' hc (mulInt_natCast_ne_none.2 hfit.2.1) fun i => hfit.callSizes_ne_none
  rw [hfit.samples_eq.2] at htimes ⊢
  have hslots := map_fst_slots n samples v
  refine ⟨by simp, ?_, ?_, ?_⟩
  · intro w hw e he
    obtain rfl := Option.some.inj hw
    have hmem : e.1 ∈ List.range (n * samples) := hslots ▸ List.mem_map_of_mem he
    exact Nat.lt_of_lt_of_le (List.mem_range.1 hmem) (Nat.mul_le_mul_right _ hn)
  · intro w hw
    obtain rfl := Option.some.inj hw
    rw [hslots]
    exact List.nodup_range
  · intro w hw i hi j hj
    obtain rfl := Option.some.inj hw
    refine ⟨v i j, Writes.get_of_mem ?_ ?_, htimes i hi j hj⟩
    · exact List.mem_flatMap.2 ⟨i, List.mem_range.2 hi,
        List.mem_map.2 ⟨j, List.mem_range.2 hj, rfl⟩⟩
    · rw [hslots]
      exact List.nodup_range

/-- When they do not, there is a division by zero, or the last call goes past the array. -/
theorem AfterCalls.fit_of_sound (hsamples : 1 ≤ samples) (hiter : 1 ≤ iter)
    (h : AfterCalls hw request locals m₀ totalRequests samples iter iter o)
    (hsound : Sound hw request locals m₀ totalRequests samples iter iter o) :
    SamplesFit totalRequests samples iter := by
  obtain ⟨w, rfl⟩ := Option.ne_none_iff_exists'.1 hsound.noFault
  have hsize := h.size_ne_none rfl
  have hbound := mulInt_natCast_ne_none.1 hsize
  -- the last call has come to its end
  obtain ⟨hk, htimes⟩ : numRequestsBeforeStamp totalRequests samples ≠ 0 ∧
      totalRequests / numRequestsBeforeStamp totalRequests samples + 1 < 2 ^ 31 := by
    generalize hn : iter = n at h hsound
    cases h with
    | begin => omega
    | call _ _ hcall =>
        cases hcall with
        | returns h => exact (callSizes_ne_none_iff.1 h).2
  have hsizes : ∀ i < iter, callSizes totalRequests samples i ≠ none := fun i hi =>
    callSizes_ne_none_iff.2 ⟨(Nat.mul_le_mul_right _ hi.le).trans_lt hbound, hk, htimes⟩
  obtain ⟨v, hw, -⟩ := h.writes hP hP' hc hsize hsizes
  have hm : samples ≤ totalRequests / numRequestsBeforeStamp totalRequests samples := by
    rw [Nat.le_div_iff_mul_le (Nat.pos_of_ne_zero hk)]
    exact Nat.mul_div_le totalRequests samples
  have hdiv : totalRequests / numRequestsBeforeStamp totalRequests samples = samples ↔ _ :=
    div_div_eq_iff hk
  generalize totalRequests / numRequestsBeforeStamp totalRequests samples = m at *
  obtain rfl := Option.some.inj hw
  have hlast := hsound.inside _ rfl
    ((iter - 1) * samples + (m - 1), v (iter - 1) (m - 1)) (List.mem_flatMap.2
      ⟨iter - 1, List.mem_range.2 (by omega),
        List.mem_map.2 ⟨m - 1, List.mem_range.2 (by omega), rfl⟩⟩)
  have hiter' : iter * samples = (iter - 1) * samples + samples := by
    rw [← Nat.succ_mul, show (iter - 1).succ = iter by omega]
  simp only at hlast
  exact ⟨hdiv.1 (by omega), hbound, by omega⟩

end sound

/-- In every run of `run_yielding_offered_load` for which the requests left over do not make up
another group and the numbers of samples and time stamps fit an `int`, the array is sound after each
of its calls.  A run whose calls have all come to an end leaves the array sound if and only if that
is so. -/
theorem exetime_sound_iff (hw : Hardware M) (offload work : ℕ → List (L → M → L × M × Next))
    (locals : ℕ → L) (submitted : M → ℕ → Prop) (m₀ : ℕ → M)
    (totalRequests samples iter : ℕ) (hsamples : 1 ≤ samples) (hiter : 1 ≤ iter)
    (hc : ∀ i, RecordContract (callProgram hw (fun i => yieldingRequest (offload i) (work i)) locals
      totalRequests samples i) submitted (m₀ i)) :
    (SamplesFit totalRequests samples iter → ∀ n ≤ iter, ∀ o,
      AfterCalls hw (fun i => yieldingRequest (offload i) (work i)) locals m₀ totalRequests samples
        iter n o →
      Sound hw (fun i => yieldingRequest (offload i) (work i)) locals m₀ totalRequests samples
        iter n o) ∧
    ∀ o, AfterCalls hw (fun i => yieldingRequest (offload i) (work i)) locals m₀ totalRequests
        samples iter iter o →
      (Sound hw (fun i => yieldingRequest (offload i) (work i)) locals m₀ totalRequests samples
        iter iter o ↔ SamplesFit totalRequests samples iter) := by
  have hP (i : ℕ) := completesOnce_yieldingRequest (callProgram hw
    (fun i => yieldingRequest (offload i) (work i)) locals totalRequests samples i) rfl
  have hP' (i : ℕ) := twoSwaps_yieldingRequest (callProgram hw
    (fun i => yieldingRequest (offload i) (work i)) locals totalRequests samples i) rfl
  refine ⟨fun hfit n hn o h => h.sound hP hP' hc hfit hn, fun o h => ⟨fun hsound => ?_, ?_⟩⟩
  · exact h.fit_of_sound hP hP' hc hsamples hiter hsound
  · exact fun hfit => h.sound hP hP' hc hfit (Nat.le_refl _)

/-- Five requests on a board, with a sample after the second and after the fourth. -/
def fiveRequests : List (Option BoardMove) :=
  List.replicate 21 none ++
    [some (.ends 1 1), some .tick, some (.ends 0 1), some (.ends 2 1), some (.ends 3 1)] ++
    List.replicate 12 none ++ [some .tick, some .tick, some (.ends 4 1)] ++ List.replicate 15 none

/-- Two iterations with two samples each; the request that is left over is not in a sample. -/
theorem exetime_sound_five :
    AfterCalls Board.hardware Board.request (fun _ => ()) (fun _ => Board.blank) 5 2 2 2
        (some [(0, 1), (1, 2), (2, 1), (3, 2)]) ∧
      Sound Board.hardware Board.request (fun _ => ()) (fun _ => Board.blank) 5 2 2 2
        (some [(0, 1), (1, 2), (2, 1), (3, 2)]) := by
  have h : AfterCalls Board.hardware Board.request (fun _ => ()) (fun _ => Board.blank) 5 2 2 2 _ :=
    .call (by decide)
      (.call (by decide) (.begin (by decide)) (.returns (by decide)
        (Board.reachable_of_schedule (l := fiveRequests) rfl rfl) rfl))
      (.returns (by decide) (Board.reachable_of_schedule (l := fiveRequests) rfl rfl) rfl)
  exact ⟨h, ((exetime_sound_iff Board.hardware Board.offload Board.work (fun _ => ()) _
    (fun _ => Board.blank) 5 2 2 (by decide) (by decide)
    (fun _ => Board.recordContract_request _ _)).2 _ h).2 (by decide)⟩

/-- Of one request no two samples can be taken, and the division by zero is reached.  Of three
requests each of two iterations writes three samples to its two slots.  Twice 2^30 samples are more
than an `int` can hold. -/
theorem exetime_not_sound :
    (AfterCalls Board.hardware Board.request (fun _ => ()) (fun _ => Board.blank) 1 2 1 1 none ∧
      ¬ Sound Board.hardware Board.request (fun _ => ()) (fun _ => Board.blank) 1 2 1 1 none) ∧
    (∃ w, AfterCalls Board.hardware Board.request (fun _ => ()) (fun _ => Board.blank) 3 2 2 2
        (some w) ∧ w.map Prod.fst = [0, 1, 2, 2, 3, 4] ∧
      ¬ Sound Board.hardware Board.request (fun _ => ()) (fun _ => Board.blank) 3 2 2 2
        (some w)) ∧
    AfterCalls Board.hardware Board.request (fun _ => ()) (fun _ => Board.blank) (2 ^ 30) (2 ^ 30)
        2 0 none ∧
      ¬ Sound Board.hardware Board.request (fun _ => ()) (fun _ => Board.blank) (2 ^ 30) (2 ^ 30)
        2 0 none := by
  refine ⟨⟨.fault (by decide) (.begin (by decide)) (.undefined (by decide)),
    fun h => h.noFault rfl⟩, ?_, .overflow (by decide), fun h => h.noFault rfl⟩
  have h : AfterCalls Board.hardware Board.request (fun _ => ()) (fun _ => Board.blank) 3 2 2 2 _ :=
    .call (by decide)
      (.call (by decide) (.begin (by decide)) (.returns (by decide)
        (Board.reachable_of_schedule (l := threeRequests) rfl rfl) rfl))
      (.returns (by decide) (Board.reachable_of_schedule (l := threeRequests) rfl rfl) rfl)
  refine ⟨_, h, rfl, fun hs => ?_⟩
  exact absurd (hs.once _ rfl) (by decide)

end XMPGym
