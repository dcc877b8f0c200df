import XMPGym.Harness
import XMPGym.Lifecycle

/-!
# The blocks that harnesses and runners leave

Between two calls of a harness the globals are as `Between` says.  A call does not fault and leaves
the parts that the harness keeps, and the `leak` of the lifecycle for each request.
-/

open Ownership

namespace XMPGym.HeapUse

variable {v v' : Known Globals} {pre : Globals → Set ℕ → Prop} {changed : Set Global}
  {alloc : ℕ → Prog Globals Table} {release : Table → Prog Globals Unit} {ps : List Part}
  {parts : Part → List ℕ} {fixed : List (Global × ℕ)} {N : ℕ}

/-! ## The parts of a harness -/

theorem runs_collectMalloc (n : ℕ) :
    Runs (collect malloc n) v fun bs v' =>
      bs.length = n ∧ v' = { v with owned := ↑bs + v.owned } := by
  refine Runs.collect ?_ ?_ n
  · rw [Multiset.coe_nil, zero_add]
  · rintro bs _ rfl
    refine runs_malloc.mono ?_
    rintro b _ - rfl
    dsimp only
    rw [← Multiset.coe_add, Multiset.coe_singleton, ← add_assoc, add_comm (↑bs : Multiset ℕ)]

theorem runs_mallocParts (hnd : ps.Nodup) :
    Runs (mallocParts N ps parts) v fun parts' v' =>
      (∀ p ∈ ps, (parts' p).length = p.count N) ∧ (∀ p ∉ ps, parts' p = parts p) ∧
      v' = { v with owned := ↑(ps.flatMap parts') + v.owned } := by
  induction ps generalizing parts v with
  | nil => exact .pure ⟨by simp, fun _ _ => rfl, by simp⟩
  | cons p ps ih =>
      obtain ⟨hp, hnd⟩ := List.nodup_cons.1 hnd
      rw [mallocParts, List.foldlM_cons]
      refine Runs.bind (Q := fun parts₁ v₁ => ∃ bs : List ℕ, bs.length = p.count N ∧
        parts₁ = Function.update parts p bs ∧ v₁ = { v with owned := ↑bs + v.owned })
        ((runs_collectMalloc _).bind fun bs v₁ h => .pure ⟨bs, h.1, rfl, h.2⟩) ?_
      rintro _ _ ⟨bs, hbs, rfl, rfl⟩
      refine (ih hnd).mono ?_
      rintro parts' _ - ⟨hlen, hsame, rfl⟩
      -- later parts leave this one alone
      have hpb : parts' p = bs := (hsame p hp).trans (Function.update_self ..)
      refine ⟨fun q hq => ?_, fun q hq => ?_, ?_⟩
      · obtain rfl | hq := List.mem_cons.1 hq
        · rw [hpb, hbs]
        · exact hlen q hq
      · obtain ⟨hne, hq⟩ := not_or.1 (mt List.mem_cons.2 hq)
        exact (hsame q hq).trans (Function.update_of_ne hne ..)
      · rw [List.flatMap_cons, hpb, ← Multiset.coe_add]
        dsimp only
        rw [add_left_comm, ← add_assoc]

theorem runs_freeAll {bs : List ℕ} {R : Multiset ℕ} (hown : v.owned = ↑bs + R) :
    Runs (bs.forM free) v fun _ v' => v'.globals = v.globals ∧ v'.owned = R := by
  refine (Runs.forM (I := fun l v' => v'.globals = v.globals ∧ v'.owned = ↑l + R) ?_
    ⟨rfl, hown⟩).mono ?_
  · rintro b l v₁ ⟨hs, hown₁⟩
    rw [← Multiset.cons_coe, ← Multiset.singleton_add, add_assoc] at hown₁
    refine (runs_free hown₁).mono ?_
    rintro - _ - rfl
    exact ⟨hs, rfl⟩
  · rintro - v₁ - ⟨hs, hown₁⟩
    exact ⟨hs, by rw [hown₁, Multiset.coe_nil, zero_add]⟩

theorem runs_freeParts {R : Multiset ℕ} (hown : v.owned = ↑(ps.flatMap parts) + R) :
    Runs (freeParts ps parts) v fun _ v' => v'.globals = v.globals ∧ v'.owned = R := by
  refine (Runs.forM (I := fun l v' => v'.globals = v.globals ∧
    v'.owned = ↑(l.flatMap parts) + R) ?_ ⟨rfl, hown⟩).mono ?_
  · rintro p l v₁ ⟨hs, hown₁⟩
    rw [List.flatMap_cons, ← Multiset.coe_add, add_assoc] at hown₁
    refine (runs_freeAll hown₁).mono ?_
    rintro - v₂ - ⟨hs₂, hown₂⟩
    exact ⟨hs₂.trans hs, hown₂⟩
  · rintro - v₁ - ⟨hs, hown₁⟩
    exact ⟨hs, by rw [hown₁, List.flatMap_nil, Multiset.coe_nil, zero_add]⟩

/-! ## Harnesses -/

/-- Between two calls `pre` holds, and the pointers `fixed` point to blocks of the program. -/
structure Between (pre : Globals → Set ℕ → Prop) (fixed : List (Global × ℕ)) (v : Known Globals) :
    Prop where
  pre : pre v.globals v.dead
  fixed : ∀ p ∈ fixed, v.globals p.1 = some p.2 ∧ p.2 ∈ v.owned

/-- The blocks that a call leaves. -/
def Harness.left (h : Harness) (N leak : ℕ) : ℕ := (h.kept.map (Part.count N)).sum + N * leak

theorem runs_accesses {T : Table} {accesses : List Access}
    (h : ∀ c ∈ accesses, c.Reads T v.globals v.owned) :
    Runs (accesses.forM (Access.perform T)) v fun _ v' => v' = v := by
  refine (Runs.forM (I := fun l v' => v' = v ∧ ∀ c ∈ l, c.Reads T v.globals v.owned) ?_
    ⟨rfl, h⟩).mono fun _ _ _ h => h.1
  rintro c l _ ⟨rfl, hl⟩
  refine (hl c List.mem_cons_self).runs.mono ?_
  rintro - _ - rfl
  exact ⟨rfl, fun c hc => hl c (List.mem_cons_of_mem _ hc)⟩

/-- There is a first request, and a number to divide by. -/
theorem Harness.runs_execute (h : Harness) {T : Table} {accesses : List Access}
    (havg : h.averages → N ≠ 0 ∧ (Access.args 0).Reads T v.globals v.owned)
    (hacc : ∀ c ∈ accesses, c.Reads T v.globals v.owned) :
    Runs (h.execute N T accesses) v fun _ v' => v' = v := by
  refine (runs_accesses hacc).bind ?_
  rintro - _ rfl
  split_ifs with ha
  · refine (havg ha).2.runs.bind ?_
    rintro - _ rfl
    rw [if_neg (havg ha).1]
    exact .pure rfl
  · exact .pure rfl

theorem card_flatMap (h : ∀ p ∈ ps, (parts p).length = p.count N) :
    (↑(ps.flatMap parts) : Multiset ℕ).card = (ps.map (Part.count N)).sum := by
  rw [Multiset.coe_card, List.length_flatMap]
  exact congrArg List.sum (List.map_congr_left h)

/-- What a call may access is there once the arguments have been made. -/
theorem Between.reads (L : Lifecycle pre changed alloc release)
    (hfixed : ∀ p ∈ fixed, p.1 ∉ changed) (hv : Between pre fixed v) {T : Table} {s : Globals}
    {S R : Multiset ℕ} (hs : ∀ g ∉ changed, s g = v.globals g) (hS : L.Held N T s S)
    (hle : v.owned ≤ R) {c : Access}
    (hc : c.Within N L.fields (L.globals ++ fixed.map Prod.fst)) : c.Reads T s (S + R) := by
  have hheld : ∀ {c : Access}, c.Within N L.fields L.globals → c.Reads T s (S + R) := fun hc =>
    (L.reads hS hc).mono (Multiset.le_add_right S R)
  cases c with
  | args i => exact hheld hc
  | field i f => exact hheld hc
  | global g =>
      obtain hg | hg := List.mem_append.1 hc
      · exact hheld hg
      · obtain ⟨⟨_, b⟩, hp, rfl⟩ := List.mem_map.1 hg
        obtain ⟨hgb, hb⟩ := hv.fixed _ hp
        refine ⟨b, (hs _ (hfixed _ hp)).trans hgb, ?_⟩
        exact Multiset.mem_add.2 (.inr (Multiset.mem_of_le hle hb))

/-- Each part is freed before the arguments or after them, or kept. -/
theorem Harness.coe_parts (h : Harness) (parts : Part → List ℕ) :
    (↑(h.before.flatMap parts) + ↑(h.after.flatMap parts) : Multiset ℕ) =
      ↑(h.freedFirst.flatMap parts) +
        (↑(h.freedLast.flatMap parts) + ↑(h.kept.flatMap parts)) := by
  rw [Multiset.coe_add, Multiset.coe_add, Multiset.coe_add, ← List.flatMap_append,
    ← List.flatMap_append, ← List.flatMap_append]
  exact Multiset.coe_eq_coe.2 (h.perm.flatMap_right parts)

/-- The teardown of a call. -/
theorem Harness.runs_teardown (L : Lifecycle pre changed alloc release) (h : Harness) {T : Table}
    {S R : Multiset ℕ} (hS : L.Held N T v.globals S)
    (hown : v.owned =
      ↑(h.freedFirst.flatMap parts) + (S + (↑(h.freedLast.flatMap parts) + R))) :
    Runs (do freeParts h.freedFirst parts; release T; freeParts h.freedLast parts) v fun _ v' =>
      pre v'.globals v'.dead ∧ (∀ g ∉ changed, v'.globals g = v.globals g) ∧
      ∃ K : Multiset ℕ, K.card = N * L.leak ∧ v'.owned = K + R := by
  refine (runs_freeParts hown).bind ?_
  rintro - v₁ ⟨hs₁, hown₁⟩
  refine (L.runs_release (hs₁ ▸ hS) hown₁).bind ?_
  rintro - v₂ ⟨hpre, hs₂, K, hK, hown₂⟩
  rw [add_left_comm] at hown₂
  refine (runs_freeParts hown₂).mono ?_
  rintro - v₃ hdead ⟨hs₃, hown₃⟩
  exact ⟨L.mono hdead (hs₃ ▸ hpre), fun g hg => by rw [hs₃, hs₂ g hg, hs₁], K, hK, hown₃⟩

theorem Harness.leaves (L : Lifecycle pre changed alloc release) (fixed : List (Global × ℕ))
    (hfixed : ∀ p ∈ fixed, p.1 ∉ changed) (h : Harness) {interval : ℕ}
    (hinterval : h.divides → interval ≠ 0) (havg : h.averages → N ≠ 0) {accesses : List Access}
    (hacc : ∀ c ∈ accesses, c.Within N L.fields (L.globals ++ fixed.map Prod.fst)) :
    Leaves (Between pre fixed) (h.run alloc release interval N accesses) (h.left N L.leak) := by
  intro v hv
  obtain ⟨hb, ha, hba⟩ := List.nodup_append.1 h.nodup
  rw [Harness.run, if_neg fun hd => hinterval hd.1 hd.2]
  refine Runs.bind (runs_mallocParts hb) ?_
  rintro parts₁ _ ⟨hlen₁, -, rfl⟩
  refine Runs.bind
    (L.runs_alloc (v := { v with owned := ↑(h.before.flatMap parts₁) + v.owned }) hv.pre) ?_
  rintro T v₂ ⟨hs₂, S, hS, hown₂⟩
  refine (runs_mallocParts ha).bind ?_
  rintro parts _ ⟨hlen, hsame, rfl⟩
  -- the first parts are still where they were
  have hbefore : ∀ p ∈ h.before, parts p = parts₁ p := fun p hp =>
    hsame p fun hp' => hba p hp p hp' rfl
  have hcount : ∀ p ∈ h.before ++ h.after, (parts p).length = p.count N := by
    intro p hp
    obtain hp | hp := List.mem_append.1 hp
    · rw [hbefore p hp, hlen₁ p hp]
    · exact hlen p hp
  have hown : (↑(h.after.flatMap parts) + v₂.owned : Multiset ℕ) =
      ↑(h.freedFirst.flatMap parts) + (S + (↑(h.freedLast.flatMap parts) +
        (↑(h.kept.flatMap parts) + v.owned))) := by
    calc (↑(h.after.flatMap parts) + v₂.owned : Multiset ℕ)
        = S + ((↑(h.before.flatMap parts) + ↑(h.after.flatMap parts)) + v.owned) := by
          rw [hown₂, List.flatMap_congr hbefore]
          dsimp only
          abel
      _ = _ := by
          rw [h.coe_parts]
          abel
  have hreads : ∀ {c : Access}, c.Within N L.fields (L.globals ++ fixed.map Prod.fst) →
      c.Reads T v₂.globals (↑(h.after.flatMap parts) + v₂.owned) := by
    intro c hc
    rw [hown, add_left_comm]
    refine hv.reads L hfixed hs₂ hS ?_ hc
    calc v.owned
        ≤ ↑(h.kept.flatMap parts) + v.owned := Multiset.le_add_left _ _
      _ ≤ ↑(h.freedLast.flatMap parts) + (↑(h.kept.flatMap parts) + v.owned) :=
        Multiset.le_add_left _ _
      _ ≤ _ := Multiset.le_add_left _ _
  refine (h.runs_execute (fun ha => ⟨havg ha, hreads (c := .args 0) ?_⟩)
    fun c hc => hreads (hacc c hc)).bind ?_
  · exact Nat.pos_of_ne_zero (havg ha)
  rintro - _ rfl
  refine Runs.mono (h.runs_teardown
    (v := { v₂ with owned := ↑(h.after.flatMap parts) + v₂.owned }) L hS hown) ?_
  rintro - v₃ - ⟨hpre, hs₃, K, hK, hown₃⟩
  rw [← add_assoc] at hown₃
  refine ⟨⟨hpre, fun p hp => ?_⟩, K + ↑(h.kept.flatMap parts), ?_, hown₃⟩
  · obtain ⟨hgb, hb⟩ := hv.fixed p hp
    have hg := hfixed p hp
    refine ⟨by rw [hs₃ _ hg, hs₂ _ hg, hgb], ?_⟩
    rw [hown₃]
    exact Multiset.mem_add.2 (.inr hb)
  · rw [Multiset.card_add, hK, Harness.left, card_flatMap fun p hp => hcount p ?_, add_comm]
    exact h.perm.mem_iff.2 (List.mem_append_right _ (List.mem_append_right _ hp))

/-- A call that reads a pointer that is `NULL` or dangles, and that the allocator does not set. -/
theorem Harness.faults (L : Lifecycle pre changed alloc release) (h : Harness) {g : Global}
    (hg : g ∉ changed) {interval : ℕ} {accesses : List Access} (hacc : .global g ∈ accesses)
    (hpre : pre v.globals v.dead) (hbad : ∀ b, v.globals g = some b → b ∈ v.dead) :
    Faults (h.run alloc release interval N accesses) v := by
  obtain ⟨hb, ha, -⟩ := List.nodup_append.1 h.nodup
  rw [Harness.run]
  split_ifs with hd
  · exact faults_fault.bind
  refine Runs.faults (runs_mallocParts hb) ?_
  rintro parts₁ _ - ⟨-, -, rfl⟩
  refine Runs.faults
    (L.runs_alloc (v := { v with owned := ↑(h.before.flatMap parts₁) + v.owned }) hpre) ?_
  rintro T v₂ hdead₂ ⟨hs₂, -⟩
  refine (runs_mallocParts ha).faults ?_
  rintro parts _ - ⟨-, -, rfl⟩
  refine (Faults.forM (checks_perform T) hacc (faults_global fun b hgb => ?_)).bind.bind
  exact hdead₂ (hbad b ((hs₂ g hg).symm.trans hgb))

/-! ### What the harnesses leave -/

section left

variable (N leak : ℕ)

@[simp] theorem gpcoreRequestBreakdown_left :
    gpcoreRequestBreakdown.left N leak = N + 5 + N * leak := by
  simp [Harness.left, gpcoreRequestBreakdown, Part.count]
  omega

@[simp] theorem gpcoreClosedLoopTest_left :
    gpcoreClosedLoopTest.left N leak = N + 2 + N * leak := by
  simp [Harness.left, gpcoreClosedLoopTest, Part.count]
  omega

@[simp] theorem blockingAxRequestBreakdown_left :
    blockingAxRequestBreakdown.left N leak = 1 + N * leak := rfl

@[simp] theorem yieldingSameInterleavedRequestBreakdown_left :
    yieldingSameInterleavedRequestBreakdown.left N leak = 6 + N * leak := rfl

@[simp] theorem blockingRequestOfferedLoad_left :
    blockingRequestOfferedLoad.left N leak = 1 + N * leak := rfl

@[simp] theorem yieldingRequestOfferedLoad_left :
    yieldingRequestOfferedLoad.left N leak = 1 + N * leak := rfl

@[simp] theorem threePhaseOffloadTimedBreakdown_left :
    threePhaseOffloadTimedBreakdown.left N leak = N * leak := Nat.zero_add _

@[simp] theorem threePhaseOffloadTimedThroughput_left :
    threePhaseOffloadTimedThroughput.left N leak = N * leak := Nat.zero_add _

end left

/-! ## Runners -/

theorem Between.grow (L : Lifecycle pre changed alloc release) (hv : Between pre fixed v)
    (hs : v'.globals = v.globals) (hdead : v.dead ⊆ v'.dead) (hle : v.owned ≤ v'.owned) :
    Between pre fixed v' where
  pre := hs ▸ L.mono hdead hv.pre
  fixed p hp := ⟨hs ▸ (hv.fixed p hp).1, Multiset.mem_of_le hle (hv.fixed p hp).2⟩

section runners

variable (L : Lifecycle pre changed alloc release)

include L

theorem leaves_collectMalloc (n : ℕ) : Leaves (Between pre fixed) (collect malloc n) n := by
  intro v hv
  refine (runs_collectMalloc n).mono ?_
  rintro bs _ - ⟨hlen, rfl⟩
  exact ⟨hv.grow L rfl subset_rfl (Multiset.le_add_left _ _), ↑bs, hlen, rfl⟩

theorem leaves_malloc : Leaves (Between pre fixed) malloc 1 := by
  intro v hv
  refine runs_malloc.mono ?_
  rintro b _ - rfl
  exact ⟨hv.grow L rfl subset_rfl (Multiset.le_add_left _ _), {b}, rfl, rfl⟩

theorem leaves_medianFromArray : Leaves (Between pre fixed) medianFromArray 0 := by
  intro v hv
  refine runs_malloc.bind ?_
  rintro b _ rfl
  refine (runs_access (by simp)).bind ?_
  rintro - _ rfl
  refine (runs_free rfl).mono ?_
  rintro - _ - rfl
  exact ⟨hv.grow L rfl (Set.subset_insert _ _) le_rfl, 0, rfl, (zero_add _).symm⟩

theorem leaves_printStats {size : ℕ} (hsize : size ≠ 0) :
    Leaves (Between pre fixed) (printStats size) 0 := by
  rw [printStats, if_neg hsize]
  exact leaves_medianFromArray L

variable (fixed) (hfixed : ∀ p ∈ fixed, p.1 ∉ changed) {iter : ℕ} {accesses : ℕ → List Access}
  (hacc : ∀ i < iter, ∀ c ∈ accesses i, c.Within N L.fields (L.globals ++ fixed.map Prod.fst))

include hfixed hacc

theorem leaves_runHarness (arrays : ℕ) (h : Harness) {interval : ℕ}
    (hinterval : h.divides → interval ≠ 0) (havg : h.averages → N ≠ 0) :
    Leaves (Between pre fixed) (runHarness alloc release arrays h interval N iter accesses)
      (arrays + iter * h.left N L.leak) := by
  refine (leaves_collectMalloc L arrays).bind fun _ => ?_
  have hloop := Leaves.forM fun i (hi : i ∈ List.range iter) =>
    h.leaves L fixed hfixed hinterval havg (hacc i (List.mem_range.1 hi))
  rwa [List.length_range] at hloop

variable (hiter : iter ≠ 0)

include hiter

theorem leaves_runBreakdown (h : Harness) (hN : N ≠ 0) :
    Leaves (Between pre fixed) (runBreakdown alloc release h iter N accesses)
      (3 + iter * h.left N L.leak) := by
  have hprint : Leaves (Between pre fixed) (printStats iter) 0 := leaves_printStats L hiter
  exact (leaves_runHarness fixed L hfixed hacc 3 h (fun _ => hN) fun _ => hN).bind fun _ =>
    hprint.bind fun _ => hprint.bind fun _ => hprint

theorem leaves_runGpcoreRequestBrkdown (hN : N ≠ 0) :
    Leaves (Between pre fixed) (runGpcoreRequestBrkdown alloc release iter N accesses)
      (3 + iter * gpcoreRequestBreakdown.left N L.leak) := by
  have hprint : Leaves (Between pre fixed) (printStats iter) 0 := leaves_printStats L hiter
  exact (leaves_runHarness fixed L hfixed hacc 3 gpcoreRequestBreakdown nofun
    fun _ => hN).bind fun _ => hprint.bind fun _ => hprint.bind fun _ => leaves_medianFromArray L

theorem leaves_runGpcoreOfferedLoad (hN : N ≠ 0) :
    Leaves (Between pre fixed) (runGpcoreOfferedLoad alloc release iter N accesses)
      (iter * gpcoreClosedLoopTest.left N L.leak) := by
  have h := leaves_runHarness fixed L hfixed hacc 0 gpcoreClosedLoopTest (fun _ => hN) nofun
  rw [zero_add] at h
  exact h.bind fun _ => leaves_printStats L hiter

theorem leaves_runBlockingOfferedLoad (hN : N ≠ 0) :
    Leaves (Between pre fixed) (runBlockingOfferedLoad alloc release N iter accesses)
      (iter * blockingRequestOfferedLoad.left N L.leak) := by
  have h := leaves_runHarness fixed L hfixed hacc 0 blockingRequestOfferedLoad (fun _ => hN) nofun
  rw [zero_add] at h
  exact h.bind fun _ => leaves_printStats L hiter

/-- Each call writes its own samples, which the array has room for. -/
theorem leaves_runYieldingOfferedLoad {samples : ℕ} (hsamples : samples ≠ 0)
    (hfit : SamplesFit N samples iter) :
    Leaves (Between pre fixed) (runYieldingOfferedLoad alloc release samples N iter accesses)
      (iter * yieldingRequestOfferedLoad.left N L.leak) := by
  obtain ⟨hk, hm⟩ := hfit.samples_eq
  have hcall : ∀ i ∈ List.range iter, Leaves (Between pre fixed)
      (yieldingOfferedLoadCall alloc release samples N iter i (accesses i))
      (yieldingRequestOfferedLoad.left N L.leak) := by
    intro i hi
    have hi := List.mem_range.1 hi
    have hroom : ¬ iter * samples < i * samples + N / numRequestsBeforeStamp N samples := by
      rw [hm, ← Nat.succ_mul, not_lt]
      exact Nat.mul_le_mul_right _ hi
    rw [yieldingOfferedLoadCall, if_neg (hfit.callSizes_ne_none hi)]
    simp only [hroom, if_false]
    exact (yieldingRequestOfferedLoad.leaves L fixed hfixed (fun _ => hk) nofun (hacc i hi)).bind
      fun _ => .pure ()
  have hloop := Leaves.forM hcall
  rw [List.length_range] at hloop
  rw [runYieldingOfferedLoad,
    if_neg (not_or_intro hsamples (mulInt_natCast_ne_none.2 hfit.2.1))]
  exact hloop.bind fun _ => leaves_printStats L (Nat.mul_ne_zero hiter hsamples)

theorem leaves_runThreePhaseOffloadTimed (h : Harness) (hh : ¬ h.divides)
    (havg : h.averages → N ≠ 0) (stats prints : ℕ) :
    Leaves (Between pre fixed)
      (runThreePhaseOffloadTimed alloc release h stats prints iter N accesses)
      (4 + (1 + iter * h.left N L.leak)) := by
  have hprint : Leaves (Between pre fixed) (printStats iter) 0 := leaves_printStats L hiter
  have hprints := Leaves.forM (l := List.range prints) fun _ _ => hprint
  rw [Nat.mul_zero] at hprints
  have hloop : Leaves (Between pre fixed) (runHarness alloc release 0 h N N iter accesses)
      (0 + iter * h.left N L.leak) :=
    leaves_runHarness fixed L hfixed hacc 0 h (fun hd => absurd hd hh) havg
  rw [zero_add] at hloop
  refine (leaves_collectMalloc L 4).bind fun _ => (leaves_malloc L).bind fun _ v hv => ?_
  refine (runs_collectMalloc stats).bind ?_
  rintro arrays _ ⟨-, rfl⟩
  refine (hloop { v with owned := ↑arrays + v.owned }
    (hv.grow L rfl subset_rfl (Multiset.le_add_left _ _))).bind ?_
  rintro - v₁ ⟨hv₁, K₁, hK₁, hown₁⟩
  refine (hprints v₁ hv₁).bind ?_
  rintro - v₂ ⟨hv₂, K₂, hK₂, hown₂⟩
  have hown : v₂.owned = ↑arrays + (K₂ + K₁ + v.owned) := by
    rw [hown₂, hown₁]
    dsimp only
    abel
  refine (runs_freeAll hown).mono ?_
  rintro - v₃ hdead ⟨hs₃, hown₃⟩
  refine ⟨⟨hs₃ ▸ L.mono hdead hv₂.pre, fun p hp => ⟨hs₃ ▸ (hv₂.fixed p hp).1, ?_⟩⟩,
    K₂ + K₁, ?_, hown₃⟩
  · rw [hown₃]
    exact Multiset.mem_add.2 (.inr (hv.fixed p hp).2)
  · rw [Multiset.card_add, hK₁, hK₂, zero_add]

end runners

end XMPGym.HeapUse
