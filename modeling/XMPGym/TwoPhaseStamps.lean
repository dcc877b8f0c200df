import XMPGym.TwoPhaseResults

/-!
# Stamps of two-phase requests

A request that takes stamps takes each of them once, in order, some by way of a local variable.  The
clock does not go back, nor does it wrap around, so that the stamps of a request are in order
whichever executor runs it, and no difference of two of them that the statistics take wraps around.
-/

open Relation Transition

namespace XMPGym.TwoPhase

variable {B F : Type*}

/-! ## Stamps taken -/

/-- The stamps that a request has taken, in order, and which of them are in local variables. -/
abbrev Taken := List (ℕ × Bool)

namespace Taken

/-- The stamps after a statement. -/
def next (q : Taken) : Stmt → Option Taken
  | .stamp ts => if ts ∈ q.map Prod.fst then none else some (q ++ [(ts, false)])
  | .read ts => if ts ∈ q.map Prod.fst then none else some (q ++ [(ts, true)])
  | .store ts =>
      if (ts, true) ∈ q then some (q.map fun x => if x.1 = ts then (ts, false) else x) else none
  | _ => some q

/-- A stamp of request `i`. -/
def value (i : ℕ) (l : ℕ → ℕ) (m : Mem B) (x : ℕ × Bool) : ℕ :=
  if x.2 then l x.1 else m.stamps x.1 i

/-- The stamps are in order, none is earlier than `c₀` and none is in the future. -/
structure InOrder (c₀ i : ℕ) (q : Taken) (l : ℕ → ℕ) (m : Mem B) : Prop where
  nodup : (q.map Prod.fst).Nodup
  sorted : (q.map (value i l m)).Pairwise (· ≤ ·)
  first : ∀ x ∈ q, c₀ ≤ value i l m x
  last : ∀ x ∈ q, value i l m x ≤ m.clock
  clock : c₀ ≤ m.clock

section steps

variable {k : Kernels B} {c₀ i j : ℕ} {q q' : Taken} {l l' : ℕ → ℕ} {m m' : Mem B} {o : Stmt}
  {f : (ℕ → ℕ) → Mem B → (ℕ → ℕ) × Mem B × Next}

/-- The stamps are as they were, and the clock may have gone on. -/
theorem InOrder.congr (h : InOrder c₀ i q l m)
    (hv : ∀ x ∈ q, value i l' m' x = value i l m x) (hc : m.clock ≤ m'.clock) :
    InOrder c₀ i q l' m' where
  nodup := h.nodup
  sorted := by
    rw [List.map_congr_left hv]
    exact h.sorted
  first x hx := hv x hx ▸ h.first x hx
  last x hx := hv x hx ▸ (h.last x hx).trans hc
  clock := h.clock.trans hc

/-- A stamp is taken. -/
theorem InOrder.take (h : InOrder c₀ i q l m) {ts : ℕ} {b : Bool} (hts : ts ∉ q.map Prod.fst)
    (hv : ∀ x ∈ q, value i l' m' x = value i l m x) (hnew : value i l' m' (ts, b) = m.clock)
    (hc : m'.clock = m.clock) : InOrder c₀ i (q ++ [(ts, b)]) l' m' := by
  have h' := h.congr hv hc.ge
  refine ⟨?_, ?_, ?_, ?_, h'.clock⟩
  · rw [List.map_append, List.nodup_append]
    refine ⟨h.nodup, List.nodup_singleton _, fun x hx y hy e => ?_⟩
    rw [List.map_singleton, List.mem_singleton] at hy
    rw [e, hy] at hx
    exact hts hx
  · rw [List.map_append, List.pairwise_append]
    refine ⟨h'.sorted, by simp, fun y hy z hz => ?_⟩
    obtain ⟨x, hx, rfl⟩ := List.mem_map.1 hy
    obtain rfl : z = m.clock := by simpa [hnew] using hz
    exact hc ▸ h'.last x hx
  · intro x hx
    rcases List.mem_append.1 hx with hx | hx
    · exact h'.first x hx
    · rw [List.mem_singleton.1 hx, hnew]
      exact h.clock
  · intro x hx
    rcases List.mem_append.1 hx with hx | hx
    · exact h'.last x hx
    · rw [List.mem_singleton.1 hx, hnew, hc]

theorem value_stamp_of_ne {ts t : ℕ} {x : ℕ × Bool} (hne : x.1 ≠ ts) :
    value i l (m.stamp ts i t) x = value i l m x := by
  simp [value, Mem.stamp, Function.update_of_ne hne]

theorem value_stamp_other {ts t : ℕ} (hne : j ≠ i) (x : ℕ × Bool) :
    value j l (m.stamp ts i t) x = value j l m x := by
  unfold value Mem.stamp
  split_ifs
  · rfl
  · by_cases hx : x.1 = ts
    · subst hx
      simp [Function.update_of_ne hne]
    · simp [Function.update_of_ne hx]

/-- A stamp goes from its local variable to its place. -/
theorem InOrder.store (h : InOrder c₀ i q l m) {ts : ℕ} (hts : (ts, true) ∈ q) :
    InOrder c₀ i (q.map fun x => if x.1 = ts then (ts, false) else x) l
      (m.stamp ts i (l ts)) := by
  have hfst : (q.map fun x => if x.1 = ts then (ts, false) else x).map Prod.fst =
      q.map Prod.fst := by
    rw [List.map_map]
    refine List.map_congr_left fun x _ => ?_
    by_cases hx : x.1 = ts <;> simp [hx]
  have hv (x : ℕ × Bool) (hx : x ∈ q) :
      value i l (m.stamp ts i (l ts)) (if x.1 = ts then (ts, false) else x) =
        value i l m x := by
    by_cases hxts : x.1 = ts
    · -- the stamp is taken once only, so it is the one in the local variable
      obtain rfl : x = (ts, true) := List.inj_on_of_nodup_map h.nodup hx hts hxts
      simp [value, Mem.stamp]
    · rw [if_neg hxts]
      exact value_stamp_of_ne hxts
  refine ⟨hfst ▸ h.nodup, ?_, fun x hx => ?_, fun x hx => ?_, h.clock⟩
  · have hmap : (q.map fun x => if x.1 = ts then (ts, false) else x).map
        (value i l (m.stamp ts i (l ts))) = q.map (value i l m) := by
      rw [List.map_map]
      exact List.map_congr_left hv
    exact hmap ▸ h.sorted
  · obtain ⟨y, hy, rfl⟩ := List.mem_map.1 hx
    exact hv y hy ▸ h.first y hy
  · obtain ⟨y, hy, rfl⟩ := List.mem_map.1 hx
    exact hv y hy ▸ h.last y hy

/-- A statement takes at most one stamp, the latest one. -/
theorem InOrder.op (h : InOrder c₀ i q l m) (hn : q.next o = some q')
    (ho : o.instr k i = .op f) :
    ((f l m).2.2 = .next → InOrder c₀ i q' (f l m).1 (f l m).2.1) ∧
      ((f l m).2.2 = .stay → InOrder c₀ i q (f l m).1 (f l m).2.1) := by
  cases o <;> simp only [Stmt.instr, Instr.op.injEq, reduceCtorEq] at ho <;> subst ho <;>
    simp only [next, Option.ite_none_left_eq_some, Option.ite_none_right_eq_some,
      Option.some.injEq] at hn
  case stamp ts =>
    obtain ⟨hts, rfl⟩ := hn
    refine ⟨fun _ => h.take hts (fun x hx => value_stamp_of_ne fun e => ?_) ?_ rfl, by simp⟩
    · exact hts (e ▸ List.mem_map_of_mem hx)
    · simp [value, Mem.stamp]
  case read ts =>
    obtain ⟨hts, rfl⟩ := hn
    refine ⟨fun _ => h.take hts (fun x hx => ?_) (by simp [value]) rfl, by simp⟩
    have hne : x.1 ≠ ts := fun e => hts (e ▸ List.mem_map_of_mem hx)
    simp [value, Function.update_of_ne hne]
  case store ts =>
    obtain ⟨hts, rfl⟩ := hn
    exact ⟨fun _ => h.store hts, by simp⟩
  case submit | blockingSubmit =>
    subst hn
    dsimp only
    split
    · exact ⟨fun _ => h.congr (fun _ _ => rfl) le_rfl, by simp⟩
    · exact ⟨by simp, fun _ => h⟩
  all_goals
    subst hn
    exact ⟨fun _ => h.congr (fun _ _ => rfl) le_rfl, fun _ => h.congr (fun _ _ => rfl) le_rfl⟩

/-- A statement leaves the stamps of other requests and the clock alone. -/
theorem InOrder.other (h : InOrder c₀ j q l' m) (ho : o.instr k i = .op f) (hne : j ≠ i) :
    InOrder c₀ j q l' (f l m).2.1 := by
  cases o <;> simp only [Stmt.instr, Instr.op.injEq, reduceCtorEq] at ho <;> subst ho
  case stamp | store => exact h.congr (fun x _ => value_stamp_other hne x) le_rfl
  case submit | blockingSubmit =>
    dsimp only
    split <;> exact h.congr (fun _ _ => rfl) le_rfl
  all_goals exact h.congr (fun _ _ => rfl) le_rfl

/-- The device leaves the stamps alone, and the clock may go on. -/
theorem InOrder.move (h : InOrder c₀ i q l m) {x : DeviceMove B} (hx : m.move k x = some m') :
    InOrder c₀ i q l m' := by
  cases x <;> simp only [Mem.move, Option.ite_none_right_eq_some, Option.some.injEq] at hx
  case room | tick =>
    subst hx
    exact h.congr (fun _ _ => rfl) (by simp)
  all_goals
    obtain ⟨-, rfl⟩ := hx
    exact h.congr (fun _ _ => rfl) le_rfl

end steps

/-- The stamps of a request as an outline. -/
def phases (k : Kernels B) (N : ℕ) (t : List Stmt) (c₀ : ℕ) :
    Phases (Mem.hardware k) N (ℕ → ℕ) Stmt Taken where
  body := t
  instr := Stmt.instr k
  next := next
  holds i _ q l m := InOrder c₀ i q l m
  op i _ o _ p q hq f hins l m h := h.op hq hins
  completed i _ o p q hq hins l m h := by
    cases o <;> simp only [Stmt.instr, reduceCtorEq] at hins
    obtain rfl := Option.some.inj hq
    exact h
  swap i _ o p q hq hins l m h := by
    cases o <;> simp only [Stmt.instr, reduceCtorEq] at hins
    obtain rfl := Option.some.inj hq
    exact h
  resume _ _ _ _ _ h _ := h
  op_frame i _ o f hins l m j _ hne w p l' h := h.other hins hne
  hw_frame m m' hm j _ w p l h := by
    obtain ⟨x, hx⟩ := hm
    exact h.move hx

end Taken

/-! ## The executors -/

/-- When the executor of `P` returns, the `n` stamps of each request below `N` are in order and
within the run. -/
def StampsInOrder (n N : ℕ) (m₀ : Mem B) (P : Program F (ℕ → ℕ) (Mem B)) : Prop :=
  ∀ s, Sys.Reachable P m₀ s → s.running = .exited → ∀ i < N,
    (m₀.clock :: (List.range n).map (fun ts => s.mem.stamps ts i) ++ [s.mem.clock]).Pairwise
      (· ≤ ·)

/-- The body `t` takes `n` stamps, in order, and ends with a swap. -/
def TakesStamps (n : ℕ) (t : List Stmt) : Prop :=
  Phases.Leads Taken.next [] t ((List.range n).map (·, false)) ∧ t.getLast? = some .swap

instance (n : ℕ) (t : List Stmt) : Decidable (TakesStamps n t) :=
  inferInstanceAs (Decidable (_ ∧ _))

theorem yieldingRequestsStamped_spec : ∀ t ∈ yieldingRequestsStamped,
    TakesStamps 4 t ∧ CountsBetween t := by decide

theorem blockingRequestsStamped_spec : ∀ t ∈ blockingRequestsStamped,
    TakesStamps 4 t ∧ CountsAtEnd t := by decide

theorem cpuRequestsStamped_spec : ∀ t ∈ cpuRequestsStamped,
    TakesStamps 3 t ∧ CountsAtEnd t := by decide

/-- The stamps under any executor that keeps its guarantees. -/
theorem stampsInOrder {k : Kernels B} {t : List Stmt} {n N : ℕ} {m₀ : Mem B}
    {locals : ℕ → ℕ → ℕ} {x : Executor F (Mem B)} {f : F}
    (hS : Schedules ⟨Mem.hardware k, x, f, fun i => t.map (Stmt.instr k i), locals⟩ N m₀)
    (ht : TakesStamps n t) :
    StampsInOrder n N m₀
      ⟨Mem.hardware k, x, f, fun i => t.map (Stmt.instr k i), locals⟩ := by
  intro s hr hexit i hi
  have hinit (i : ℕ) (_ : i < N) :
      (Taken.phases k N t m₀.clock).holds i false [] (locals i) m₀ :=
    ⟨List.nodup_nil, List.Pairwise.nil, by simp, by simp, le_rfl⟩
  have h : Taken.InOrder m₀.clock i ((List.range n).map (·, false)) (s.request i).locals s.mem :=
    (Taken.phases k N t m₀.clock).exited hS (fun _ => rfl) ht.1 ht.2 (fun _ => rfl) hinit hr
      hexit hi
  have hvalues : ((List.range n).map (·, false)).map
      (Taken.value i (s.request i).locals s.mem) =
        (List.range n).map fun ts => s.mem.stamps ts i := by
    rw [List.map_map]
    exact List.map_congr_left fun _ _ => rfl
  rw [List.cons_append, List.pairwise_cons, List.pairwise_append, ← hvalues]
  refine ⟨fun y hy => ?_, h.sorted, List.pairwise_singleton _ _, fun y hy z hz => ?_⟩
  · rcases List.mem_append.1 hy with hy | hy
    · obtain ⟨x, hx, rfl⟩ := List.mem_map.1 hy
      exact h.first x hx
    · exact List.mem_singleton.1 hy ▸ h.clock
  · obtain ⟨x, hx, rfl⟩ := List.mem_map.1 hy
    exact List.mem_singleton.1 hz ▸ h.last x hx

/-- Under every executor, and whatever the device does when, the stamps of each request are in
order when the executor returns: four of a request that uses the device, and three of one that the
core serves by itself. -/
theorem twoPhase_stamps (k : Kernels B) (N interval timestamps idx : ℕ) (hroom : 2 ≤ timestamps)
    (locals : ℕ → ℕ → ℕ) {m₀ : Mem B} (hm : m₀.Quiet) :
    (∀ t ∈ yieldingRequestsStamped,
      (∀ e ∈ closedLoops interval N timestamps idx,
        StampsInOrder 4 N m₀ (closed k t locals e)) ∧
      ∀ e ∈ serialLoops N, StampsInOrder 4 N m₀ (serial k t locals e)) ∧
    ∀ e ∈ coreLoops N timestamps idx,
      (∀ t ∈ blockingRequestsStamped, StampsInOrder 4 N m₀ (core k t locals e)) ∧
      ∀ t ∈ cpuRequestsStamped, StampsInOrder 3 N m₀ (core k t locals e) := by
  refine ⟨fun t ht => ?_, fun e he => ⟨fun t ht => ?_, fun t ht => ?_⟩⟩
  · obtain ⟨htakes, hcounts⟩ := yieldingRequestsStamped_spec t ht
    exact ⟨fun e he => stampsInOrder (schedules_closedLoops he hcounts hm) htakes,
      fun e he => stampsInOrder (schedules_serialLoops he hcounts) htakes⟩
  · obtain ⟨htakes, hcounts⟩ := blockingRequestsStamped_spec t ht
    exact stampsInOrder (schedules_coreLoops hroom he hcounts) htakes
  · obtain ⟨htakes, hcounts⟩ := cpuRequestsStamped_spec t ht
    exact stampsInOrder (schedules_coreLoops hroom he hcounts) htakes

/-- A request whose job is served while it waits, with the clock going on. -/
def stampedRun : List (Option (DeviceMove (List ℕ))) :=
  List.replicate 5 none ++ [some .tick, some (.writes 0), some .tick, some (.completes 0), none,
    some .tick] ++ List.replicate 13 none

theorem twoPhase_stamps_one :
    ∃ s, Sys.schedule (Mem.move doubling)
        (core doubling blockingDecompAndScatterRequestStamped (fun _ _ => 0)
          (executeBlockingRequestsClosedSystemRequestBreakdown 1))
        threeEach stampedRun = some s ∧
      s.mem.stamps 3 0 - s.mem.stamps 0 0 = 3 ∧
      (0 :: (List.range 4).map (fun ts => s.mem.stamps ts 0) ++ [s.mem.clock]).Pairwise
        (· ≤ ·) := by
  have hquiet : threeEach.Quiet := ⟨fun _ => rfl, fun _ => rfl⟩
  obtain ⟨-, hcore⟩ := twoPhase_stamps doubling 1 1 2 0 le_rfl (fun _ _ => 0) hquiet
  have hmove : ∀ m a m', Mem.move doubling m a = some m' → (Mem.hardware doubling).Moves m m' :=
    fun _ a _ h => ⟨a, h⟩
  refine ⟨_, rfl, rfl, ?_⟩
  exact (hcore (executeBlockingRequestsClosedSystemRequestBreakdown 1) (by simp [coreLoops])).1
    blockingDecompAndScatterRequestStamped (by decide) _
    (Sys.reachable_of_schedule hmove (l := stampedRun) rfl) rfl 0 Nat.one_pos

end XMPGym.TwoPhase
