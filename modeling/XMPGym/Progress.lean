import Mathlib.Algebra.BigOperators.Intervals
import XMPGym.Lib.FairRun
import XMPGym.Requests

/-!
# Progress of the thread

The thread of the executors as a process in a fair run, with the hardware around it.  The
instructions that are left of the requests measure how far it has come: a request that runs gets
shorter with each step, unless it repeats an operation.
-/

open Relation Transition

namespace XMPGym

variable {F L M : Type*}

/-- The thread as a process; the hardware is its environment. -/
def Sys.processes (P : Program F L M) : Processes Unit (Sys F L M) where
  act _ := Sys.thread P
  env s t := ∃ m, P.hw.Moves s.mem m ∧ t = { s with mem := m }

theorem Sys.step_of_processes {P : Program F L M} {s t : Sys F L M}
    (h : (Sys.processes P).Step s t) : Sys.Step P s t := by
  cases h with
  | act i h => exact .thread _ _ h
  | env h =>
      obtain ⟨m, hm, rfl⟩ := h
      exact .hw _ _ hm

/-- The states of a fair run are reachable. -/
theorem Sys.reachable_fairRun {P : Program F L M} {m₀ : M} {r : FairRun (Sys.processes P)}
    (hr : r.state 0 = .init P m₀) (n : ℕ) : Sys.Reachable P m₀ (r.state n) := by
  have h := r.reachable n
  rw [hr] at h
  exact ReflTransGen.mono (fun _ _ => step_of_processes) _ _ h

/-- A schedule that brings the thread to its end makes a fair run. -/
theorem Sys.exists_fairRun {α : Type*} {move : M → α → Option M} {P : Program F L M} {m₀ : M}
    (hmove : ∀ m a m', move m a = some m' → P.hw.Moves m m') {s : Sys F L M}
    {l : List (Option α)} (h : Sys.schedule move P m₀ l = some s) (hend : s.thread P = none) :
    ∃ r : FairRun (Sys.processes P),
      r.state 0 = .init P m₀ ∧ ∀ n, l.length ≤ n → r.state n = s := by
  have hperform : ∀ u c t, Sys.perform move P u c = some t → (Sys.processes P).Step u t := by
    intro u c t hp
    cases c with
    | none => exact .act () hp
    | some a =>
        obtain ⟨m, hm, rfl⟩ := Option.map_eq_some_iff.1 hp
        exact .env ⟨m, hmove _ _ _ hm, rfl⟩
  obtain ⟨r, hfirst, hlast⟩ := Transition.exists_fairRun (Sys.perform move P) hperform h ()
    fun j hj => absurd rfl hj
  have h0 := (Option.some.inj (hfirst 0 (Nat.zero_le _))).symm
  have hstay : (Sys.processes P).next () s = s := by simp [Processes.next, Sys.processes, hend]
  refine ⟨r, h0, fun n hn => ?_⟩
  obtain ⟨k, rfl⟩ := Nat.exists_eq_add_of_le hn
  exact (hlast k).trans (Function.iterate_fixed hstay k)

/-! ## Operations -/

/-- No operation of a request leaves its entry function. -/
def NeverReturns (P : Program F L M) : Prop :=
  ∀ i f, Instr.op f ∈ P.request i → ∀ l m, (f l m).2.2 ≠ .ret

/-- No operation of a request is repeated. -/
def NeverRepeats (P : Program F L M) : Prop :=
  ∀ i f, Instr.op f ∈ P.request i → ∀ l m, (f l m).2.2 ≠ .stay

theorem neverReturns_yieldingRequest (P : Program F L M)
    {offload work : ℕ → List (L → M → L × M × Next)}
    (hP : P.request = fun i => yieldingRequest (offload i) (work i))
    (hret : ∀ i, ∀ f ∈ offload i ++ work i, ∀ l m, (f l m).2.2 ≠ .ret) : NeverReturns P := by
  intro i f hf l m
  rw [hP] at hf
  refine hret i f ?_ l m
  simpa [yieldingRequest] using hf

/-- Request `i` has control, and `c` is what is left of it. -/
structure AtCode (i : ℕ) (c : List (Instr L M)) (s : Sys F L M) : Prop where
  running : s.running = .at (.request i)
  code : (s.request i).code = c

/-- Every operation that a request repeats comes to its end. -/
def OpsEnd {P : Program F L M} (r : FairRun (Sys.processes P)) : Prop :=
  ∀ i c, r.LeadsTo (AtCode i c) fun s => ¬ AtCode i c s

/-- Request `i` has been entered and does not have control. -/
def Yielded (i : ℕ) (s : Sys F L M) : Prop := i ∈ s.starts ∧ s.running ≠ .at (.request i)

/-! ## The instructions left -/

/-- The number of instructions that the first `N` requests have left. -/
def codeLeft (N : ℕ) (s : Sys F L M) : ℕ := ∑ i ∈ Finset.range N, (s.request i).code.length

theorem codeLeft_congr {N : ℕ} {s t : Sys F L M}
    (h : ∀ i, (t.request i).code = (s.request i).code) : codeLeft N t = codeLeft N s := by
  unfold codeLeft
  exact Finset.sum_congr rfl fun i _ => by rw [h i]

@[simp] theorem codeLeft_swap (N : ℕ) (s : Sys F L M) (self : Ctx) (t : Handle Ctx) (x : Data) :
    codeLeft N (s.fcontextSwap self t x) = codeLeft N s :=
  codeLeft_congr fun i => by rw [Sys.swap_code]

/-- One of the requests gets shorter by one. -/
theorem codeLeft_succ {N i : ℕ} {s t : Sys F L M} (hi : i < N)
    (hself : (t.request i).code.length + 1 = (s.request i).code.length)
    (hother : ∀ j, j ≠ i → (t.request j).code = (s.request j).code) :
    codeLeft N t + 1 = codeLeft N s := by
  have hmem : i ∈ Finset.range N := Finset.mem_range.2 hi
  unfold codeLeft
  rw [← Finset.add_sum_erase _ _ hmem, ← Finset.add_sum_erase _ _ hmem, ← hself]
  have : ∑ j ∈ (Finset.range N).erase i, (t.request j).code.length =
      ∑ j ∈ (Finset.range N).erase i, (s.request j).code.length :=
    Finset.sum_congr rfl fun j hj => by rw [hother j (Finset.ne_of_mem_erase hj)]
  omega

/-! ## Steps of a request -/

/-- A step of the request `i` that has control: it repeats an operation, or it gets shorter and
keeps control or hands it to the executor. -/
inductive Advances (P : Program F L M) (i : ℕ) (s t : Sys F L M) : Prop where
  | stay (hrep : ¬ NeverRepeats P) (hrun : t.running = s.running)
      (hcode : ∀ j, (t.request j).code = (s.request j).code)
  | next (hrun : t.running = s.running ∨ t.running = .at .executor)
      (hself : (t.request i).code.length + 1 = (s.request i).code.length)
      (hother : ∀ j, j ≠ i → (t.request j).code = (s.request j).code)

section requests

variable {P : Program F L M} {s : Sys F L M} {i n : ℕ}

/-- A request in its body advances. -/
theorem InBody.advances (hP : NeverReturns P) (h : InBody P i n (s.request i)) (hn : 0 < n) :
    Advances P i s (s.requestStep i) := by
  obtain ⟨⟨⟨⟨o, k⟩, x⟩, harg, ho⟩, hsuf, hsw⟩ := h
  simp only at ho
  subst ho
  have hother (r : RequestFiber L M) (j : ℕ) (hj : j ≠ i) :
      (Function.update s.request i r j).code = (s.request j).code := by
    rw [Function.update_of_ne hj]
  cases hc : (s.request i).code with
  | nil =>
      rw [hc, swapsLeft_nil] at hsw
      omega
  | cons ins c =>
      rw [hc] at hsuf
      simp only [Sys.requestStep, hc]
      cases ins with
      | op f =>
          have hf : Instr.op f ∈ P.request i := hsuf.subset List.mem_cons_self
          have hrunning : (s.instr i c (.op f)).running = s.running := if_neg (hP i f hf _ _)
          by_cases hstay : (f (s.request i).locals s.mem).2.2 = .stay
          · refine .stay (fun hrep => hrep i f hf _ _ hstay) hrunning fun j => ?_
            rcases eq_or_ne j i with rfl | hj
            · simp [Sys.instr, hstay, hc]
            · exact hother _ j hj
          · exact .next (.inl hrunning) (by simp [Sys.instr, hstay, hc]) (hother _)
      | completed =>
          exact .next (.inl rfl) (by simp [Sys.instr, Sys.setCode, hc]) (hother _)
      | swap =>
          simp only [Sys.instr, harg]
          refine .next (.inr (by simp)) (by simp [Sys.setCode, hc]) fun j hj => ?_
          simpa [Sys.setCode] using hother _ j hj

/-- The request that has control is one of the first `N`. -/
theorem Follows.request_lt {N : ℕ} {d : InOrder N} (h : Follows P d s)
    (hrun : s.running = .at (.request i)) : i < N := by
  have hle := d.started_le
  rcases h.running (by rw [hrun]; rfl) with ⟨ht, rfl, -⟩ | ⟨ht, rfl, -⟩
  · exact d.starting_lt ht
  · have := d.resuming_lt ht
    omega

/-- A request that has control repeats an operation, or there is one instruction less. -/
theorem InBody.request_left {N : ℕ} (hP : NeverReturns P) (hb : InBody P i n (s.request i))
    (hn : 0 < n) (hi : i < N) (hrun : s.running = .at (.request i)) :
    (∃ c, AtCode i c s ∧ AtCode i c (s.requestStep i) ∧
      codeLeft N (s.requestStep i) = codeLeft N s) ∨
      codeLeft N (s.requestStep i) + 1 = codeLeft N s := by
  cases hb.advances hP hn with
  | stay _ hr hcode => exact .inl ⟨_, ⟨hrun, rfl⟩, ⟨hr.trans hrun, hcode i⟩, codeLeft_congr hcode⟩
  | next hr hself hother => exact .inr (codeLeft_succ hi hself hother)

theorem Follows.request_left {N : ℕ} {d : InOrder N} (hP : NeverReturns P) (h : Follows P d s)
    (hrun : s.running = .at (.request i)) :
    (∃ c, AtCode i c s ∧ AtCode i c (s.requestStep i) ∧
      codeLeft N (s.requestStep i) = codeLeft N s) ∨
      codeLeft N (s.requestStep i) + 1 = codeLeft N s := by
  obtain ⟨n, hn, hb⟩ := h.inBody hrun
  exact hb.request_left hP hn (h.request_lt hrun) hrun

end requests

/-- Requests do not leave their entry functions. -/
theorem NeverReturns.ne_returned {P : Program F L M} {m₀ : M} (hP : NeverReturns P)
    (hbody : ∀ s, Sys.Reachable P m₀ s → ∀ i, s.running = .at (.request i) →
      ∃ n, 0 < n ∧ InBody P i n (s.request i))
    {s : Sys F L M} (hr : Sys.Reachable P m₀ s) (i : ℕ) : s.running ≠ .returned i := by
  induction hr with
  | refl => simp [Sys.init]
  | @tail s t hr hs ih =>
      cases hs with
      | hw m hm => exact ih
      | thread _ hs =>
          simp only [Sys.thread] at hs
          split at hs <;> (try cases hs)
          · next hrun =>
              unfold Sys.executorStep
              split <;> simp [hrun]
          · next j hrun =>
              obtain ⟨n, hn, hb⟩ := hbody s hr j hrun
              cases hb.advances hP hn with
              | stay _ h => simp [h, hrun]
              | next h => rcases h with h | h <;> simp [h, hrun]
          · next j hrun =>
              unfold Sys.fillerStep
              split
              · simp [Sys.setFillerPc, Sys.initProbe, hrun]
              · split <;> simp [hrun]
              · simp [Sys.setFillerPc, hrun]

/-- In a fair run every operation comes to its end, where none is repeated. -/
theorem opsEnd_of_neverRepeats {P : Program F L M} {m₀ : M} (hP : NeverReturns P)
    (hrep : NeverRepeats P) {r : FairRun (Sys.processes P)} (hr : r.state 0 = .init P m₀)
    (hbody : ∀ s, Sys.Reachable P m₀ s → ∀ i, s.running = .at (.request i) →
      ∃ n, 0 < n ∧ InBody P i n (s.request i)) : OpsEnd r := by
  intro i c
  have key : r.LeadsTo (fun s => Sys.Reachable P m₀ s ∧ AtCode i c s) fun s => ¬ AtCode i c s := by
    refine .of_process () (fun s t hs h => ?_) (fun s h => ?_) fun s t h hs => ?_
    · by_cases ht : AtCode i c t
      · exact .inl ⟨h.1.tail (Sys.step_of_processes hs), ht⟩
      · exact .inr ht
    · simp [Sys.processes, Sys.thread, h.2.running]
    · obtain ⟨n, hn, hb⟩ := hbody s h.1 i h.2.running
      have hst : s.requestStep i = t := by
        simpa [Sys.processes, Sys.thread, h.2.running] using hs
      have hadv := hb.advances hP hn
      intro ht
      rw [hst] at hadv
      cases hadv with
      | stay h' => exact h' hrep
      | next _ hself _ =>
          rw [ht.code, h.2.code] at hself
          omega
  intro n hn
  exact key n ⟨Sys.reachable_fairRun hr n, hn⟩

/-- Request `i` has control, and what it waits for with `wait` has not come. -/
def Spins (wait : ℕ → M → Prop) (i : ℕ) (s : Sys F L M) : Prop :=
  s.running = .at (.request i) ∧ wait i s.mem

/-- In a fair run every operation comes to its end, where one is repeated only as long as its
request waits for something, which comes in the end. -/
theorem opsEnd_of_spins {P : Program F L M} {m₀ : M} (hP : NeverReturns P)
    {wait : ℕ → M → Prop}
    (hstay : ∀ i f, Instr.op f ∈ P.request i → ∀ l m, (f l m).2.2 = .stay → wait i m)
    (hkeep : ∀ i m m', P.hw.Moves m m' → wait i m' → wait i m)
    {r : FairRun (Sys.processes P)} (hr : r.state 0 = .init P m₀)
    (hbody : ∀ s, Sys.Reachable P m₀ s → ∀ i, s.running = .at (.request i) →
      ∃ n, 0 < n ∧ InBody P i n (s.request i))
    (hcome : ∀ i, r.LeadsTo (Spins wait i) fun s => ¬ Spins wait i s) : OpsEnd r := by
  intro i c
  -- what the request waits for has come, and it goes on
  have hgo : r.LeadsTo (fun s => Sys.Reachable P m₀ s ∧ AtCode i c s ∧ ¬ wait i s.mem)
      fun s => ¬ AtCode i c s := by
    have hthread : ∀ s t, Sys.Reachable P m₀ s ∧ AtCode i c s ∧ ¬ wait i s.mem →
        s.thread P = some t → ¬ AtCode i c t := by
      rintro s t ⟨hs, hat, hwait⟩ hst ht
      obtain ⟨n, hn, hb⟩ := hbody s hs i hat.running
      have hst' : s.requestStep i = t := by simpa [Sys.thread, hat.running] using hst
      have hcode := ht.code
      rw [← hst', ← hat.code] at hcode
      revert hcode
      cases hc : (s.request i).code with
      | nil =>
          have := hb.swaps
          rw [hc, swapsLeft_nil] at this
          omega
      | cons ins c' =>
          intro hcode
          cases hb.advances hP hn with
          | next _ hself _ =>
              rw [hcode, hc] at hself
              omega
          | stay _ _ _ =>
              simp only [Sys.requestStep, hc] at hcode
              cases ins with
              | op f =>
                  have hf : Instr.op f ∈ P.request i := hb.suffix.subset (by simp [hc])
                  have hne : (f (s.request i).locals s.mem).2.2 ≠ .stay :=
                    fun h => hwait (hstay i f hf _ _ h)
                  simp [Sys.instr, hne] at hcode
              | completed => simp [Sys.instr, Sys.setCode] at hcode
              | swap =>
                  obtain ⟨x, harg, -⟩ := hb.entered
                  simp [Sys.instr, harg, Sys.setCode] at hcode
    refine .of_process () (fun s t hs h => ?_) (fun s h => ?_) hthread
    · obtain ⟨hreach, hat, hwait⟩ := h
      cases hs with
      | act _ hs => exact .inr (hthread s t ⟨hreach, hat, hwait⟩ hs)
      | env hs =>
          obtain ⟨m, hm, rfl⟩ := hs
          exact .inl ⟨hreach.tail (.hw _ _ hm), ⟨hat.running, hat.code⟩,
            fun h => hwait (hkeep i _ _ hm h)⟩
    · simp [Sys.processes, Sys.thread, h.2.1.running]
  intro n hn
  by_contra hnever
  push Not at hnever
  obtain ⟨k, hk, hwait⟩ : ∃ k, n ≤ k ∧ ¬ wait i (r.state k).mem := by
    by_cases hwait : wait i (r.state n).mem
    · obtain ⟨k, hk, hnot⟩ := hcome i n ⟨hn.running, hwait⟩
      exact ⟨k, hk, fun h => hnot ⟨(hnever k hk).running, h⟩⟩
    · exact ⟨n, le_rfl, hwait⟩
  obtain ⟨l, hl, hend⟩ := hgo k ⟨Sys.reachable_fairRun hr k, hnever k hk, hwait⟩
  exact hend (hnever l (hk.trans hl))

/-! ## Descent -/

/-- What holds the thread up. -/
inductive Stall (L M : Type*) where
  /-- the record of request `i`, which is waited for -/
  | record (i : ℕ)
  /-- an operation of request `i`, when `c` is left of it -/
  | code (i : ℕ) (c : List (Instr L M))

/-- The thread is held up, where `waits` says for which record it waits. -/
def Stalls (waits : ℕ → Sys F L M → Prop) : Stall L M → Sys F L M → Prop
  | .record i, s => waits i s
  | .code i c, s => AtCode i c s

/-- From `s` the thread gets closer to its end unless something holds it up, and the hardware does
not take it further away nor make it wait. -/
structure Descends (P : Program F L M) (left : Sys F L M → ℕ) (waits : ℕ → Sys F L M → Prop)
    (s : Sys F L M) : Prop where
  thread : ∀ t, s.thread P = some t → (∃ i, waits i s) ∧ t = s ∨
    (∃ i c, AtCode i c s ∧ AtCode i c t ∧ left t = left s) ∨ left t < left s
  hw : ∀ m, P.hw.Moves s.mem m → left { s with mem := m } < left s ∨
    left { s with mem := m } = left s ∧ ∀ i, waits i { s with mem := m } → waits i s
  unique : ∀ i j, waits i s → waits j s → i = j
  running : ∀ i, waits i s → ∀ j, s.running ≠ .at (.request j)

section descent

variable {P : Program F L M} {m₀ : M} {s t : Sys F L M}

theorem Descends.step {left : Sys F L M → ℕ} {waits : ℕ → Sys F L M → Prop}
    (h : Descends P left waits s) (hs : (Sys.processes P).Step s t) :
    left t < left s ∨ left t = left s ∧
      (FairRun.Free (Stalls waits) s → FairRun.Free (Stalls waits) t) ∧
      ∀ k, Stalls waits k s → Stalls waits k t ∨ FairRun.Free (Stalls waits) t := by
  cases hs with
  | act _ hs =>
      rcases h.thread t hs with ⟨-, rfl⟩ | ⟨i, c, hi, hi', hleft⟩ | hlt
      · exact .inr ⟨rfl, id, fun k hk => .inl hk⟩
      · refine .inr ⟨hleft, fun hf => absurd hi (hf (.code i c)), fun k hk => .inl ?_⟩
        cases k with
        | record j => exact absurd hi.running (h.running j hk i)
        | code j c' =>
            have hij := hk.running
            rw [hi.running] at hij
            obtain rfl : i = j := by simpa using hij
            have hcode := hk.code
            rw [hi.code] at hcode
            exact hcode ▸ hi'
      · exact .inl hlt
  | env hs =>
      obtain ⟨m, hm, rfl⟩ := hs
      rcases h.hw m hm with hlt | ⟨heq, hback⟩
      · exact .inl hlt
      · refine .inr ⟨heq, fun hf k hk => ?_, fun k hk => ?_⟩
        · cases k with
          | record j => exact hf (.record j) (hback j hk)
          | code j c => exact hf (.code j c) ⟨hk.running, hk.code⟩
        · cases k with
          | record j =>
              by_cases hwait : waits j { s with mem := m }
              · exact .inl hwait
              · refine .inr fun k hk' => ?_
                cases k with
                | record j' => exact hwait (h.unique j' j (hback j' hk') hk ▸ hk')
                | code j' c => exact h.running j hk j' hk'.running
          | code j c => exact .inl ⟨hk.running, hk.code⟩

/-- The thread comes to its end, if nothing holds it up for ever. -/
theorem Descends.leadsTo_end {r : FairRun (Sys.processes P)} (left : Sys F L M → ℕ)
    (waits : ℕ → Sys F L M → Prop)
    (h : ∀ s, Sys.Reachable P m₀ s → Descends P left waits s) (hops : OpsEnd r)
    (hrec : ∀ i, r.LeadsTo (fun s => Sys.Reachable P m₀ s ∧ waits i s) fun s => ¬ waits i s) :
    r.LeadsTo (Sys.Reachable P m₀) fun s => s.thread P = none := by
  refine .of_stalls () left (Stalls waits) (fun s t hs hr => ?_) (fun s hr hf => ?_) fun k => ?_
  · exact .inr ⟨hr.tail (Sys.step_of_processes hs), (h s hr).step hs⟩
  · by_cases hend : s.thread P = none
    · exact .inl hend
    · refine .inr ⟨hend, fun t ht => .inr ?_⟩
      rcases (h s hr).thread t ht with ⟨⟨i, hwait⟩, -⟩ | ⟨i, c, hi, -⟩ | hlt
      · exact absurd hwait (hf (.record i))
      · exact absurd hi (hf (.code i c))
      · exact hlt
  · cases k with
    | code i c => exact (hops i c).mono (fun s hs => hs.2) fun s hs => .inr hs
    | record i => exact (hrec i).mono (fun s hs => hs) fun s hs => .inr hs

end descent

end XMPGym
