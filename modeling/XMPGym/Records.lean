import XMPGym.Dispatch

/-!
# Completion records and the count of completed requests

What every executor relies on: the record of a request that has not been started is pending, and
`requests_completed` counts the requests that are done.
-/

namespace XMPGym

variable {F L M : Type*}

/-! ## Completion records -/

/-- How the records can change in the next step: a request's own operations may only clear its
record, and the device writes a record only after its submission. -/
structure RecordRules (P : Program F L M) (submitted : M → ℕ → Prop) (s : Sys F L M) : Prop where
  op : ∀ i f c, s.running = .at (.request i) → (s.request i).code = .op f :: c → ∀ j,
    (submitted (s.instr i c (.op f)).mem j → submitted s.mem j ∨ j = i) ∧
      (P.hw.status (s.instr i c (.op f)).mem j = P.hw.status s.mem j ∨
        j = i ∧ P.hw.status (s.instr i c (.op f)).mem j = compStatusPending)
  device : ∀ m, P.hw.Moves s.mem m → ∀ j, (submitted m j → submitted s.mem j) ∧
    (P.hw.status m j = P.hw.status s.mem j ∨ submitted s.mem j)

/-- The assumption on completion records: all are pending and none is submitted at first, and every
reachable state obeys the rules. -/
structure RecordContract (P : Program F L M) (submitted : M → ℕ → Prop) (m₀ : M) : Prop where
  pending : ∀ i, P.hw.status m₀ i = compStatusPending
  unsubmitted : ∀ i, ¬ submitted m₀ i
  rules : ∀ s, Sys.Reachable P m₀ s → RecordRules P submitted s

/-- The record of a request that has not been started is pending, and not submitted. -/
def Recorded {N : ℕ} (P : Program F L M) (submitted : M → ℕ → Prop) (d : InOrder N) (m : M) :
    Prop :=
  ∀ i, d.stage i = .fresh → P.hw.status m i = compStatusPending ∧ ¬ submitted m i

/-- `requests_completed` against the requests that are done. -/
structure Counted {N : ℕ} (d : InOrder N) (s : Sys F L M) : Prop where
  count : s.requestsCompleted +
    (if d.turn = .resuming then completesLeft (s.request d.resumed).code else 0) =
      d.resumed + if d.turn = .resuming then 1 else 0
  waiting : ∀ i, d.stage i = .waiting → completesLeft (s.request i).code = 1

section records

variable {P : Program F L M} {submitted : M → ℕ → Prop} {m₀ : M} {N : ℕ} {d d' : InOrder N}
  {s s' : Sys F L M} {m : M}

theorem RecordContract.recorded_init (hc : RecordContract P submitted m₀) (d : InOrder N) :
    Recorded P submitted d m₀ :=
  fun i _ => ⟨hc.pending i, hc.unsubmitted i⟩

/-- A request changes its stage, and not back to that of one that has not been started. -/
theorem Recorded.change (h : Recorded P submitted d m) {i : ℕ} {st : Stage}
    (hst : d'.stage = Function.update d.stage i st) (hne : st ≠ .fresh) :
    Recorded P submitted d' m := by
  intro j hj
  rw [hst] at hj
  rcases eq_or_ne j i with rfl | hji
  · rw [Function.update_self] at hj
    exact absurd hj hne
  · rw [Function.update_of_ne hji] at hj
    exact h j hj

theorem Recorded.device (h : Recorded P submitted d s.mem) (hc : RecordRules P submitted s)
    (hm : P.hw.Moves s.mem m) : Recorded P submitted d m := by
  intro i hi
  obtain ⟨hpend, hsub⟩ := h i hi
  obtain ⟨hsub', hst⟩ := hc.device m hm i
  refine ⟨?_, fun hs => hsub (hsub' hs)⟩
  rcases hst with e | hs
  · rw [e, hpend]
  · exact absurd hs hsub

theorem Recorded.op (h : Recorded P submitted d s.mem) (hc : RecordRules P submitted s)
    (hf : Follows P d s) {i : ℕ} {f : L → M → L × M × Next} {c : List (Instr L M)}
    (hrun : s.running = .at (.request i)) (hcode : (s.request i).code = .op f :: c) :
    Recorded P submitted d (s.instr i c (.op f)).mem := by
  have hne : d.stage i ≠ .fresh := by
    rcases hf.running (i := i) (by rw [hrun]; rfl) with ⟨ht, rfl, -⟩ | ⟨ht, rfl, -⟩
    · simp [d.stage_started, ht]
    · simp [d.stage_resumed (d.resuming_lt ht), ht]
  intro j hj
  obtain ⟨hpend, hsub⟩ := h j hj
  obtain ⟨hs, hst⟩ := hc.op i f c hrun hcode j
  refine ⟨?_, fun h' => ?_⟩
  · rcases hst with e | ⟨-, e⟩
    · exact e.trans hpend
    · exact e
  · rcases hs h' with hs | rfl
    · exact hsub hs
    · exact hne hj

theorem counted_init (P : Program F L M) (m : M) (N : ℕ) :
    Counted (.idle : InOrder N) (.init P m) where
  count := rfl
  waiting i := by simp [InOrder.stage, InOrder.idle]

/-- Steps that leave the bodies and `requests_completed` alone. -/
theorem Counted.congr (h : Counted d s) (hr : s'.request = s.request)
    (hn : s'.requestsCompleted = s.requestsCompleted) : Counted d s' where
  count := by rw [hr, hn]; exact h.count
  waiting := hr ▸ h.waiting

theorem Counted.op (h : Counted d s) {i : ℕ} {f : L → M → L × M × Next} {c : List (Instr L M)}
    (hcode : (s.request i).code = .op f :: c) : Counted d (s.instr i c (.op f)) := by
  have e : ∀ j, completesLeft ((s.instr i c (.op f)).request j).code =
      completesLeft (s.request j).code := by
    intro j
    rcases eq_or_ne j i with rfl | hne
    · simp only [Sys.instr, Function.update_self, hcode]
      split_ifs <;> simp
    · simp only [Sys.instr, Function.update_of_ne hne]
  exact ⟨by rw [e]; exact h.count, fun j hj => (e j).trans (h.waiting j hj)⟩

/-- A request counts itself after its first swap. -/
theorem Follows.turn_of_completed (hP : CompletesOnce P) (hf : Follows P d s) {i : ℕ}
    {c : List (Instr L M)} (hrun : s.running = .at (.request i))
    (hcode : (s.request i).code = .completed :: c) : d.turn = .resuming := by
  rcases hf.running (i := i) (by rw [hrun]; rfl) with ⟨-, rfl, -, hsuf, hsw⟩ | ⟨ht, -⟩
  · exfalso
    rw [hcode, swapsLeft_completed] at hsw
    rw [hcode] at hsuf
    have h₁ := (hP _ _ hsuf).1 (by rwa [swapsLeft_completed])
    have h₂ := (hP _ c ((List.suffix_cons _ _).trans hsuf)).1 hsw
    rw [completesLeft_completed] at h₁
    omega
  · exact ht

theorem Counted.completed (hP : CompletesOnce P) (h : Counted d s) (hf : Follows P d s) {i : ℕ}
    {c : List (Instr L M)} (hrun : s.running = .at (.request i))
    (hcode : (s.request i).code = .completed :: c) :
    Counted d { s.setCode i c with requestsCompleted := s.requestsCompleted + 1 } := by
  obtain ⟨hcount, hwait⟩ := h
  rcases hf.running (i := i) (by rw [hrun]; rfl) with ⟨ht, -⟩ | ⟨ht, rfl, -⟩
  · rw [hf.turn_of_completed hP hrun hcode] at ht
    cases ht
  · refine ⟨?_, fun j hj => ?_⟩
    · simp only [ht, if_true, hcode, completesLeft_completed, Sys.setCode,
        Function.update_self] at hcount ⊢
      omega
    · have hne : j ≠ d.resumed := by
        rintro rfl
        simp [d.stage_resumed (d.resuming_lt ht), ht] at hj
      simp only [Sys.setCode, Function.update_of_ne hne]
      exact hwait j hj

/-- At a swap back to the executor, for the state `d'` that follows. -/
theorem Counted.back (hP : CompletesOnce P) (h : Counted d s) (hf : Follows P d s) {i n : ℕ}
    {c : List (Instr L M)} {x : Data} (hrun : s.running = .at (.request i))
    (hcode : (s.request i).code = .swap :: c) :
    (∀ ht : d.turn = .starting,
        Counted (d.yield ht) ((s.setCode i c).fcontextSwap (.request i) ⟨.executor, n⟩ x)) ∧
      ∀ ht : d.turn = .resuming,
        Counted (d.finish ht) ((s.setCode i c).fcontextSwap (.request i) ⟨.executor, n⟩ x) := by
  obtain ⟨hcount, hwait⟩ := h
  have other : ∀ j, j ≠ i →
      (((s.setCode i c).fcontextSwap (.request i) ⟨.executor, n⟩ x).request j).code =
        (s.request j).code := by
    intro j hne
    simp [Sys.setCode, Function.update_of_ne hne]
  have self :
      (((s.setCode i c).fcontextSwap (.request i) ⟨.executor, n⟩ x).request i).code = c := by
    simp [Sys.setCode]
  refine ⟨fun ht => ?_, fun ht => ?_⟩
  · rcases hf.running (i := i) (by rw [hrun]; rfl) with ⟨-, rfl, -, hsuf, hsw⟩ | ⟨ht', -⟩
    · refine ⟨by simpa [ht, InOrder.yield, Sys.setCode] using hcount, fun j hj => ?_⟩
      rcases eq_or_ne j d.started with rfl | hne
      · rw [self]
        rw [hcode] at hsuf hsw
        simpa using (hP _ _ hsuf).1 hsw
      · rw [d.stage_yield ht, Function.update_of_ne hne] at hj
        rw [other j hne]
        exact hwait j hj
    · rw [ht] at ht'
      cases ht'
  · rcases hf.running (i := i) (by rw [hrun]; rfl) with ⟨ht', -⟩ | ⟨-, rfl, -, hsuf, hsw⟩
    · rw [ht] at ht'
      cases ht'
    · have hc : completesLeft c = 0 := by
        rw [hcode] at hsuf hsw
        rw [swapsLeft_swap] at hsw
        exact (hP _ c ((List.suffix_cons _ _).trans hsuf)).2 (by omega)
      refine ⟨?_, fun j hj => ?_⟩
      · simp only [ht, if_true, hcode, completesLeft_swap, hc] at hcount
        simpa [InOrder.finish, Sys.setCode] using hcount
      · have hne : j ≠ d.resumed := by
          rintro rfl
          simp [d.stage_finish ht] at hj
        rw [d.stage_finish ht, Function.update_of_ne hne] at hj
        rw [other j hne]
        exact hwait j hj

theorem Counted.start (h : Counted d s) (ht : d.turn = .scheduler) (hlt : d.started < N) (f : F)
    (x : Data) : Counted (d.start hlt) (Sys.fcontextSwap { s with frame := f } .executor
      (fcontextCreate (.request d.started)) x) := by
  obtain ⟨hcount, hwait⟩ := h
  refine ⟨by simpa [ht, InOrder.start] using hcount, fun j hj => ?_⟩
  rcases eq_or_ne j d.started with rfl | hne
  · simp [d.stage_start ht hlt] at hj
  · rw [d.stage_start ht hlt, Function.update_of_ne hne] at hj
    simpa [fcontextCreate, Function.update_of_ne hne] using hwait j hj

theorem Counted.resume (h : Counted d s) (ht : d.turn = .scheduler) (hlt : d.resumed < d.started)
    (n : ℕ) (f : F) (x : Data) : Counted (d.resume hlt)
      (Sys.fcontextSwap { s with frame := f } .executor ⟨.request d.resumed, n⟩ x) := by
  obtain ⟨hcount, hwait⟩ := h
  have hone := hwait d.resumed (by simp [d.stage_resumed hlt, ht])
  refine ⟨?_, fun j hj => ?_⟩
  · simp [ht] at hcount
    simp [InOrder.resume, hone, hcount]
  · rcases eq_or_ne j d.resumed with rfl | hne
    · simpa using hone
    · rw [d.stage_resume ht hlt, Function.update_of_ne hne] at hj
      simpa [Function.update_of_ne hne] using hwait j hj

/-! ## Bodies that keep to the rules -/

/-- A step of a request leaves a suffix of every body. -/
theorem requestStep_code (s : Sys F L M) (k i : ℕ) :
    ((s.requestStep k).request i).code <:+ (s.request i).code := by
  simp only [Sys.requestStep]
  split
  · exact List.suffix_rfl
  · next ins c hc =>
      have hset : ((s.setCode k c).request i).code <:+ (s.request i).code := by
        rcases eq_or_ne i k with rfl | hne
        · simp [Sys.setCode, hc]
        · simp [Sys.setCode, Function.update_of_ne hne]
      cases ins with
      | op f =>
          rcases eq_or_ne i k with rfl | hne
          · simp only [Sys.instr, Function.update_self, hc]
            split_ifs
            · exact List.suffix_rfl
            · exact List.suffix_cons _ _
          · simp [Sys.instr, Function.update_of_ne hne]
      | completed => exact hset
      | swap =>
          simp only [Sys.instr]
          split
          · rwa [Sys.swap_code]
          · exact List.suffix_rfl

/-- In every reachable state what is left of a body is a suffix of it. -/
theorem code_suffix (hr : Sys.Reachable P m₀ s) (i : ℕ) : (s.request i).code <:+ P.request i := by
  induction hr with
  | refl => exact List.suffix_rfl
  | tail _ hs ih =>
      refine List.IsSuffix.trans ?_ ih
      cases hs with
      | hw m hm => exact List.suffix_rfl
      | thread _ hs =>
          simp only [Sys.thread] at hs
          split at hs <;> (try cases hs)
          · simp only [Sys.executorStep]
            split <;> simp
          · exact requestStep_code _ _ _
          · simp only [Sys.fillerStep]
            split
            · exact List.suffix_rfl
            · split <;> simp [Sys.setFillerPc]
            · exact List.suffix_rfl

/-- The assumption on records holds when every operation of every body keeps to the rules, and the
device does. -/
theorem recordContract_of_ops (P : Program F L M) (submitted : M → ℕ → Prop) (m₀ : M)
    (hpend : ∀ i, P.hw.status m₀ i = compStatusPending) (hsub : ∀ i, ¬ submitted m₀ i)
    (hop : ∀ i f, .op f ∈ P.request i → ∀ l m j,
      (submitted (f l m).2.1 j → submitted m j ∨ j = i) ∧
        (P.hw.status (f l m).2.1 j = P.hw.status m j ∨
          j = i ∧ P.hw.status (f l m).2.1 j = compStatusPending))
    (hdev : ∀ m m', P.hw.Moves m m' → ∀ j, (submitted m' j → submitted m j) ∧
      (P.hw.status m' j = P.hw.status m j ∨ submitted m j)) :
    RecordContract P submitted m₀ where
  pending := hpend
  unsubmitted := hsub
  rules s hr :=
    { op := fun i f c _ hc => by
        have hmem : .op f ∈ P.request i := by
          apply (code_suffix hr i).subset
          rw [hc]
          exact List.mem_cons_self
        exact hop i f hmem _ _
      device := fun m hm => hdev _ _ hm }

/-- What the operations of the requests and the moves of the hardware keep holds of the memory in
every reachable state. -/
theorem mem_invariant {R : M → Prop} (h₀ : R m₀)
    (hop : ∀ i f, .op f ∈ P.request i → ∀ l m, R m → R (f l m).2.1)
    (hdev : ∀ m m', P.hw.Moves m m' → R m → R m') (hr : Sys.Reachable P m₀ s) : R s.mem := by
  induction hr with
  | refl => exact h₀
  | tail hr hs ih =>
      cases hs with
      | hw m hm => exact hdev _ _ hm ih
      | thread _ hs =>
          simp only [Sys.thread] at hs
          split at hs <;> (try cases hs)
          · simp only [Sys.executorStep]
            split <;> simpa using ih
          · next i hrun =>
              simp only [Sys.requestStep]
              split
              · exact ih
              · next ins c hc =>
                  cases ins with
                  | op f =>
                      refine hop i f ((code_suffix hr i).subset ?_) _ _ ih
                      rw [hc]
                      exact List.mem_cons_self
                  | completed => exact ih
                  | swap =>
                      simp only [Sys.instr]
                      split <;> simpa [Sys.setCode] using ih
          · simp only [Sys.fillerStep]
            split
            · exact ih
            · split <;> simpa [Sys.setFillerPc] using ih
            · exact ih

end records

end XMPGym
