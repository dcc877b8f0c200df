import XMPGym.ThreePhaseComposable

/-!
# Do the stage sizes chain, and do they fit

What the stages of `three_phase_composable` are called with, for every payload size and every
compressed size, and exactly when each length is the one that was produced and each write has room.
-/

namespace XMPGym

/-! ## Allocation leaves what is in use alone -/

/-- What is in use on `h` is the same on `h'`. -/
structure SizedHeap.Extends (h h' : SizedHeap) : Prop where
  next : h.next ≤ h'.next
  capacity : ∀ addr < h.next, h'.bufs.capacity addr = h.bufs.capacity addr
  produced : ∀ addr < h.next, h'.bufs.produced addr = h.bufs.produced addr
  calls : h'.bufs.calls = h.bufs.calls
  endless : h'.bufs.endless = h.bufs.endless

namespace SizedHeap

theorem Extends.refl (h : SizedHeap) : h.Extends h :=
  ⟨Nat.le_refl _, fun _ _ => rfl, fun _ _ => rfl, rfl, rfl⟩

theorem Extends.trans {h₁ h₂ h₃ : SizedHeap} (h : h₁.Extends h₂) (h' : h₂.Extends h₃) :
    h₁.Extends h₃ where
  next := Nat.le_trans h.next h'.next
  capacity addr haddr := by
    rw [h'.capacity addr (Nat.lt_of_lt_of_le haddr h.next), h.capacity addr haddr]
  produced addr haddr := by
    rw [h'.produced addr (Nat.lt_of_lt_of_le haddr h.next), h.produced addr haddr]
  calls := by rw [h'.calls, h.calls]
  endless := by rw [h'.endless, h.endless]

theorem extends_malloc (size : ℤ) (h : SizedHeap) : h.Extends (h.malloc size).2 where
  next := Nat.le_succ _
  capacity _ haddr := Function.update_of_ne (Nat.ne_of_lt haddr) _ _
  produced _ _ := rfl
  calls := rfl
  endless := rfl

theorem extends_inputGenerator (gen : InputGenerator) (payloadSize : ℤ) (h : SizedHeap) :
    h.Extends (h.inputGenerator gen payloadSize).2.2 where
  next := Nat.le_succ _
  capacity _ haddr := Function.update_of_ne (Nat.ne_of_lt haddr) _ _
  produced _ haddr := Function.update_of_ne (Nat.ne_of_lt haddr) _ _
  calls := rfl
  endless := rfl

end SizedHeap

/-- Request `i` has the arguments that its round gave, and the other rounds leave its buffers
alone. -/
theorem fillSized_of_lt {one : ℕ → ComposableArgs → SizedHeap → ComposableArgs × SizedHeap}
    (hone : ∀ i a (h : SizedHeap), h.Extends (one i a h).2) (offArgs : ℕ → ComposableArgs)
    (h : SizedHeap) {n i : ℕ} (hi : i < n) :
    ∃ a₁ h₁, h.Extends h₁ ∧ (fillSized one n offArgs h).1 i = (one i a₁ h₁).1 ∧
      (one i a₁ h₁).2.Extends (fillSized one n offArgs h).2 := by
  have hall (n : ℕ) : h.Extends (fillSized one n offArgs h).2 := by
    induction n with
    | zero => exact .refl h
    | succ n ih => exact ih.trans (hone n _ _)
  induction n with
  | zero => omega
  | succ n ih =>
      simp only [fillSized]
      by_cases hlast : i = n
      · rw [hlast]
        exact ⟨_, _, hall n, Function.update_self _ _ _, .refl _⟩
      · obtain ⟨a₁, h₁, hext, hargs, hext'⟩ := ih (by omega)
        refine ⟨a₁, h₁, hext, ?_, hext'.trans (hone n _ _)⟩
        rw [Function.update_of_ne hlast, hargs]

section rounds

variable (z : Sizes) (gen : InputGenerator) (n ax post : ℤ) (i : ℕ) (a : ComposableArgs)
  (h : SizedHeap)

open SizedHeap

theorem extends_threeFuncSized : h.Extends (threeFuncSized z gen n ax post i a h).2 :=
  ((((extends_inputGenerator gen n h).trans (extends_malloc _ _)).trans (extends_malloc _ _)).trans
    (extends_malloc _ _)).trans (extends_malloc _ _)

theorem extends_nullTwoFuncSized : h.Extends (nullTwoFuncSized gen n ax post i a h).2 :=
  ((((extends_inputGenerator gen n h).trans (extends_malloc _ _)).trans (extends_malloc _ _)).trans
    (extends_malloc _ _)).trans (extends_malloc _ _)

theorem extends_axcoreAxcoreSized : h.Extends (axcoreAxcoreSized z gen n ax i a h).2 :=
  (((extends_inputGenerator gen n h).trans (extends_malloc _ _)).trans (extends_malloc _ _)).trans
    (extends_malloc _ _)

theorem extends_axcoreAxcoreCompressAecsSized :
    h.Extends (axcoreAxcoreCompressAecsSized z gen n i a h).2 :=
  (((extends_inputGenerator gen n h).trans (extends_malloc _ _)).trans (extends_malloc _ _)).trans
    (extends_malloc _ _)

theorem extends_memcpyCompGpcoreAxcoreNullSized :
    h.Extends (memcpyCompGpcoreAxcoreNullSized z gen n post i a h).2 :=
  ((((extends_inputGenerator gen n h).trans (extends_malloc _ _)).trans (extends_malloc _ _)).trans
    (extends_malloc _ _)).trans (extends_malloc _ _)

end rounds

/-! ## What the allocators give -/

/-- What request arguments and buffers have in common after all allocators: the input, its size, and
the room for the second stage. -/
structure Allotted (outsize axFuncOutput : ℤ) (input : ℕ) (a : ComposableArgs)
    (b : BufferSizes) : Prop where
  calls : b.calls = []
  endless : b.endless = false
  preProcInputSize : a.preProcInputSize = outsize
  input : b.produced input = outsize
  axFuncOutput : b.capacity a.axFuncOutput = max axFuncOutput 0

section allocators

variable {z : Sizes} {gen : InputGenerator} {n ax post : ℤ} {offArgs : ℕ → ComposableArgs}
  {N i : ℕ} {r : (ℕ → ComposableArgs) × SizedHeap}

/-- After an allocator, the arguments of a request are those of its round, nothing has been called,
and the buffers are as the round left them. -/
theorem fillSized_round {one : ℕ → ComposableArgs → SizedHeap → ComposableArgs × SizedHeap}
    (hone : ∀ i a (h : SizedHeap), h.Extends (one i a h).2) (hi : i < N)
    (hr : fillSized one N offArgs .empty = r) :
    ∃ a₁ h₁, r.1 i = (one i a₁ h₁).1 ∧ r.2.bufs.calls = [] ∧ r.2.bufs.endless = false ∧
      (one i a₁ h₁).2.Extends r.2 := by
  obtain ⟨a₁, h₁, hext, hargs, hext'⟩ := fillSized_of_lt hone offArgs .empty hi
  rw [hr] at hargs hext'
  exact ⟨a₁, h₁, hargs, (hext'.calls.trans (hone i a₁ h₁).calls).trans hext.calls,
    (hext'.endless.trans (hone i a₁ h₁).endless).trans hext.endless, hext'⟩

theorem allotted_threeFuncSized (hi : i < N)
    (hr : fillSized (threeFuncSized z gen n ax post) N offArgs .empty = r) :
    Allotted (gen n).2 ax (r.1 i).preProcInput (r.1 i) r.2.bufs ∧
      r.2.bufs.capacity (r.1 i).preProcOutput = max (toInt (z.getCompressBound n)) 0 ∧
      r.2.bufs.capacity (r.1 i).postProcOutput = max post 0 ∧
      (r.1 i).postProcInputSize = n := by
  obtain ⟨a₁, h₁, hargs, hcalls, hendless, hext⟩ :=
    fillSized_round (extends_threeFuncSized z gen n ax post) hi hr
  rw [hargs]
  have hnext : (threeFuncSized z gen n ax post i a₁ h₁).2.next = h₁.next + 5 := rfl
  refine ⟨⟨hcalls, hendless, rfl, (hext.produced h₁.next (by omega)).trans ?_,
    (hext.capacity (h₁.next + 2) (by omega)).trans ?_⟩,
    (hext.capacity (h₁.next + 1) (by omega)).trans ?_,
    (hext.capacity (h₁.next + 3) (by omega)).trans ?_, rfl⟩ <;>
    simp [threeFuncSized, SizedHeap.inputGenerator, SizedHeap.malloc]

theorem allotted_nullTwoFuncSized (hi : i < N)
    (hr : fillSized (nullTwoFuncSized gen n ax post) N offArgs .empty = r) :
    Allotted (gen n).2 ax (r.1 i).preProcOutput (r.1 i) r.2.bufs ∧
      r.2.bufs.capacity (r.1 i).postProcOutput = max post 0 ∧
      (r.1 i).postProcInputSize = n := by
  obtain ⟨a₁, h₁, hargs, hcalls, hendless, hext⟩ :=
    fillSized_round (extends_nullTwoFuncSized gen n ax post) hi hr
  rw [hargs]
  have hnext : (nullTwoFuncSized gen n ax post i a₁ h₁).2.next = h₁.next + 5 := rfl
  refine ⟨⟨hcalls, hendless, rfl, (hext.produced h₁.next (by omega)).trans ?_,
    (hext.capacity (h₁.next + 2) (by omega)).trans ?_⟩,
    (hext.capacity (h₁.next + 3) (by omega)).trans ?_, rfl⟩ <;>
    simp [nullTwoFuncSized, SizedHeap.inputGenerator, SizedHeap.malloc]

theorem allotted_axcoreAxcoreSized (hi : i < N)
    (hr : fillSized (axcoreAxcoreSized z gen n ax) N offArgs .empty = r) :
    Allotted (gen n).2 ax (r.1 i).preProcInput (r.1 i) r.2.bufs ∧
      r.2.bufs.capacity (r.1 i).preProcOutput = max (toInt (z.getCompressBound n)) 0 ∧
      (r.1 i).axFuncInputSize = n := by
  obtain ⟨a₁, h₁, hargs, hcalls, hendless, hext⟩ :=
    fillSized_round (extends_axcoreAxcoreSized z gen n ax) hi hr
  rw [hargs]
  have hnext : (axcoreAxcoreSized z gen n ax i a₁ h₁).2.next = h₁.next + 4 := rfl
  refine ⟨⟨hcalls, hendless, rfl, (hext.produced h₁.next (by omega)).trans ?_,
    (hext.capacity (h₁.next + 2) (by omega)).trans ?_⟩,
    (hext.capacity (h₁.next + 1) (by omega)).trans ?_, rfl⟩ <;>
    simp [axcoreAxcoreSized, SizedHeap.inputGenerator, SizedHeap.malloc]

theorem allotted_axcoreAxcoreCompressAecsSized (hi : i < N)
    (hr : fillSized (axcoreAxcoreCompressAecsSized z gen n) N offArgs .empty = r) :
    Allotted (gen n).2 z.maxDestSize (r.1 i).preProcInput (r.1 i) r.2.bufs ∧
      r.2.bufs.capacity (r.1 i).preProcOutput = max (z.maxDestSize : ℤ) 0 ∧
      (r.1 i).axFuncInputSize = n := by
  obtain ⟨a₁, h₁, hargs, hcalls, hendless, hext⟩ :=
    fillSized_round (extends_axcoreAxcoreCompressAecsSized z gen n) hi hr
  rw [hargs]
  have hnext : (axcoreAxcoreCompressAecsSized z gen n i a₁ h₁).2.next = h₁.next + 4 := rfl
  refine ⟨⟨hcalls, hendless, rfl, (hext.produced h₁.next (by omega)).trans ?_,
    (hext.capacity (h₁.next + 2) (by omega)).trans ?_⟩,
    (hext.capacity (h₁.next + 1) (by omega)).trans ?_, rfl⟩ <;>
    simp [axcoreAxcoreCompressAecsSized, SizedHeap.inputGenerator, SizedHeap.malloc]

theorem allotted_memcpyCompGpcoreAxcoreNullSized (hi : i < N)
    (hr : fillSized (memcpyCompGpcoreAxcoreNullSized z gen n post) N offArgs .empty = r) :
    Allotted (gen n).2 z.maxDestSize (r.1 i).preProcInput (r.1 i) r.2.bufs ∧
      r.2.bufs.capacity (r.1 i).preProcOutput = max (z.maxDestSize : ℤ) 0 ∧
      r.2.bufs.capacity (r.1 i).postProcOutput = max post 0 ∧
      (r.1 i).postProcInputSize = n := by
  obtain ⟨a₁, h₁, hargs, hcalls, hendless, hext⟩ :=
    fillSized_round (extends_memcpyCompGpcoreAxcoreNullSized z gen n post) hi hr
  rw [hargs]
  have hnext : (memcpyCompGpcoreAxcoreNullSized z gen n post i a₁ h₁).2.next = h₁.next + 5 := rfl
  refine ⟨⟨hcalls, hendless, rfl, (hext.produced h₁.next (by omega)).trans ?_,
    (hext.capacity (h₁.next + 2) (by omega)).trans ?_⟩,
    (hext.capacity (h₁.next + 1) (by omega)).trans ?_,
    (hext.capacity (h₁.next + 3) (by omega)).trans ?_, rfl⟩ <;>
    simp [memcpyCompGpcoreAxcoreNullSized, SizedHeap.inputGenerator, SizedHeap.malloc]

end allocators

/-! ## The calls of a request -/

section requests

variable (z : Sizes) (payloadSize : ℤ) {a : ComposableArgs} (b : BufferSizes)

/-- The calls of a three-phase request whose second stage writes `k` bytes. -/
theorem run_threePhase (hb : b.endless = false) (preProc ax postProc : StageFn)
    {t : List ThreePhaseOp} (inputSize available : ℤ) {k : ℤ}
    (hsize : preProc.outputSize z payloadSize (b.produced a.preProcInput) a.preProcInputSize =
      inputSize) (h₀ : 0 ≤ inputSize) (h : inputSize < 2 ^ 31)
    (havailable : (preProc.written z payloadSize (b.produced a.preProcInput)
      a.preProcInputSize).getD (b.produced a.preProcOutput) = available)
    (ht : t ∈ threePhaseTemplates) (hk : ax.written z payloadSize available inputSize = some k)
    (hret : preProc.returns (b.produced a.preProcInput) a.preProcInputSize = true)
    (hret' : ax.returns available inputSize = true) :
    ((RequestFn.threePhase t preProc ax postProc).run z payloadSize a b).map BufferSizes.calls =
      some (b.calls ++ [
        ⟨preProc, a.preProcInputSize, b.produced a.preProcInput,
          preProc.written z payloadSize (b.produced a.preProcInput) a.preProcInputSize,
          b.capacity a.preProcOutput⟩,
        ⟨ax, inputSize, available, some k, b.capacity a.axFuncOutput⟩,
        ⟨postProc, a.postProcInputSize, k, postProc.written z payloadSize k a.postProcInputSize,
          b.capacity a.postProcOutput⟩]) := by
  subst hsize
  have hrun : (RequestFn.threePhase t preProc ax postProc).run z payloadSize a b = _ :=
    runAlone_threePhase (m := .start b) rfl h₀ h ht
  simp only [SizedMem.start] at hrun
  rw [hrun, Option.map_some]
  generalize hb₁ : b.call z payloadSize preProc _ _ _ = b₁
  have hlive₁ : b₁.endless = false := hb₁ ▸ BufferSizes.endless_call hb hret
  have hcalls₁ := hb₁ ▸ BufferSizes.calls_call hb
  have hprod₁ : b₁.produced a.preProcOutput = available :=
    (hb₁ ▸ BufferSizes.produced_call hb).trans havailable
  have hcap₁ : b₁.capacity = b.capacity := hb₁ ▸ BufferSizes.capacity_call
  generalize hb₂ : b₁.call z payloadSize ax _ _ _ = b₂
  rw [← hprod₁] at hret' hk
  have hlive₂ : b₂.endless = false := hb₂ ▸ BufferSizes.endless_call hlive₁ hret'
  have hcalls₂ := hb₂ ▸ BufferSizes.calls_call hlive₁
  have hprod₂ : b₂.produced a.axFuncOutput = k := by
    rw [← hb₂, BufferSizes.produced_call hlive₁, hk, Option.getD_some]
  have hcap₂ : b₂.capacity = b.capacity := (hb₂ ▸ BufferSizes.capacity_call).trans hcap₁
  rw [BufferSizes.calls_call hlive₂, hcalls₂, hcalls₁, hk, hprod₁, hprod₂, hcap₁, hcap₂]
  simp

/-- The calls of a two-phase request whose first stage writes `k` bytes. -/
theorem run_twoPhase (hb : b.endless = false) (ax₁ ax₂ : StageFn) {k : ℤ}
    (h₀ : 0 ≤ a.preProcInputSize) (h : a.preProcInputSize < 2 ^ 31) (h₀' : 0 ≤ a.axFuncInputSize)
    (h' : a.axFuncInputSize < 2 ^ 31)
    (hk : ax₁.written z payloadSize (b.produced a.preProcInput) a.preProcInputSize = some k)
    (hret : ax₁.returns (b.produced a.preProcInput) a.preProcInputSize = true) :
    ((RequestFn.twoPhase (fun fns a => axcoreAxcoreTwoPhaseTimed fns a ++ [.swap]) ax₁ ax₂).run z
        payloadSize a b).map BufferSizes.calls =
      some (b.calls ++ [
        ⟨ax₁, a.preProcInputSize, b.produced a.preProcInput, some k, b.capacity a.preProcOutput⟩,
        ⟨ax₂, a.axFuncInputSize, k, ax₂.written z payloadSize k a.axFuncInputSize,
          b.capacity a.axFuncOutput⟩]) := by
  have hrun : (RequestFn.twoPhase (fun fns a => axcoreAxcoreTwoPhaseTimed fns a ++ [.swap]) ax₁
      ax₂).run z payloadSize a b = _ :=
    runAlone_twoPhase (m := .start b) rfl h₀ h h₀' h' 0
  rw [hrun]
  simp [BufferSizes.call, SizedMem.start, hb, hk, hret]

end requests

/-! ## The calls by application type -/

section settings

variable {z : Sizes} {payloadSize : ℤ} {c : Settings} (offArgs : ℕ → ComposableArgs) {N i : ℕ}
  {t : List ThreePhaseOp} (preProc ax postProc : StageFn) {k k' outsize : ℤ}

/-- Three phases after `three_func_allocator`, where the first two write `k'` and `k` bytes. -/
theorem stageCalls_threeFunc (hi : i < N) (ht : t ∈ threePhaseTemplates)
    (hc : c.allocatorFn = threeFuncSized z) (hgen : (c.inputGen payloadSize).2 = outsize)
    (h₀ : 0 ≤ k') (h : k' < 2 ^ 31)
    (hsize : preProc.outputSize z payloadSize outsize outsize = k')
    (hk' : preProc.written z payloadSize outsize outsize = some k')
    (hk : ax.written z payloadSize k' k' = some k) :
    c.stageCalls z payloadSize N offArgs (.threePhase t preProc ax postProc) i = some [
      ⟨preProc, outsize, outsize, some k', max (toInt (z.getCompressBound payloadSize)) 0⟩,
      ⟨ax, k', k', some k, max payloadSize 0⟩,
      ⟨postProc, payloadSize, k, postProc.written z payloadSize k payloadSize,
        max c.finalOutputSize 0⟩] := by
  unfold Settings.stageCalls
  rw [hc]
  generalize hr : fillSized _ N offArgs .empty = r
  obtain ⟨⟨hcalls, hendless, hsize', hin, hax⟩, hpre, hpost, hpostIn⟩ :=
    allotted_threeFuncSized hi hr
  rw [hgen] at hsize' hin
  have hrun := run_threePhase z payloadSize r.2.bufs hendless preProc ax postProc (a := r.1 i)
    k' k' (by rw [hin, hsize', hsize]) h₀ h
    (by rw [hin, hsize', hk', Option.getD_some]) ht hk (by rw [hin, hsize', preProc.returns_self])
    (ax.returns_self k')
  rw [hin, hsize', hk', hcalls, hax, hpre, hpost, hpostIn] at hrun
  exact hrun

/-- Three phases after `null_two_func_allocator`, where the second one writes `k` bytes. -/
theorem stageCalls_nullTwoFunc (hi : i < N) (ht : t ∈ threePhaseTemplates)
    (hc : c.allocatorFn = nullTwoFuncSized) (hgen : (c.inputGen payloadSize).2 = outsize)
    (h₀ : 0 ≤ outsize) (h : outsize < 2 ^ 31)
    (hk : ax.written z payloadSize outsize outsize = some k) :
    ∃ available capacity, c.stageCalls z payloadSize N offArgs
      (.threePhase t .nullFn ax postProc) i = some [
        ⟨.nullFn, outsize, available, none, capacity⟩,
        ⟨ax, outsize, outsize, some k, max payloadSize 0⟩,
        ⟨postProc, payloadSize, k, postProc.written z payloadSize k payloadSize,
          max c.finalOutputSize 0⟩] := by
  unfold Settings.stageCalls
  rw [hc]
  generalize hr : fillSized _ N offArgs .empty = r
  obtain ⟨⟨hcalls, hendless, hsize, hin, hax⟩, hpost, hpostIn⟩ := allotted_nullTwoFuncSized hi hr
  rw [hgen] at hsize hin
  have hrun := run_threePhase z payloadSize r.2.bufs hendless .nullFn ax postProc
    (a := r.1 i) outsize outsize hsize h₀ h hin ht hk rfl
    (ax.returns_self outsize)
  have hwritten : StageFn.nullFn.written z payloadSize (r.2.bufs.produced (r.1 i).preProcInput)
      (r.1 i).preProcInputSize = none := rfl
  rw [hwritten, hcalls, hsize, hax, hpost, hpostIn] at hrun
  exact ⟨_, _, hrun⟩

end settings

/-- No length that was fixed at allocation differs from what was produced. -/
def SizesChain (z : Sizes) (payloadSize : ℤ) (app : Option AppType) : Prop :=
  app ∈ [some .axAx, some .axGp, some .gpGp] → z.compressedSize payloadSize = payloadSize

/-- The buffers of the compressed payload have room for it, and those that the accelerator
compresses from and to have room for the payload. -/
def BuffersSuffice (z : Sizes) (payloadSize : ℤ) : Option AppType → Prop
  | some .gather => True
  | some .axGp | some .gpGp => z.compressedSize payloadSize ≤ payloadSize
  | some .axAxComp | some .gpAxComp => payloadSize ≤ z.maxDestSize
  | some .deser | some .decrypt | some .axAx | some .gpAx | none =>
      z.compressedSize payloadSize ≤ toInt (z.getCompressBound payloadSize)

/-- The calls of a request, up to one that does not return, are chained exactly when `chain` holds,
and they fit exactly when `fit` does.  Calls that fit return. -/
def CallsAre (calls : Option (List StageCall)) (chain fit : Prop) : Prop :=
  ∃ l, calls = some l ∧ ((∀ c ∈ l, c.Chained) ↔ chain) ∧ ((∀ c ∈ l, c.Fits) ↔ fit) ∧
    (fit → ∀ c ∈ l, c.Returns)

theorem callsAre_two {calls : Option (List StageCall)} {c₁ c₂ : StageCall} {chain fit : Prop}
    (h : calls = some [c₁, c₂]) (hchain : c₁.Chained ∧ c₂.Chained ↔ chain)
    (hfit : c₁.Fits ∧ c₂.Fits ↔ fit) (hret : fit → c₁.Returns ∧ c₂.Returns) :
    CallsAre calls chain fit := by
  refine ⟨_, h, ?_, ?_, ?_⟩
  · simpa using hchain
  · simpa using hfit
  · simpa using hret

theorem callsAre_three {calls : Option (List StageCall)} {c₁ c₂ c₃ : StageCall} {chain fit : Prop}
    (h : calls = some [c₁, c₂, c₃]) (hchain : c₁.Chained ∧ c₂.Chained ∧ c₃.Chained ↔ chain)
    (hfit : c₁.Fits ∧ c₂.Fits ∧ c₃.Fits ↔ fit)
    (hret : fit → c₁.Returns ∧ c₂.Returns ∧ c₃.Returns) : CallsAre calls chain fit := by
  refine ⟨_, h, ?_, ?_, ?_⟩
  · simpa using hchain
  · simpa using hfit
  · simpa using hret

section spec

variable {z : Sizes} {payloadSize : ℤ} (hs : 1 ≤ payloadSize) (hs' : payloadSize < 2 ^ 31)
  (hC : 0 < z.compressedSize payloadSize) (hC' : z.compressedSize payloadSize < 2 ^ 31)
  (offArgs : ℕ → ComposableArgs) {N i : ℕ} (hi : i < N) {request : RequestFn}
include hs hs' hC hC' hi

omit hs hs' in
/-- Deserialisation, decompression and hash. -/
theorem callsAre_deser {c : Settings} (hc : c = settings z payloadSize none)
    (hreq : request ∈ c.requestFns) :
    CallsAre (c.stageCalls z payloadSize N offArgs request i) True
      (z.compressedSize payloadSize ≤ toInt (z.getCompressBound payloadSize)) := by
  subst hc
  obtain ⟨t, ht, ax, hax, rfl⟩ : ∃ t ∈ threePhaseTemplates, ∃ ax : StageFn,
      (ax = .gpcoreDoDeflateDecompress ∨ ax = .iaaDecompress) ∧
        request = .threePhase t .deserFromBuf ax .hashBuf := by
    simp only [settings, Settings.requestFns, if_true, List.cons_append, List.nil_append,
      List.mem_cons, List.not_mem_nil, or_false] at hreq
    rcases hreq with rfl | rfl | rfl | rfl | rfl | rfl <;>
      exact ⟨_, by simp [threePhaseTemplates], _, by simp, rfl⟩
  have hcalls := stageCalls_threeFunc (c := settings z payloadSize none) offArgs .deserFromBuf ax
    .hashBuf hi ht rfl rfl (Int.le_of_lt hC) hC' rfl rfl
    (StageFn.written_decompress z payloadSize hax _)
  refine callsAre_three hcalls ?_ ?_ fun _ => ⟨rfl, ax.returns_self _, rfl⟩
  · simp [StageCall.Chained]
  · simp only [StageCall.fits_some, StageFn.written, settings]
    omega

omit hs hs' in
/-- Decompression and gathering. -/
theorem callsAre_gather (hreq : request ∈ (settings z payloadSize (some .gather)).requestFns) :
    CallsAre ((settings z payloadSize (some .gather)).stageCalls z payloadSize N offArgs request i)
      True True := by
  obtain ⟨t, ht, ax, hax, rfl⟩ : ∃ t ∈ threePhaseTemplates, ∃ ax : StageFn,
      (ax = .gpcoreDoDeflateDecompress ∨ ax = .iaaDecompress) ∧
        request = .threePhase t .nullFn ax .gatherAccess := by
    simp only [settings, Settings.requestFns, if_true, List.cons_append, List.nil_append,
      List.mem_cons, List.not_mem_nil, or_false] at hreq
    rcases hreq with rfl | rfl | rfl | rfl | rfl | rfl <;>
      exact ⟨_, by simp [threePhaseTemplates], _, by simp, rfl⟩
  obtain ⟨x, y, hcalls⟩ := stageCalls_nullTwoFunc (c := settings z payloadSize (some .gather))
    offArgs ax .gatherAccess hi ht rfl rfl (Int.le_of_lt hC) hC'
    (StageFn.written_decompress z payloadSize hax _)
  refine callsAre_three hcalls ?_ ?_ fun _ => ⟨rfl, ax.returns_self _, rfl⟩
  · simp [StageCall.Chained, StageFn.reads]
  · simp only [StageCall.fits_some, StageCall.fits_none, true_and, iff_true, StageFn.written,
      settings, numAccesses]
    omega

/-- Copy on an accelerator, decompression on another. -/
theorem callsAre_axAx (hreq : request ∈ (settings z payloadSize (some .axAx)).requestFns) :
    CallsAre ((settings z payloadSize (some .axAx)).stageCalls z payloadSize N offArgs request i)
      (z.compressedSize payloadSize = payloadSize)
      (z.compressedSize payloadSize ≤ toInt (z.getCompressBound payloadSize)) := by
  obtain rfl : request = memcpyDecompAxcoreAxcoreStamped := by
    simpa [settings, Settings.requestFns] using hreq
  unfold Settings.stageCalls
  generalize hr : fillSized _ N offArgs .empty = r
  obtain ⟨⟨hcalls, hendless, hsize, hin, hax⟩, hpre, haxIn⟩ := allotted_axcoreAxcoreSized hi hr
  have hrun := run_twoPhase z payloadSize r.2.bufs hendless .dsaMemcpy .iaaDecompress
    (hsize ▸ Int.le_of_lt hC) (hsize ▸ hC') (haxIn ▸ by omega) (haxIn ▸ hs') rfl rfl
  rw [hcalls, hsize, hin, hax, hpre, haxIn] at hrun
  refine callsAre_two hrun ?_ ?_ fun _ => ⟨rfl, rfl⟩
  · simp [StageCall.Chained, StageFn.reads, settings, genCompressedRequest]
    exact eq_comm
  · rw [and_iff_left (StageCall.fits_decompress z (.inr rfl) (by omega)), StageCall.fits_some]
    simp only [settings, genCompressedRequest]
    omega

omit hC hC' in
/-- Copy on an accelerator, compression on another. -/
theorem callsAre_axAxComp (hreq : request ∈ (settings z payloadSize (some .axAxComp)).requestFns) :
    CallsAre
      ((settings z payloadSize (some .axAxComp)).stageCalls z payloadSize N offArgs request i) True
      (payloadSize ≤ z.maxDestSize) := by
  obtain rfl : request = memcpyCompAxcoreAxcoreStamped := by
    simpa [settings, Settings.requestFns] using hreq
  unfold Settings.stageCalls
  generalize hr : fillSized _ N offArgs .empty = r
  obtain ⟨⟨hcalls, hendless, hsize, hin, hax⟩, hpre, haxIn⟩ :=
    allotted_axcoreAxcoreCompressAecsSized hi hr
  have hsize' : (r.1 i).preProcInputSize = payloadSize := hsize
  have hrun := run_twoPhase z payloadSize r.2.bufs hendless .dsaMemcpy .iaaCompress
    (hsize' ▸ by omega) (hsize' ▸ hs') (haxIn ▸ by omega) (haxIn ▸ hs') rfl rfl
  rw [hcalls, hsize, hin, hax, hpre, haxIn] at hrun
  refine callsAre_two hrun ?_ ?_ fun _ => ⟨rfl, rfl⟩
  · simp [StageCall.Chained, settings, genPlaintextRequest]
  · simp only [StageCall.fits_some, StageFn.written, settings, genPlaintextRequest]
    omega

omit hs hs' in
/-- A copy, on an accelerator or by the core, and decompression by the core. -/
theorem callsAre_copyThenGp {app : AppType} (happ : app ∈ [AppType.axGp, AppType.gpGp])
    (hreq : request ∈ (settings z payloadSize (some app)).requestFns) :
    CallsAre ((settings z payloadSize (some app)).stageCalls z payloadSize N offArgs request i)
      (z.compressedSize payloadSize = payloadSize)
      (z.compressedSize payloadSize ≤ payloadSize) := by
  obtain ⟨t, ht, ax, hax, hreads, rfl⟩ : ∃ t ∈ threePhaseTemplates, ∃ ax : StageFn,
      (∀ n, ax.written z payloadSize n n = some n) ∧ ax.reads = true ∧
        request = .threePhase t .nullFn ax .gpcoreDoDeflateDecompress := by
    simp only [List.mem_cons, List.not_mem_nil, or_false] at happ
    rcases happ with rfl | rfl <;>
    · simp only [settings, Settings.requestFns, if_true, if_false, reduceCtorEq, List.append_nil,
        List.nil_append, List.mem_cons, List.not_mem_nil, or_false] at hreq
      exact ⟨_, by simp [threePhaseTemplates], _, fun _ => rfl, rfl, hreq⟩
  have hset : (settings z payloadSize (some app)).allocatorFn = nullTwoFuncSized ∧
      ((settings z payloadSize (some app)).inputGen payloadSize).2 =
        z.compressedSize payloadSize ∧
      (settings z payloadSize (some app)).finalOutputSize = payloadSize := by
    simp only [List.mem_cons, List.not_mem_nil, or_false] at happ
    rcases happ with rfl | rfl <;> exact ⟨rfl, rfl, rfl⟩
  obtain ⟨x, y, hcalls⟩ := stageCalls_nullTwoFunc (c := settings z payloadSize (some app))
    offArgs ax .gpcoreDoDeflateDecompress hi ht hset.1 hset.2.1 (Int.le_of_lt hC) hC' (hax _)
  refine callsAre_three hcalls ?_ ?_ fun hle => ⟨rfl, ax.returns_self _, ?_⟩
  · simp [StageCall.Chained, StageFn.reads]
    exact eq_comm
  · rw [hset.2.2, and_iff_left (StageCall.fits_decompress z (.inl rfl) (by omega)),
      StageCall.fits_none, StageCall.fits_some, true_and]
    omega
  · exact decide_eq_true (.inr hle)

omit hs hs' in
/-- A copy by the core and decompression on an accelerator. -/
theorem callsAre_gpAx (hreq : request ∈ (settings z payloadSize (some .gpAx)).requestFns) :
    CallsAre ((settings z payloadSize (some .gpAx)).stageCalls z payloadSize N offArgs request i)
      True (z.compressedSize payloadSize ≤ toInt (z.getCompressBound payloadSize)) := by
  obtain rfl : request = memcpyDecompGpcoreAxcoreStamped := by
    simpa [settings, Settings.requestFns] using hreq
  have hcalls := stageCalls_threeFunc (c := settings z payloadSize (some .gpAx))
    (t := blockingThreePhaseRequest true) offArgs .gpcoreDoMemcpy .iaaDecompress
    .nullFn hi (by simp [threePhaseTemplates]) rfl rfl (Int.le_of_lt hC) hC' rfl rfl
    (StageFn.written_decompress z payloadSize (Or.inr rfl) _)
  refine callsAre_three hcalls ?_ ?_ fun _ => ⟨rfl, rfl, rfl⟩
  · simp [StageCall.Chained, StageFn.reads]
  · simp only [StageCall.fits_some, StageCall.fits_none, and_true, StageFn.written, settings,
      genCompressedRequest]
    omega

omit hC hC' in
/-- A copy by the core and compression on an accelerator. -/
theorem callsAre_gpAxComp (hreq : request ∈ (settings z payloadSize (some .gpAxComp)).requestFns) :
    CallsAre
      ((settings z payloadSize (some .gpAxComp)).stageCalls z payloadSize N offArgs request i) True
      (payloadSize ≤ z.maxDestSize) := by
  obtain rfl : request = memcpyCompGpcoreAxcoreStamped := by
    simpa [settings, Settings.requestFns] using hreq
  unfold Settings.stageCalls
  generalize hr : fillSized _ N offArgs .empty = r
  obtain ⟨⟨hcalls, hendless, hsize, hin, hax⟩, hpre, hpost, hpostIn⟩ :=
    allotted_memcpyCompGpcoreAxcoreNullSized hi hr
  have hsize' : (r.1 i).preProcInputSize = payloadSize := hsize
  have hin' : r.2.bufs.produced (r.1 i).preProcInput = payloadSize := hin
  have hrun := run_threePhase z payloadSize (a := r.1 i) r.2.bufs hendless .gpcoreDoMemcpy
    .iaaCompress .nullFn payloadSize payloadSize
    (t := gpcoreIaaAecsAxcoreGpcoreThreePhase ++ completeRequestAndSwitchToScheduler)
    hsize' (by omega) hs' hsize' (by simp [threePhaseTemplates]) rfl rfl rfl
  rw [hcalls, hsize', hax, hpre, hpost, hpostIn, hin'] at hrun
  refine callsAre_three hrun ?_ ?_ fun _ => ⟨rfl, rfl, rfl⟩
  · simp [StageCall.Chained, StageFn.reads]
  · simp only [StageCall.fits_some, StageCall.fits_none, and_true, StageFn.written]
    omega

/-- Every request that `main` runs. -/
theorem callsAre_settings (app : Option AppType)
    (hreq : request ∈ (settings z payloadSize app).requestFns) :
    CallsAre ((settings z payloadSize app).stageCalls z payloadSize N offArgs request i)
      (SizesChain z payloadSize app) (BuffersSuffice z payloadSize app) := by
  match app, hreq with
  | none, hreq =>
      simpa [SizesChain, BuffersSuffice] using callsAre_deser hC hC' offArgs hi rfl hreq
  | some .deser, hreq =>
      simpa [SizesChain, BuffersSuffice] using
        callsAre_deser (c := settings z payloadSize (some .deser)) hC hC' offArgs hi rfl hreq
  | some .decrypt, hreq =>
      simpa [SizesChain, BuffersSuffice] using
        callsAre_deser (c := settings z payloadSize (some .decrypt)) hC hC' offArgs hi rfl hreq
  | some .gather, hreq =>
      simpa [SizesChain, BuffersSuffice] using callsAre_gather hC hC' offArgs hi hreq
  | some .axAx, hreq =>
      simpa [SizesChain, BuffersSuffice] using callsAre_axAx hs hs' hC hC' offArgs hi hreq
  | some .axGp, hreq =>
      simpa [SizesChain, BuffersSuffice] using
        callsAre_copyThenGp hC hC' offArgs hi (by decide) hreq
  | some .gpGp, hreq =>
      simpa [SizesChain, BuffersSuffice] using
        callsAre_copyThenGp hC hC' offArgs hi (by decide) hreq
  | some .gpAx, hreq =>
      simpa [SizesChain, BuffersSuffice] using callsAre_gpAx hC hC' offArgs hi hreq
  | some .axAxComp, hreq =>
      simpa [SizesChain, BuffersSuffice] using callsAre_axAxComp hs hs' offArgs hi hreq
  | some .gpAxComp, hreq =>
      simpa [SizesChain, BuffersSuffice] using callsAre_gpAxComp hs hs' offArgs hi hreq

/-- Where the buffers suffice, every stage writes inside its buffer and returns. -/
theorem stageCalls_return {app : Option AppType}
    (hreq : request ∈ (settings z payloadSize app).requestFns)
    (hfit : BuffersSuffice z payloadSize app) :
    ∃ calls ∈ (settings z payloadSize app).stageCalls z payloadSize N offArgs request i,
      ∀ c ∈ calls, c.Fits ∧ c.Returns := by
  obtain ⟨l, hl, -, hfits, hret⟩ := callsAre_settings hs hs' hC hC' offArgs hi app hreq
  exact ⟨l, hl, fun c hc => ⟨hfits.2 hfit c hc, hret hfit c hc⟩⟩

end spec

/-! ## The results -/

/-- In a request that `main` runs each stage that is called and reads its input is given as many
bytes as were produced there, if and only if no stage after a copy of the compressed payload is
given the payload size, or the two sizes are equal. -/
theorem stageCalls_chained_iff (z : Sizes) (payloadSize : ℤ) (hs : 1 ≤ payloadSize)
    (hs' : payloadSize < 2 ^ 31) (hC : 0 < z.compressedSize payloadSize)
    (hC' : z.compressedSize payloadSize < 2 ^ 31) (app : Option AppType) (request : RequestFn)
    (hreq : request ∈ (settings z payloadSize app).requestFns) (totalRequests : ℕ)
    (offArgs : ℕ → ComposableArgs) (i : ℕ) (hi : i < totalRequests) :
    (∃ calls,
        (settings z payloadSize app).stageCalls z payloadSize totalRequests offArgs request i =
          some calls ∧ ∀ c ∈ calls, c.Chained) ↔
      (app ∈ [some .axAx, some .axGp, some .gpGp] →
        z.compressedSize payloadSize = payloadSize) := by
  obtain ⟨l, hl, hchain, -, -⟩ := callsAre_settings hs hs' hC hC' offArgs hi app hreq
  rw [hl]
  constructor
  · rintro ⟨calls, hcalls, h⟩
    rw [← Option.some.inj hcalls] at h
    exact hchain.1 h
  · intro h
    exact ⟨l, rfl, hchain.2 h⟩

/-- The sizes of the payloads of 1 and of 1024 bytes. -/
def twoPayloads : Sizes where
  getCompressBound n := (n + 30).toNat
  compressedSize n := if n = 1 then 3 else 18
  messageSize n := if n = 1 then 45 else 60
  maxDestSize := 2097152
  iaaCompressedSize _ := 100
  cutSize _ _ := 0

/-- Arguments that are not set yet. -/
def unsetArgs (_ : ℕ) : ComposableArgs := ⟨⟨0, 0, 0, 0, 0, 0, 0, 0, 0, 0, 0⟩, 0⟩

theorem stageCalls_chained_gpAx :
    ∃ calls, (settings twoPayloads 1024 (some .gpAx)).stageCalls twoPayloads 1024 2 unsetArgs
        memcpyDecompGpcoreAxcoreStamped 1 = some calls ∧ ∀ c ∈ calls, c.Chained :=
  (stageCalls_chained_iff twoPayloads 1024 (by decide) (by decide) (by decide) (by decide)
    (some .gpAx) memcpyDecompGpcoreAxcoreStamped List.mem_cons_self 2 unsetArgs 1 (by decide)).2
    fun h => absurd h (by decide)

/-- The 18 bytes that are copied are decompressed as if they were 1024. -/
theorem stageCalls_not_chained :
    (settings twoPayloads 1024 (some .axAx)).stageCalls twoPayloads 1024 1 unsetArgs
        memcpyDecompAxcoreAxcoreStamped 0 =
      some [⟨.dsaMemcpy, 18, 18, some 18, 1054⟩, ⟨.iaaDecompress, 1024, 18, some 1024, 1024⟩] ∧
    ¬ StageCall.Chained ⟨.iaaDecompress, 1024, 18, some 1024, 1024⟩ :=
  ⟨by decide, fun h => absurd (h rfl) (by decide)⟩

/-- The stages that a request which `main` runs calls do not write past their buffers if and only if
the buffers that its pairing is allocated suffice.  They are all called, and the last one is
`gpcore_do_deflate_decompress` when it does not return. -/
theorem stageCalls_fit_iff (z : Sizes) (payloadSize : ℤ) (hs : 1 ≤ payloadSize)
    (hs' : payloadSize < 2 ^ 31) (hC : 0 < z.compressedSize payloadSize)
    (hC' : z.compressedSize payloadSize < 2 ^ 31) (app : Option AppType) (request : RequestFn)
    (hreq : request ∈ (settings z payloadSize app).requestFns) (totalRequests : ℕ)
    (offArgs : ℕ → ComposableArgs) (i : ℕ) (hi : i < totalRequests) :
    (∃ calls,
        (settings z payloadSize app).stageCalls z payloadSize totalRequests offArgs request i =
          some calls ∧ ∀ c ∈ calls, c.Fits) ↔
      BuffersSuffice z payloadSize app := by
  obtain ⟨l, hl, -, hfit, -⟩ := callsAre_settings hs hs' hC hC' offArgs hi app hreq
  rw [hl]
  constructor
  · rintro ⟨calls, hcalls, h⟩
    rw [← Option.some.inj hcalls] at h
    exact hfit.1 h
  · intro h
    exact ⟨l, rfl, hfit.2 h⟩

theorem stageCalls_fit_axGp :
    ∃ calls, (settings twoPayloads 1024 (some .axGp)).stageCalls twoPayloads 1024 2 unsetArgs
        memcpyDecompAxcoreGpcoreStamped 1 = some calls ∧ ∀ c ∈ calls, c.Fits :=
  (stageCalls_fit_iff twoPayloads 1024 (by decide) (by decide) (by decide) (by decide)
    (some .axGp) memcpyDecompAxcoreGpcoreStamped (by simp [settings, Settings.requestFns]) 2
    unsetArgs 1 (by decide)).2 (show (18 : ℤ) ≤ 1024 by decide)

/-- One byte takes three when it is compressed, and they are copied to a buffer of one; the
decompression, which is given one of them, does not return.  Four megabytes are copied to a buffer
of two. -/
theorem stageCalls_not_fit :
    (∃ x, (settings twoPayloads 1 (some .axGp)).stageCalls twoPayloads 1 1 unsetArgs
        memcpyDecompAxcoreGpcoreStamped 0 =
      some [x, ⟨.dsaMemcpy, 3, 3, some 3, 1⟩, ⟨.gpcoreDoDeflateDecompress, 1, 3, some 0, 1⟩]) ∧
    ¬ StageCall.Fits ⟨.dsaMemcpy, 3, 3, some 3, 1⟩ ∧
    ¬ StageCall.Returns ⟨.gpcoreDoDeflateDecompress, 1, 3, some 0, 1⟩ ∧
    (∃ y, (settings twoPayloads 4194304 (some .axAxComp)).stageCalls twoPayloads 4194304 1 unsetArgs
        memcpyCompAxcoreAxcoreStamped 0 =
      some [⟨.dsaMemcpy, 4194304, 4194304, some 4194304, 2097152⟩, y]) ∧
    ¬ StageCall.Fits ⟨.dsaMemcpy, 4194304, 4194304, some 4194304, 2097152⟩ :=
  ⟨⟨_, rfl⟩, fun h => absurd (h 3 rfl) (by decide), fun h => Bool.false_ne_true h, ⟨_, rfl⟩,
    fun h => absurd (h 4194304 rfl) (by decide)⟩

end XMPGym
