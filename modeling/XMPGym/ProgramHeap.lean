import Mathlib.Tactic.Ring
import XMPGym.HarnessBlocks
import XMPGym.Programs
import XMPGym.StageChain

/-!
# The blocks that the programs leave

A program starts with all global pointers `NULL`.  With iterations and requests to run, and samples
that their array has room for, all but `mlp.cpp` end without a fault, and as many blocks stay as
`Ends` says; `mlp.cpp` reads `user_filler_buf` before it has one and `item_buf` after it has gone.
-/

open Ownership

namespace XMPGym.HeapUse

/-! ## Lifecycles -/

def compressedMcReq :
    Lifecycle (fun _ _ => True) ∅ compressedMcReqAllocator compressedMcReqFree :=
  .plain _ [.input 2] _ (by decide) (by decide)

def decompAndHashArgsStamped : Lifecycle (fun _ _ => True) ∅ allocDecompAndHashOffloadArgsStamped
    freeDecompAndHashOffloadArgsStamped :=
  .plain _ [] _ (by decide) (by decide)

def decompAndHashArgs :
    Lifecycle (fun _ _ => True) ∅ allocDecompAndHashOffloadArgs freeDecompAndHashOffloadArgs :=
  .plain _ [] _ (by decide) (by decide)

section scatter

variable {inputSize numAccesses : ℕ} (hdraw : numAccesses = 0 ∨ 4 ≤ inputSize)

def cpuCompressedPayload : Lifecycle (fun s _ => s .globIndirArr = none) {.globIndirArr}
    (cpuCompressedPayloadAllocator inputSize numAccesses) freeCpuCompressedPayloads :=
  .indir hdraw (by decide) (by decide) (releasesIndir_after [] (by decide))

/-- The index array goes before the table here. -/
def decompAndScatterArgsTimed : Lifecycle (fun s _ => s .globIndirArr = none) {.globIndirArr}
    (allocOffloadDecompAndScatterArgsTimed inputSize numAccesses)
    freeOffloadDecompAndScatterArgsTimed :=
  .indir hdraw (by decide) (by decide) (releasesIndir_before [] (by decide))

def decompAndScatterArgs : Lifecycle (fun s _ => s .globIndirArr = none) {.globIndirArr}
    (allocOffloadDecompAndScatterArgs inputSize numAccesses) freeOffloadDecompAndScatterArgs :=
  .indir hdraw (by decide) (by decide) (releasesIndir_after [] (by decide))

theorem cpuDecompAndScatter_subset :
    cpuDecompAndScatter.fields ⊆ (cpuCompressedPayload hdraw).fields := by
  simp [cpuDecompAndScatter, cpuCompressedPayload, Lifecycle.indir]

/-- Both allocators set what the requests that offload touch. -/
theorem decompAndScatterRequest_subset :
    decompAndScatterRequest.fields ⊆ (decompAndScatterArgsTimed hdraw).fields ∧
      decompAndScatterRequest.fields ⊆ (decompAndScatterArgs hdraw).fields := by
  simp [decompAndScatterRequest, decompAndScatterArgsTimed, decompAndScatterArgs, Lifecycle.indir]

theorem scatterInterleaved_subset :
    (decompAndScatterRequest.beside scatterInterleaved).globals ⊆
      (decompAndScatterArgsTimed hdraw).globals ++ [.globDstBuf] := by
  simp [Touches.beside, decompAndScatterRequest, scatterInterleaved, decompAndScatterArgsTimed,
    Lifecycle.indir]

end scatter

def serializedAccessArgs : Lifecycle (fun _ _ => True) ∅ allocOffloadSerializedAccessArgs
    freeOffloadSerializedAccessArgs :=
  .plain _ [.auxPayload, .desc] _ (by decide) (by decide)

def linearAccessArgs : Lifecycle (fun _ _ => True) ∅ allocOffloadLinearAccessArgs
    freeOffloadLinearAccessArgs :=
  .plain _ [.desc] _ (by decide) (by decide)

def cpuMemcpyAndComputeArgs : Lifecycle NoItem {.itemBuf} allocCpuMemcpyAndComputeArgs
    freeCpuMemcpyAndComputeArgs :=
  .item [] (by decide) runs_allocCpuMemcpyAndComputeArgs

def memcpyAndComputeArgsTimed : Lifecycle NoItem {.itemBuf} allocOffloadMemcpyAndComputeArgsTimed
    freeOffloadMemcpyAndComputeArgsTimed :=
  .item [.desc] (by decide) runs_allocOffloadMemcpyAndComputeArgsTimed

/-- These requests have no `item_buf`. -/
def memcpyAndComputeArgs : Lifecycle (fun _ _ => True) ∅ allocOffloadMemcpyAndComputeArgs
    freeOffloadMemcpyAndComputeArgs :=
  .plain _ [.desc] _ (by decide) (by decide)

/-- `valbuf`, `compbuf` or, with `memcpy_comp_gpcore_axcore_null_allocator`, `aecs` stays. -/
def composableLeak : Option AppType → ℕ
  | some .axAxComp => 0
  | some .gather | some .axAx | some .axGp | some .gpGp | some .gpAx | some .gpAxComp => 1
  | some .deser | some .decrypt | none => 2

def composableArgs : (app : Option AppType) →
    Lifecycle (fun _ _ => True) ∅ (allocatorFn app) (stampedOffloadArgsFreeFn app)
  | some .gather | some .axGp | some .gpGp => .plain _ [] _ (by decide) (by decide)
  | some .axAx => .plain _ [] _ (by decide) (by decide)
  | some .axAxComp => .plain _ [] _ (by decide) (by decide)
  | some .gpAx => .plain _ [] _ (by decide) (by decide)
  | some .gpAxComp => .plain _ [.aecs] _ (by decide) (by decide)
  | some .deser | some .decrypt | none => .plain _ [] _ (by decide) (by decide)

/-! ## Programs that end -/

/-- Whatever is live before it, `p` ends without a fault, and `n` more blocks are live then. -/
def Ends (p : Prog Globals Unit) (n : ℕ) : Prop :=
  ∀ h : Blocks, ∃ s h', p (fun _ => none, h) = some ((), s, h') ∧
    ∃ K : Multiset ℕ, K.card = n ∧ h'.live = K + h.live

section ends

variable {pre : Globals → Set ℕ → Prop} {fixed : List (Global × ℕ)} {p : Prog Globals Unit}
  {itr N m n : ℕ} {t : Touches}

theorem Ends.of_runs (hp : Runs p ⟨fun _ => none, 0, ∅⟩ fun _ v' => v'.owned.card = n) :
    Ends p n := by
  intro h
  obtain ⟨_, v', h', hrun, hlive, hn⟩ := hp.run h
  exact ⟨v'.globals, h', hrun, v'.owned, hn, hlive⟩

theorem Ends.of_leaves (hp : Leaves (Between pre []) p m) (hpre : pre (fun _ => none) ∅)
    (hn : m = n) : Ends p n := by
  refine .of_runs ((hp _ ⟨hpre, nofun⟩).mono ?_)
  rintro - v' - ⟨-, K, hK, hown⟩
  rw [hown, add_zero, hK, hn]

theorem Execution.within_of_subset (e : Execution N t) {fs : List Field} {gs : List Global}
    (hf : t.fields ⊆ fs) (hg : t.globals ⊆ gs) : ∀ c ∈ e.accesses, c.Within N fs gs := by
  intro c hc
  have hw := e.within c hc
  cases c with
  | args i => exact hw
  | field i f => exact ⟨hw.1, hf hw.2⟩
  | global g => exact hg hw

theorem Executions.within_of_subset (e : Executions N t) {fs : List Field} {gs : List Global}
    (hf : t.fields ⊆ fs) (hg : t.globals ⊆ gs) :
    ∀ i < itr, ∀ c ∈ (e i).accesses, c.Within N fs gs :=
  fun i _ => (e i).within_of_subset hf hg

theorem leaves_runIf {c : Bool} {I : Known Globals → Prop} (hp : c = true → Leaves I p n) :
    Leaves I (runIf c p) (if c then n else 0) := by
  cases c with
  | false => exact .pure ()
  | true => exact hp rfl

/-- A block is handed out and `g` points to it. -/
theorem Between.point {g : Global} {v : Known Globals} (hv : Between pre [] v)
    (hpre : ∀ s D b, pre s D → pre (Function.update s g b) D) (b : ℕ) :
    Between pre [(g, b)]
      ⟨Function.update v.globals g (some b), {b} + v.owned, v.dead⟩ where
  pre := hpre _ _ _ hv.pre
  fixed p hp := by
    obtain rfl := List.mem_singleton.1 hp
    exact ⟨Function.update_self .., by simp⟩

theorem runs_mallocGlobal {g : Global} {v : Known Globals} (hv : Between pre [] v)
    (hpre : ∀ s D b, pre s D → pre (Function.update s g b) D) :
    Runs (mallocGlobal g) v fun _ v' =>
      ∃ b, Between pre [(g, b)] v' ∧ v'.owned = {b} + v.owned := by
  refine runs_malloc.bind ?_
  rintro b _ rfl
  refine (runs_setGlobal _ _).mono ?_
  rintro - _ - rfl
  exact ⟨b, hv.point hpre b, rfl⟩

/-- From here on `g` points to a block of the program. -/
theorem leaves_point {g : Global} {q : Prog Globals Unit}
    (hq : ∀ v, Between pre [] v → Runs q v fun _ v' =>
      ∃ b, Between pre [(g, b)] v' ∧ v'.owned = {b} + v.owned)
    (hp : ∀ b, Leaves (Between pre [(g, b)]) p n) :
    Leaves (Between pre []) (do q; p) (1 + n) := by
  intro v hv
  refine (hq v hv).bind ?_
  rintro - v₁ ⟨b, hv₁, hown₁⟩
  refine (hp b v₁ hv₁).mono ?_
  rintro - v₂ - ⟨hv₂, K, hK, hown₂⟩
  refine ⟨⟨hv₂.pre, nofun⟩, K + {b}, ?_, by rw [hown₂, hown₁, add_assoc]⟩
  rw [Multiset.card_add, hK, Multiset.card_singleton, add_comm]

end ends

section programs

variable {itr totalRequests : ℕ}

/-- A block for each request is `inputs[2]`, and another its arguments on the core. -/
theorem decompAndHash_ends (hitr : itr ≠ 0) (hN : totalRequests ≠ 0)
    (e : DecompAndHash totalRequests) (noThrpt : Bool)
    (hthrpt : noThrpt = false → SamplesFit totalRequests 10 itr) :
    Ends (decompAndHash itr e noThrpt) (12 + itr * (2 * totalRequests + 18) +
      if noThrpt then 0 else itr * (2 * totalRequests + 4)) := by
  have hgpcore := leaves_runGpcoreRequestBrkdown [] compressedMcReq nofun
    (e.gpcore.within_of_subset (by decide) (by decide)) hitr hN
  have hblocking := leaves_runBreakdown [] decompAndHashArgsStamped nofun
    (e.blocking.within_of_subset (by decide) (by decide)) hitr
    blockingAxRequestBreakdown hN
  have hhash := leaves_runBreakdown [] decompAndHashArgsStamped nofun
    (e.hashInterleaved.within_of_subset (by decide) (by decide)) hitr
    yieldingSameInterleavedRequestBreakdown hN
  have hantagonist := leaves_runBreakdown [] decompAndHashArgsStamped nofun
    (e.antagonist.within_of_subset (by decide) (by decide)) hitr
    yieldingSameInterleavedRequestBreakdown hN
  have hgpcoreLoad := leaves_runGpcoreOfferedLoad [] compressedMcReq nofun
    (e.gpcoreLoad.within_of_subset (by decide) (by decide)) hitr hN
  have hblockingLoad := leaves_runBlockingOfferedLoad [] decompAndHashArgs nofun
    (e.blockingLoad.within_of_subset (by decide) (by decide)) hitr hN
  have hyieldingLoad := fun hfit : SamplesFit totalRequests 10 itr =>
    leaves_runYieldingOfferedLoad [] decompAndHashArgs nofun
    (e.yieldingLoad.within_of_subset (by decide) (by decide)) hitr (by decide : 10 ≠ 0) hfit
  refine Ends.of_leaves (hgpcore.bind fun _ => hblocking.bind fun _ => hhash.bind fun _ =>
    hantagonist.bind fun _ => leaves_runIf fun hc => hgpcoreLoad.bind fun _ =>
      hblockingLoad.bind fun _ => hyieldingLoad (hthrpt (by simpa using hc))) trivial ?_
  cases noThrpt <;>
    simp [compressedMcReq, decompAndHashArgsStamped, decompAndHashArgs, Lifecycle.plain] <;> ring

theorem decompAndHash_ends_ten :
    Ends (decompAndHash 1 (⟨fun _ => .all _ _, fun _ => .all _ _, fun _ => .all _ _,
      fun _ => .all _ _, fun _ => .all _ _, fun _ => .all _ _, fun _ => .all _ _⟩ :
      DecompAndHash 10) false) 74 :=
  decompAndHash_ends (by decide) (by decide) _ false fun _ => by decide

/-- `glob_dst_buf` stays, and for each request its arguments on the core. -/
theorem decompAndScatter_ends (hitr : itr ≠ 0) (hfit : SamplesFit totalRequests 10 itr)
    {inputSize numAccesses : ℕ} (hdraw : numAccesses = 0 ∨ 4 ≤ inputSize)
    (e : DecompAndScatter totalRequests) (noLatency : Bool) :
    Ends (decompAndScatter itr inputSize numAccesses e noLatency)
      ((if noLatency then 0 else 13 + itr * (totalRequests + 18)) +
        itr * (totalRequests + 4)) := by
  have hN : totalRequests ≠ 0 := by
    rintro rfl
    exact absurd hfit.1 (by decide)
  have hcore := cpuDecompAndScatter_subset hdraw
  obtain ⟨htimed, hplain⟩ := decompAndScatterRequest_subset hdraw
  have hgpcore := leaves_runGpcoreRequestBrkdown [] (cpuCompressedPayload hdraw) nofun
    (e.gpcore.within_of_subset hcore (List.nil_subset _)) hitr hN
  have hblocking := leaves_runBreakdown [] (decompAndScatterArgsTimed hdraw) nofun
    (e.blocking.within_of_subset htimed (List.nil_subset _)) hitr
    blockingAxRequestBreakdown hN
  have hscatter := fun b => leaves_runBreakdown [(.globDstBuf, b)]
    (decompAndScatterArgsTimed hdraw) (by simp)
    (e.scatter.within_of_subset htimed (scatterInterleaved_subset hdraw)) hitr
    yieldingSameInterleavedRequestBreakdown hN
  have hantagonist := fun b => leaves_runBreakdown [(.globDstBuf, b)]
    (decompAndScatterArgsTimed hdraw) (by simp)
    (e.antagonist.within_of_subset htimed (List.nil_subset _)) hitr
    yieldingSameInterleavedRequestBreakdown hN
  have hgpcoreLoad := leaves_runGpcoreOfferedLoad [] (cpuCompressedPayload hdraw) nofun
    (e.gpcoreLoad.within_of_subset hcore (List.nil_subset _)) hitr hN
  have hblockingLoad := leaves_runBlockingOfferedLoad [] (decompAndScatterArgs hdraw) nofun
    (e.blockingLoad.within_of_subset hplain (List.nil_subset _)) hitr hN
  have hyieldingLoad := leaves_runYieldingOfferedLoad [] (decompAndScatterArgs hdraw) nofun
    (e.yieldingLoad.within_of_subset hplain (List.nil_subset _)) hitr (by decide : 10 ≠ 0) hfit
  have hlatency := hgpcore.bind fun _ => hblocking.bind fun _ =>
    leaves_point (g := .globDstBuf)
      (fun v hv => runs_mallocGlobal hv fun s D b h => by rw [Function.update_of_ne (by decide), h])
      fun b => (hscatter b).bind fun _ => hantagonist b
  refine Ends.of_leaves ((leaves_runIf fun _ => hlatency).bind fun _ => hgpcoreLoad.bind fun _ =>
    hblockingLoad.bind fun _ => hyieldingLoad) rfl ?_
  cases noLatency <;>
    simp [cpuCompressedPayload, decompAndScatterArgsTimed, decompAndScatterArgs,
      Lifecycle.indir] <;> ring

theorem decompAndScatter_ends_ten :
    Ends (decompAndScatter 1 16384 10 (⟨fun _ => .all _ _, fun _ => .all _ _, fun _ => .all _ _,
      fun _ => .all _ _, fun _ => .all _ _, fun _ => .all _ _, fun _ => .all _ _⟩ :
      DecompAndScatter 10) false) 55 :=
  decompAndScatter_ends (by decide) (by decide) (by decide) _ false

/-- Both `indices` of a request, its `aux_payload` and its `desc` stay, and of a linear one its
`desc`. -/
theorem threePhase_ends (hitr : itr ≠ 0) (hN : totalRequests ≠ 0)
    (e : ThreePhase totalRequests) (runSerialized : Bool) :
    Ends (threePhase itr e runSerialized) (9 + itr * (12 * totalRequests + 13) +
      if runSerialized then 0 else 9 + itr * (3 * totalRequests + 13)) := by
  have hserial := leaves_runBreakdown [] serializedAccessArgs nofun
    (e.serialBlocking.within_of_subset (by decide) (by decide)) hitr
    blockingAxRequestBreakdown hN
  have hserialHash := leaves_runBreakdown [] serializedAccessArgs nofun
    (e.serialHash.within_of_subset (by decide) (by decide)) hitr
    yieldingSameInterleavedRequestBreakdown hN
  have hserialAntagonist := leaves_runBreakdown [] serializedAccessArgs nofun
    (e.serialAntagonist.within_of_subset (by decide) (by decide)) hitr
    yieldingSameInterleavedRequestBreakdown hN
  have hlinear := leaves_runBreakdown [] linearAccessArgs nofun
    (e.linearBlocking.within_of_subset (by decide) (by decide)) hitr
    blockingAxRequestBreakdown hN
  have hlinearHash := leaves_runBreakdown [] linearAccessArgs nofun
    (e.linearHash.within_of_subset (by decide) (by decide)) hitr
    yieldingSameInterleavedRequestBreakdown hN
  have hlinearAntagonist := leaves_runBreakdown [] linearAccessArgs nofun
    (e.linearAntagonist.within_of_subset (by decide) (by decide)) hitr
    yieldingSameInterleavedRequestBreakdown hN
  refine Ends.of_leaves (hserial.bind fun _ => hserialHash.bind fun _ =>
    hserialAntagonist.bind fun _ => leaves_runIf fun _ => hlinear.bind fun _ =>
      hlinearHash.bind fun _ => hlinearAntagonist) trivial ?_
  cases runSerialized <;>
    simp [serializedAccessArgs, linearAccessArgs, Lifecycle.plain] <;> ring

theorem threePhase_ends_three :
    Ends (threePhase 1 (⟨fun _ => .all _ _, fun _ => .all _ _, fun _ => .all _ _,
      fun _ => .all _ _, fun _ => .all _ _, fun _ => .all _ _⟩ : ThreePhase 3) false) 89 :=
  threePhase_ends (by decide) (by decide) _ false

end programs

/-! ### `mlp.cpp` -/

/-- Until `main` populates it, `user_filler_buf` is `NULL`. -/
def NoBuffers (s : Globals) (dead : Set ℕ) : Prop := NoItem s dead ∧ s .userFillerBuf = none

def cpuMemcpyNoFiller : Lifecycle NoBuffers {.itemBuf} allocCpuMemcpyAndComputeArgs
    freeCpuMemcpyAndComputeArgs :=
  cpuMemcpyAndComputeArgs.null (g := .userFillerBuf) (by simp)

def memcpyNoFiller : Lifecycle NoBuffers {.itemBuf} allocOffloadMemcpyAndComputeArgsTimed
    freeOffloadMemcpyAndComputeArgsTimed :=
  memcpyAndComputeArgsTimed.null (g := .userFillerBuf) (by simp)

theorem noItem_update (s : Globals) (D : Set ℕ) (b : Option ℕ) (h : NoItem s D) :
    NoItem (Function.update s .userFillerBuf b) D := by
  intro c hc
  rw [Function.update_of_ne (by decide)] at hc
  exact h c hc

theorem noBuffers_null : NoBuffers (fun _ => none) ∅ := ⟨nofun, rfl⟩

section mlp

variable {itr totalRequests : ℕ}

/-- A filler that does not touch `user_filler_buf` touches what the requests touch. -/
theorem within_dotproduct (e : Mlp totalRequests) {i : ℕ}
    (h : .global .userFillerBuf ∉ (e.dotproduct i).accesses) :
    ∀ c ∈ (e.dotproduct i).accesses,
      c.Within totalRequests memcpyNoFiller.fields (memcpyNoFiller.globals ++ []) := by
  intro c hc
  have hw := (e.dotproduct i).within c hc
  cases c with
  | args i => exact hw
  | field i f =>
      have hsub : (memcpyAndCompute.beside dotproductInterleaved).fields ⊆
        memcpyNoFiller.fields := by decide
      exact ⟨hw.1, hsub hw.2⟩
  | global g =>
      have hsub : ∀ g ∈ (memcpyAndCompute.beside dotproductInterleaved).globals,
        g = .userFillerBuf ∨ g ∈ memcpyNoFiller.globals ++ [] := by decide
      obtain rfl | hg := hsub g hw
      · exact absurd hc h
      · exact hg

/-- In a call of the third run a filler touches `user_filler_buf`, or what it touches is there. -/
theorem dotproduct_round (hN : totalRequests ≠ 0) (e : Mlp totalRequests) (i : ℕ) :
    (.global .userFillerBuf ∉ (e.dotproduct i).accesses → Leaves (Between NoBuffers [])
      (yieldingSameInterleavedRequestBreakdown.run allocOffloadMemcpyAndComputeArgsTimed
        freeOffloadMemcpyAndComputeArgsTimed totalRequests totalRequests
        (e.dotproduct i).accesses)
      (yieldingSameInterleavedRequestBreakdown.left totalRequests memcpyNoFiller.leak)) ∧
    (.global .userFillerBuf ∈ (e.dotproduct i).accesses → ∀ v, Between NoBuffers [] v →
      Faults (yieldingSameInterleavedRequestBreakdown.run allocOffloadMemcpyAndComputeArgsTimed
        freeOffloadMemcpyAndComputeArgsTimed totalRequests totalRequests
        (e.dotproduct i).accesses) v) := by
  refine ⟨fun h => ?_, fun h v hv => ?_⟩
  · exact Harness.leaves memcpyNoFiller [] nofun _ (fun _ => hN) (fun _ => hN)
      (within_dotproduct e h)
  · refine Harness.faults memcpyNoFiller _ (by simp) h hv.pre fun b hb => ?_
    rw [hv.pre.2] at hb
    cases hb

theorem leaves_mlpGpcore (hitr : itr ≠ 0) (hN : totalRequests ≠ 0) (e : Mlp totalRequests) :
    Leaves (Between NoBuffers []) (runGpcoreRequestBrkdown allocCpuMemcpyAndComputeArgs
      freeCpuMemcpyAndComputeArgs itr totalRequests fun i => (e.gpcore i).accesses)
      (3 + itr * gpcoreRequestBreakdown.left totalRequests cpuMemcpyNoFiller.leak) :=
  leaves_runGpcoreRequestBrkdown [] cpuMemcpyNoFiller nofun
    (e.gpcore.within_of_subset (by decide) (by decide)) hitr hN

theorem leaves_mlpBlocking (hitr : itr ≠ 0) (hN : totalRequests ≠ 0) (e : Mlp totalRequests) :
    Leaves (Between NoBuffers []) (runBlockingOffloadRequestBrkdown
      allocOffloadMemcpyAndComputeArgsTimed freeOffloadMemcpyAndComputeArgsTimed itr totalRequests
      fun i => (e.blocking i).accesses)
      (3 + itr * blockingAxRequestBreakdown.left totalRequests memcpyNoFiller.leak) :=
  leaves_runBreakdown [] memcpyNoFiller nofun
    (e.blocking.within_of_subset (by decide) (by decide)) hitr
    blockingAxRequestBreakdown hN

theorem leaves_mlpLatency (hitr : itr ≠ 0) (hN : totalRequests ≠ 0) (e : Mlp totalRequests)
    (h : ∀ i < itr, .global .userFillerBuf ∉ (e.dotproduct i).accesses) :
    Leaves (Between NoBuffers []) (mlpLatency itr e) (12 + itr * (4 * totalRequests + 18)) := by
  have hdotproduct := leaves_runBreakdown [] memcpyNoFiller nofun
    (fun i hi => within_dotproduct e (h i hi)) hitr
    yieldingSameInterleavedRequestBreakdown hN
  have hantagonist := leaves_runBreakdown [] memcpyNoFiller nofun
    (e.antagonist.within_of_subset (by decide) (by decide)) hitr
    yieldingSameInterleavedRequestBreakdown hN
  refine Leaves.of_eq ((leaves_mlpGpcore hitr hN e).bind fun _ =>
    (leaves_mlpBlocking hitr hN e).bind fun _ => hdotproduct.bind fun _ => hantagonist) ?_
  simp [cpuMemcpyNoFiller, memcpyNoFiller, cpuMemcpyAndComputeArgs, memcpyAndComputeArgsTimed,
    Lifecycle.null, Lifecycle.item]
  ring

theorem faults_mlpLatency (hitr : itr ≠ 0) (hN : totalRequests ≠ 0) (e : Mlp totalRequests)
    {i : ℕ} (hi : i < itr)
    (h : .global .userFillerBuf ∈ (e.dotproduct i).accesses) {v : Known Globals}
    (hv : Between NoBuffers [] v) : Faults (mlpLatency itr e) v := by
  have hround := fun j => dotproduct_round hN e j
  have hrounds : ∀ v, Between NoBuffers [] v → Faults (runHarness
      allocOffloadMemcpyAndComputeArgsTimed freeOffloadMemcpyAndComputeArgsTimed 3
      yieldingSameInterleavedRequestBreakdown totalRequests totalRequests itr
      fun i => (e.dotproduct i).accesses) v := fun v hv =>
    (leaves_collectMalloc memcpyNoFiller 3).faults (fun _ v hv =>
      faults_loop (fun j _ => (em _).symm.imp (hround j).1 (hround j).2) (List.mem_range.2 hi)
        ((hround i).2 h) hv) hv
  exact (leaves_mlpGpcore hitr hN e).faults (fun _ _ hv => (leaves_mlpBlocking hitr hN e).faults
    (fun _ v hv => (hrounds v hv).bind.bind) hv) hv

/-- With `-h`, when no filler has touched `user_filler_buf`. -/
theorem mlp_ends (hitr : itr ≠ 0) (hN : totalRequests ≠ 0) (e : Mlp totalRequests)
    (h : ∀ i < itr, .global .userFillerBuf ∉ (e.dotproduct i).accesses) :
    Ends (mlp itr e true) (13 + itr * (4 * totalRequests + 18)) := by
  refine .of_runs ((leaves_mlpLatency hitr hN e h _ ⟨noBuffers_null, nofun⟩).bind ?_)
  rintro - v₁ ⟨hv₁, K₁, hK₁, hown₁⟩
  have hitem : Between NoItem [] v₁ := ⟨hv₁.pre.1, nofun⟩
  refine (runs_mallocGlobal hitem noItem_update).bind ?_
  rintro - v₂ ⟨b, -, hown₂⟩
  refine .pure ?_
  rw [hown₂, hown₁, Multiset.card_add, Multiset.card_add, hK₁, Multiset.card_singleton,
    Multiset.card_zero]
  ring

theorem mlp_ends_one :
    Ends (mlp 1 (⟨fun _ => .all _ _, fun _ => .all _ _,
      fun _ => ⟨[.field 0 .dstPayload, .global .itemBuf], by decide⟩, fun _ => .all _ _,
      fun _ => .all _ _, fun _ => .all _ _, fun _ => .all _ _⟩ : Mlp 1) true) 35 :=
  mlp_ends (by decide) (by decide) _ (by decide)

/-- A filler that touches `user_filler_buf` does so through `NULL`, and a request of the blocking
load finds an `item_buf` that the core requests have freed. -/
theorem mlp_faults (hitr : itr ≠ 0) (hN : totalRequests ≠ 0) (e : Mlp totalRequests)
    (noThrpt : Bool)
    (h : (∃ i < itr, .global .userFillerBuf ∈ (e.dotproduct i).accesses) ∨
      noThrpt = false ∧ .global .itemBuf ∈ (e.blockingLoad 0).accesses) (b : Blocks) :
    mlp itr e noThrpt (fun _ => none, b) = none := by
  refine Faults.run ?_ b
  have hstart : Between NoBuffers [] ⟨fun _ => none, 0, ∅⟩ := ⟨noBuffers_null, nofun⟩
  by_cases hfiller : ∃ i < itr, .global .userFillerBuf ∈ (e.dotproduct i).accesses
  · obtain ⟨i, hi, hacc⟩ := hfiller
    exact (faults_mlpLatency hitr hN e hi hacc hstart).bind
  obtain ⟨rfl, hacc⟩ := h.resolve_left hfiller
  have hnull : ∀ i < itr, .global .userFillerBuf ∉ (e.dotproduct i).accesses :=
    fun i hi hacc => hfiller ⟨i, hi, hacc⟩
  refine (leaves_mlpLatency hitr hN e hnull).faults (fun _ v hv => ?_) hstart
  have hitem : Between NoItem [] v := ⟨hv.pre.1, nofun⟩
  refine (runs_mallocGlobal hitem noItem_update).faults ?_
  rintro - v₁ - ⟨b, hv₁, -⟩
  have hgpcoreLoad := leaves_runGpcoreOfferedLoad [] cpuMemcpyAndComputeArgs nofun
    (e.gpcoreLoad.within_of_subset (by decide) (by decide)) hitr hN
  refine hgpcoreLoad.faults (fun _ v hv => Faults.bind ?_) ⟨hv₁.pre, nofun⟩
  -- the first call of the load
  refine Faults.bind ((leaves_collectMalloc cpuMemcpyAndComputeArgs 0).faults (fun _ v hv => ?_) hv)
  obtain ⟨n, rfl⟩ := Nat.exists_eq_succ_of_ne_zero hitr
  rw [List.range_succ_eq_map]
  exact (Harness.faults memcpyAndComputeArgs _ (by simp) hacc trivial hv.pre).bind

theorem mlp_faults_one :
    mlp 1 (⟨fun _ => .all _ _, fun _ => .all _ _, fun _ => .all _ _, fun _ => .all _ _,
      fun _ => .all _ _, fun _ => .all _ _, fun _ => .all _ _⟩ : Mlp 1) false
      (fun _ => none, .empty) = none :=
  mlp_faults (by decide) (by decide) _ false (.inr ⟨rfl, by decide⟩) .empty

end mlp

/-! ### `three_phase_composable.cpp` -/

/-- The requests of the runs of each application type. -/
def composableRequests : Option AppType → List RequestFn
  | some .gather => [decompGatherGpcoreStamped, decompGatherGpcore, decompGatherBlockingStamped,
      decompGatherBlocking, decompGatherYieldingStamped, decompGatherYielding]
  | some .axAx => [memcpyDecompAxcoreAxcoreStamped]
  | some .axAxComp => [memcpyCompAxcoreAxcoreStamped]
  | some .gpAx => [memcpyDecompGpcoreAxcoreStamped]
  | some .gpAxComp => [memcpyCompGpcoreAxcoreStamped]
  | some .axGp => [memcpyDecompAxcoreGpcoreStamped]
  | some .gpGp => [memcpyDecompGpcoreGpcoreStamped]
  | some .deser | some .decrypt | none => [deserDecompHashGpcoreStamped, deserDecompHashGpcore,
      deserDecompHashBlockingStamped, deserDecompHashBlocking, deserDecompHashYieldingStamped,
      deserDecompHashYielding]

theorem requestFns_settings (z : Sizes) (payloadSize : ℤ) (app : Option AppType) :
    (settings z payloadSize app).requestFns = composableRequests app := by
  cases app with
  | none => rfl
  | some a => cases a <;> rfl

/-- The pointers that stay where they are while the requests run. -/
def composableGlobals (app : Option AppType) : List Global :=
  if app = some .gather then [.globIndirArr] else []

/-- The requests touch what the allocator has set. -/
theorem requestTouches_composable (app : Option AppType) : ∀ r ∈ composableRequests app,
    (requestTouches r).fields ⊆ (composableArgs app).fields ∧
      (requestTouches r).globals ⊆ (composableArgs app).globals ++ composableGlobals app := by
  cases app with
  | none => decide
  | some a => cases a <;> decide

theorem leak_composableArgs (app : Option AppType) :
    (composableArgs app).leak = composableLeak app := by
  cases app with
  | none => rfl
  | some a => cases a <;> rfl

section composable

variable {itr totalRequests : ℕ} (fixed : List (Global × ℕ)) {app : Option AppType}
  (hfixed : fixed.map Prod.fst = composableGlobals app)

include hfixed

theorem Execution.within_composable {r : RequestFn} (hr : r ∈ composableRequests app)
    (e : Execution totalRequests (requestTouches r)) : ∀ c ∈ e.accesses,
      c.Within totalRequests (composableArgs app).fields
        ((composableArgs app).globals ++ fixed.map Prod.fst) := by
  obtain ⟨hf, hg⟩ := requestTouches_composable app r hr
  exact e.within_of_subset hf (hfixed ▸ hg)

variable (hitr : itr ≠ 0) (hN : totalRequests ≠ 0) {z : Sizes} {payloadSize : ℤ}
  {offArgs : ℕ → ComposableArgs}

include hitr hN

theorem leaves_runThreePhaseBreakdown {r : RequestFn} (hr : r ∈ composableRequests app)
    (hret : RequestsReturn app z payloadSize offArgs totalRequests r)
    (e : Executions totalRequests (requestTouches r)) :
    Leaves (Between (fun _ _ => True) fixed)
      (runThreePhaseBreakdown itr app z payloadSize offArgs r e)
      (5 + itr * (totalRequests * composableLeak app)) := by
  have h := leaves_runThreePhaseOffloadTimed fixed (composableArgs app) nofun
    (fun i _ => Execution.within_composable fixed hfixed hr (e i)) hitr
    threePhaseOffloadTimedBreakdown (by decide) (fun _ => hN) 4 4
  rw [runThreePhaseBreakdown, if_neg (not_not.2 hret)]
  rwa [threePhaseOffloadTimedBreakdown_left, leak_composableArgs, ← add_assoc] at h

omit hN in
theorem leaves_runThreePhaseThroughput {r : RequestFn} (hr : r ∈ composableRequests app)
    (hret : RequestsReturn app z payloadSize offArgs totalRequests r)
    (e : Executions totalRequests (requestTouches r)) :
    Leaves (Between (fun _ _ => True) fixed)
      (runThreePhaseThroughput itr app z payloadSize offArgs r e)
      (5 + itr * (totalRequests * composableLeak app)) := by
  have h := leaves_runThreePhaseOffloadTimed fixed (composableArgs app) nofun
    (fun i _ => Execution.within_composable fixed hfixed hr (e i)) hitr
    threePhaseOffloadTimedThroughput (by decide) nofun 2 1
  rw [runThreePhaseThroughput, if_neg (not_not.2 hret)]
  rwa [threePhaseOffloadTimedThroughput_left, leak_composableArgs, ← add_assoc] at h

theorem leaves_runSettings {c : Settings} (hc : ∀ r ∈ c.requestFns, r ∈ composableRequests app)
    (hret : ∀ r ∈ c.requestFns, RequestsReturn app z payloadSize offArgs totalRequests r)
    (e : ThreePhaseComposable c totalRequests) :
    Leaves (Between (fun _ _ => True) fixed) (runSettings itr app z payloadSize offArgs c e)
      (c.requestFns.length * (5 + itr * (totalRequests * composableLeak app))) := by
  have hbreakdown {r : RequestFn} (hr : r ∈ c.requestFns)
      (e : Executions totalRequests (requestTouches r)) :=
    leaves_runThreePhaseBreakdown fixed hfixed hitr hN (hc r hr) (hret r hr) e
  have hthroughput {r : RequestFn} (hr : r ∈ c.requestFns)
      (e : Executions totalRequests (requestTouches r)) :=
    leaves_runThreePhaseThroughput fixed hfixed hitr (hc r hr) (hret r hr) e
  have hgpcore := leaves_runIf fun h : c.doGpcore =>
    (hbreakdown (by simp [Settings.requestFns, h]) e.gpcoreBreakdown).bind fun _ =>
      hthroughput (by simp [Settings.requestFns, h]) e.gpcoreThroughput
  have hblocking := leaves_runIf fun h : c.doBlocking =>
    (leaves_runIf fun h' : c.doBrkdown =>
      hbreakdown (by simp [Settings.requestFns, h, h']) e.blockingBreakdown).bind fun _ =>
    leaves_runIf fun h' : c.doThrpt =>
      hthroughput (by simp [Settings.requestFns, h, h']) e.blockingThroughput
  have hyielding := leaves_runIf fun h : c.doYielding =>
    (leaves_runIf fun h' : c.doBrkdown =>
      hbreakdown (by simp [Settings.requestFns, h, h']) e.yieldingBreakdown).bind fun _ =>
    leaves_runIf fun h' : c.doThrpt =>
      hthroughput (by simp [Settings.requestFns, h, h']) e.yieldingThroughput
  refine Leaves.of_eq (hgpcore.bind fun _ => hblocking.bind fun _ => hyielding) ?_
  rw [Settings.requestFns]
  split_ifs <;> simp <;> ring

end composable

/-- Five blocks of each run of an executor stay, for each request what its allocator drops, and
the index array.  A payload for `GATHER` makes up a `float` at least. -/
theorem threePhaseComposable_ends {itr totalRequests : ℕ} (hitr : itr ≠ 0)
    (hN : totalRequests ≠ 0) (app : Option AppType) (z : Sizes) {payloadSize : ℤ}
    (hs : 1 ≤ payloadSize) (hs' : payloadSize < 2 ^ 31) (hgather : app = some .gather →
      4 ≤ payloadSize) (hC : 0 < z.compressedSize payloadSize)
    (hC' : z.compressedSize payloadSize < 2 ^ 31) (hfit : BuffersSuffice z payloadSize app)
    (offArgs : ℕ → ComposableArgs)
    (e : ThreePhaseComposable (settings z payloadSize app) totalRequests) :
    Ends (threePhaseComposable itr app z payloadSize offArgs e)
      ((if app = some .gather then 1 else 0) +
        (settings z payloadSize app).requestFns.length *
          (5 + itr * (totalRequests * composableLeak app))) := by
  have hc : ∀ r ∈ (settings z payloadSize app).requestFns, r ∈ composableRequests app :=
    fun r hr => requestFns_settings z payloadSize app ▸ hr
  have hret : ∀ r ∈ (settings z payloadSize app).requestFns,
      RequestsReturn app z payloadSize offArgs totalRequests r :=
    fun r hr i hi => stageCalls_return hs hs' hC hC' offArgs hi hr hfit
  by_cases happ : app = some .gather
  · have hrun := fun b => leaves_runSettings [(.globIndirArr, b)]
      (by rw [composableGlobals, if_pos happ]; rfl) hitr hN hc hret e
    have hdraw : numAccesses.toNat = 0 ∨ 4 ≤ payloadSize.toNat := by
      have := hgather happ
      omega
    rw [threePhaseComposable, if_pos happ, decide_eq_true happ]
    refine .of_leaves (leaves_point (fun v hv => ?_) hrun) trivial rfl
    refine (runs_indirectArrayGen hdraw).bind ?_
    rintro b _ rfl
    exact .pure ⟨b, hv.point (fun _ _ _ h => h) b, rfl⟩
  · have hrun := leaves_runSettings []
      (by rw [composableGlobals, if_neg happ]; rfl) hitr hN hc hret e
    rw [threePhaseComposable, if_neg happ, decide_eq_false happ]
    exact .of_leaves ((Leaves.pure ()).bind fun _ => hrun) trivial rfl

theorem threePhaseComposable_ends_gather :
    Ends (threePhaseComposable 1 (some .gather) twoPayloads 1024 unsetArgs
      (⟨fun _ => .all _ _, fun _ => .all _ _, fun _ => .all _ _, fun _ => .all _ _,
        fun _ => .all _ _, fun _ => .all _ _⟩ : ThreePhaseComposable _ 2)) 43 ∧
    Ends (threePhaseComposable 1 (some .axGp) twoPayloads 1024 unsetArgs
      (⟨fun _ => .all _ _, fun _ => .all _ _, fun _ => .all _ _, fun _ => .all _ _,
        fun _ => .all _ _, fun _ => .all _ _⟩ : ThreePhaseComposable _ 2)) 7 :=
  ⟨threePhaseComposable_ends (by decide) (by decide) (some .gather) twoPayloads (by decide)
      (by decide) (by decide) (by decide) (by decide) trivial unsetArgs _,
    threePhaseComposable_ends (by decide) (by decide) (some .axGp) twoPayloads (by decide)
      (by decide) (by decide) (by decide) (by decide) (show (18 : ℤ) ≤ 1024 by decide)
      unsetArgs _⟩

end XMPGym.HeapUse
