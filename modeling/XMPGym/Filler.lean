import XMPGym.Board
import XMPGym.SerialLoop

/-!
# Preemption of fillers

Whenever the code of a filler runs, the global `p_sig` points to the record of the one outstanding
request, and the filler hands control back only when that record is completed.  The log of swaps
shows the rest: no filler is entered twice, and a wait switches to a filler at most once.
-/

open Relation Transition

namespace XMPGym

variable {F L M : Type*}

/-! ## Switches to fillers in the log -/

namespace Sys

/-- The number of switches to a filler while `requests_completed` was `r`. -/
def fills (s : Sys F L M) (r : ℕ) : ℕ :=
  s.swaps.countP fun w => w.filler.isSome && w.completed = r

/-- The number of times that filler `j` has been entered. -/
def entries (s : Sys F L M) (j : ℕ) : ℕ :=
  s.swaps.countP fun w => w.target = fcontextCreate (.filler j)

section log

variable {s s' : Sys F L M} {l : List Swap}

theorem fills_of_append (h : s'.swaps = s.swaps ++ l) (hl : ∀ w ∈ l, w.filler = none) (r : ℕ) :
    s'.fills r = s.fills r := by
  have : l.countP (fun w => w.filler.isSome && w.completed = r) = 0 := by
    rw [List.countP_eq_zero]
    intro w hw
    simp [hl w hw]
  rw [fills, h, List.countP_append, this]
  rfl

theorem entries_of_append (h : s'.swaps = s.swaps ++ l) (hl : ∀ w ∈ l, w.filler = none) (j : ℕ) :
    s'.entries j = s.entries j := by
  have : l.countP (fun w => w.target = fcontextCreate (.filler j)) = 0 := by
    rw [List.countP_eq_zero]
    intro w hw ht
    have := hl w hw
    rw [decide_eq_true_eq] at ht
    simp [Swap.filler, ht, fcontextCreate] at this
  rw [entries, h, List.countP_append, this]
  rfl

theorem fills_filler (s : Sys F L M) (self : Ctx) (j n r : ℕ) (x : Data) :
    (s.fcontextSwap self ⟨.filler j, n⟩ x).fills r =
      s.fills r + if s.requestsCompleted = r then 1 else 0 := by
  simp [fills, Swap.filler, List.countP_cons]

theorem entries_swap (s : Sys F L M) (self : Ctx) (t : Handle Ctx) (j : ℕ) (x : Data) :
    (s.fcontextSwap self t x).entries j =
      s.entries j + if t = fcontextCreate (.filler j) then 1 else 0 := by
  simp [entries, List.countP_cons]

end log

end Sys

/-! ## The invariant of the log -/

/-- What the log says about the fillers of a serial loop.  Of the switches for a request that has
not been resumed, there is none unless the executor waits for it, and then the one that was made
has come back because the record is completed. -/
structure FillerLog (e : SerialLoop) (hw : Hardware M) (s : Sys SerialFrame L M) : Prop where
  once : ∀ r, s.fills r ≤ 1
  ahead : ∀ r, s.resumes.length ≤ r → s.fills r = 0 ∨ r = s.resumes.length ∧
    (s.frame.pc = .wait ∧ hw.status s.mem r = compStatusCompleted ∨
      s.frame.pc = .filled ∧
        (s.running = .at .executor → hw.status s.mem r = compStatusCompleted))
  entered : ∀ j, s.entries j ≤ 1
  fresh : ∀ j, (s.filler j).pc = .entry → s.running ≠ .at (.filler j) → s.entries j = 0
  bounded : ∀ w ∈ s.swaps, ∀ j, w.filler = some j →
    j = e.fill.filler w.completed ∧ w.completed < e.totalRequests

/-- The device leaves records alone that it has completed. -/
def CompletedForGood (hw : Hardware M) : Prop :=
  ∀ m m', hw.Moves m m' → ∀ i, hw.status m i = compStatusCompleted →
    hw.status m' i = compStatusCompleted

section log

variable {e : SerialLoop} {hw : Hardware M} {request : ℕ → List (Instr L M)} {locals : ℕ → L}
  {m₀ : M} {d : InOrder e.totalRequests} {s s' : Sys SerialFrame L M}

/-- Steps that do not switch to a filler. -/
theorem FillerLog.append (h : FillerLog e hw s) {l : List Swap} (hsw : s'.swaps = s.swaps ++ l)
    (hl : ∀ w ∈ l, w.filler = none)
    (hahead : ∀ r, s'.resumes.length ≤ r → s.fills r = 0 ∨ r = s'.resumes.length ∧
      (s'.frame.pc = .wait ∧ hw.status s'.mem r = compStatusCompleted ∨
        s'.frame.pc = .filled ∧
          (s'.running = .at .executor → hw.status s'.mem r = compStatusCompleted)))
    (hfresh : ∀ j, (s'.filler j).pc = .entry → s'.running ≠ .at (.filler j) →
      (s.filler j).pc = .entry ∧ s.running ≠ .at (.filler j)) : FillerLog e hw s' where
  once r := by rw [Sys.fills_of_append hsw hl]; exact h.once r
  ahead r hr := by
    rw [Sys.fills_of_append hsw hl]
    exact hahead r hr
  entered j := by rw [Sys.entries_of_append hsw hl]; exact h.entered j
  fresh j hj hj' := by
    rw [Sys.entries_of_append hsw hl]
    exact h.fresh j (hfresh j hj hj').1 (hfresh j hj hj').2
  bounded w hw' j hj := by
    rw [hsw] at hw'
    rcases List.mem_append.1 hw' with hw' | hw'
    · exact h.bounded w hw' j hj
    · rw [hl w hw'] at hj
      cases hj

theorem fillerLog_init : FillerLog e hw (.init (e.program hw request locals) m₀) where
  once r := Nat.zero_le 1
  ahead r _ := .inl rfl
  entered j := Nat.zero_le 1
  fresh j _ _ := rfl
  bounded w h := by cases h

theorem FillerLog.aside (h : FillerLog e hw s) (ha : Aside e.fill s s') : FillerLog e hw s' := by
  obtain ⟨l, hsw, hl⟩ := ha.swaps
  refine h.append hsw (fun w hw' => (hl w hw').1) (fun r hr => .inl ?_) fun j hj _ => ?_
  · have hle : s.resumes.length ≤ s'.resumes.length := by simp [Sys.resumes, hsw]
    rcases h.ahead r (Nat.le_trans hle hr) with h' | ⟨rfl, ⟨hpc, -⟩ | ⟨hpc, -⟩⟩
    · exact h'
    · -- the wait ends: its request is no longer to be resumed
      have := ha.waited hpc
      omega
    · exact absurd hpc ha.pc.1
  · exact ⟨ha.filler ▸ hj, ha.before j⟩

/-- The executor turns to the filler of the current wait. -/
theorem FillerLog.turn (hinv : SerialInv e (e.program hw request locals) d s)
    (h : FillerLog e hw s) (hrun : s.running = .at .executor) (hpc : s.frame.pc = .wait)
    (hlt : s.requestsCompleted < e.totalRequests)
    (hst : hw.status s.mem s.requestsCompleted ≠ compStatusCompleted) {k : ℕ}
    (hk : k = 0 → (s.filler (fillerIdx e.fill s)).pc = .entry) :
    FillerLog e hw (Sys.fcontextSwap { s with frame := { s.frame with pc := .filled } }
      .executor ⟨.filler (fillerIdx e.fill s), k⟩ (.comp s.requestsCompleted)) := by
  have hlen := hinv.length_resumes (hinv.waiting (.inl hpc)).1
  -- a wait that has switched to a filler has found the record completed
  have hnone : s.fills s.requestsCompleted = 0 := by
    rcases h.ahead _ (Nat.le_of_eq hlen) with h' | ⟨-, ⟨-, h'⟩ | ⟨h', -⟩⟩
    · exact h'
    · exact absurd h' hst
    · simp [hpc] at h'
  have hres : (Sys.fcontextSwap { s with frame := { s.frame with pc := .filled } } .executor
      ⟨.filler (fillerIdx e.fill s), k⟩ (.comp s.requestsCompleted)).resumes = s.resumes :=
    Sys.resumes_swap_filler _ _ _ _ _
  refine ⟨fun r => ?_, fun r hr => ?_, fun j => ?_, fun j hj hj' => ?_, fun w hw' j hj => ?_⟩
  · rw [Sys.fills_filler]
    split_ifs with hr
    · rw [← hr]
      exact Nat.le_of_eq (congrArg (· + 1) hnone)
    · exact h.once r
  · rw [hres] at hr ⊢
    rcases Nat.eq_or_lt_of_le hr with rfl | hr
    · exact .inr ⟨rfl, .inr ⟨rfl, by simp⟩⟩
    · refine .inl ?_
      rw [Sys.fills_filler, if_neg (by simp only; omega)]
      rcases h.ahead r (Nat.le_of_lt hr) with h' | ⟨h', -⟩
      · exact h'
      · omega
  · rw [Sys.entries_swap]
    split_ifs with hj
    · obtain ⟨hown, rfl⟩ := Handle.mk.inj hj
      rw [← Ctx.filler.inj hown]
      exact Nat.le_of_eq (congrArg (· + 1) (h.fresh _ (hk rfl) (by simp [hrun])))
    · exact h.entered j
  · have hne : j ≠ fillerIdx e.fill s := by
      rintro rfl
      simp at hj'
    rw [Sys.entries_swap, if_neg (by simpa [fcontextCreate] using fun h' => absurd h'.symm hne)]
    refine h.fresh j ?_ (by simp [hrun])
    simpa [Function.update_of_ne hne] using hj
  · rw [Sys.swap_swaps] at hw'
    rcases List.mem_append.1 hw' with hw' | hw'
    · exact h.bounded w hw' j hj
    · obtain rfl := List.mem_singleton.1 hw'
      exact ⟨(Option.some.inj hj).symm, hlt⟩

/-- A filler hands control back. -/
theorem FillerLog.back (hinv : SerialInv e (e.program hw request locals) d s)
    (h : FillerLog e hw s) {i n : ℕ} (hrun : s.running = .at (.filler i))
    (hst : hw.status s.mem s.requestsCompleted = compStatusCompleted) :
    FillerLog e hw ((s.setFillerPc i .resumed).fcontextSwap (.filler i) ⟨.executor, n⟩ .null) := by
  obtain ⟨ht, hpc, -⟩ := hinv.of_filler hrun
  have hres : ((s.setFillerPc i .resumed).fcontextSwap (.filler i) ⟨.executor, n⟩
      .null).resumes = s.resumes := Sys.resumes_swap_executor _ _ _ _
  refine h.append (Sys.swap_swaps _ _ _ _) (by simp [Swap.filler]) (fun r hr => ?_)
    fun j hj _ => ?_
  · rw [hres] at hr ⊢
    rcases h.ahead r hr with h' | ⟨rfl, -⟩
    · exact .inl h'
    · refine .inr ⟨rfl, .inr ⟨by simpa [Sys.setFillerPc] using hpc, fun _ => ?_⟩⟩
      rw [hinv.length_resumes ht]
      simpa [Sys.setFillerPc] using hst
  · rcases eq_or_ne j i with rfl | hne
    · simp [Sys.setFillerPc] at hj
    · refine ⟨by simpa [Sys.setFillerPc, Function.update_of_ne hne] using hj, ?_⟩
      simp [hrun, hne.symm]

/-- Every step keeps the invariant of the log. -/
theorem FillerLog.step (hgood : CompletedForGood hw)
    (hP : CompletesOnce (e.program hw request locals))
    (hinv : SerialInv e (e.program hw request locals) d s) (hfil : FillerInv e.fill s)
    (hp : e.fill ≠ .pause) (h : FillerLog e hw s)
    (hs : Sys.Step (e.program hw request locals) s s') : FillerLog e hw s' := by
  cases hinv.fillMove hP hfil hp hs with
  | hw m hm =>
      refine ⟨h.once, fun r hr => ?_, h.entered, h.fresh, h.bounded⟩
      have := hgood _ _ hm r
      rcases h.ahead r hr with h' | ⟨rfl, ⟨h', hst⟩ | ⟨h', hst⟩⟩
      · exact .inl h'
      · exact .inr ⟨rfl, .inl ⟨h', this hst⟩⟩
      · exact .inr ⟨rfl, .inr ⟨h', fun hx => this (hst hx)⟩⟩
  | aside ha => exact h.aside ha
  | turn k hrun hpc hlt hst hk =>
      refine h.turn hinv hrun hpc hlt hst fun h0 => ?_
      rcases hk with ⟨-, h'⟩ | ⟨h', -⟩
      · exact h'
      · exact absurd h0 h'
  | store hrun hpc =>
      refine ⟨h.once, fun r hr => ?_, h.entered, h.fresh, h.bounded⟩
      rcases h.ahead r hr with h' | ⟨rfl, ⟨h', -⟩ | ⟨-, hst⟩⟩
      · exact .inl h'
      · simp [hpc] at h'
      · exact .inr ⟨rfl, .inl ⟨rfl, hst hrun⟩⟩
  | filler i hrun hm =>
      cases hm with
      | wait => exact h
      | probe ctx hown hctx =>
          refine ⟨h.once, h.ahead, h.entered, fun j hj hj' => h.fresh j ?_ hj', h.bounded⟩
          have hne : j ≠ i := fun e => hj' (e ▸ hrun)
          simpa [Sys.setFillerPc, Function.update_of_ne hne] using hj
      | back n x hprobe hctx hst => exact h.back hinv hrun hst

theorem fillerLog_of_reachable (hP : TwoSwaps (e.program hw request locals))
    (hP' : CompletesOnce (e.program hw request locals))
    (hgood : CompletedForGood hw) (hp : e.fill ≠ .pause)
    (hr : Sys.Reachable (e.program hw request locals) m₀ s) :
    FillerLog e hw s := by
  induction hr with
  | refl => exact fillerLog_init
  | tail hr hs ih =>
      obtain ⟨⟨d, hinv⟩, hfil⟩ := serialInv_of_reachable hP hP' hr
      exact ih.step hgood hP' hinv (hfil hp) hp hs

end log

/-- In every reachable state of the two executors with fillers: nothing is used out of bounds or
before it is stored.  While a filler has control exactly one request is outstanding, at the probe
`p_sig` points to its record, and the filler gives up control only to the executor and only when
that record is completed.  A wait switches to a filler at most once, no filler is entered twice,
and the requests are started and resumed in order, each once. -/
theorem fillers_preempted (N : ℕ) (e : SerialLoop)
    (he : e ∈ [executeYieldingRequestsMultipleFillerRequests N,
      executeYieldingRequestsInterleaved N])
    (hw : Hardware M) (offload work : ℕ → List (L → M → L × M × Next)) (locals : ℕ → L)
    (hgood : CompletedForGood hw) {m₀ : M} {s : Sys SerialFrame L M}
    (hr : Sys.Reachable (e.program hw (fun i => yieldingRequest (offload i) (work i)) locals)
      m₀ s) :
    s.running ≠ .fault ∧
    (∀ j, s.running = .at (.filler j) →
      s.requestsCompleted < N ∧ s.starts = List.range (s.requestsCompleted + 1) ∧
      s.resumes = List.range s.requestsCompleted ∧
      ((s.filler j).pc = .probe → s.pSig = .comp s.requestsCompleted) ∧
      ∀ s', s.thread (e.program hw (fun i => yieldingRequest (offload i) (work i)) locals) =
        some s' → s'.running = .at (.filler j) ∨
          s'.running = .at .executor ∧
            hw.status s.mem s.requestsCompleted = compStatusCompleted) ∧
    (∀ r, s.fills r ≤ 1) ∧
    (∀ j, s.entries j ≤ 1) ∧
    (∀ w ∈ s.swaps, ∀ j, w.filler = some j → j = e.fill.filler w.completed ∧ w.completed < N) ∧
    (∃ n ≤ N, s.starts = List.range n) ∧ (∃ n ≤ N, s.resumes = List.range n) ∧
    (s.running = .exited → s.starts = List.range N ∧ s.resumes = List.range N) := by
  obtain ⟨rfl, hp⟩ : e.totalRequests = N ∧ e.fill ≠ .pause := by
    simp only [List.mem_cons, List.not_mem_nil, or_false] at he
    rcases he with rfl | rfl <;> exact ⟨rfl, fun h => by cases h⟩
  have hP := twoSwaps_yieldingRequest (e.program hw
    (fun i => yieldingRequest (offload i) (work i)) locals) rfl
  have hP' := completesOnce_yieldingRequest (e.program hw
    (fun i => yieldingRequest (offload i) (work i)) locals) rfl
  obtain ⟨⟨d, hinv⟩, hfil⟩ := serialInv_of_reachable hP hP' hr
  have hlog := fillerLog_of_reachable hP hP' hgood hp hr
  refine ⟨hinv.running_ne_fault, fun j hrun => ?_, hlog.once, hlog.entered, hlog.bounded,
    hinv.follows.starts ▸ d.starts_eq, hinv.follows.resumes ▸ d.resumes_eq, hinv.exited⟩
  obtain ⟨ht, hpc, -⟩ := hinv.of_filler hrun
  have hn := hinv.count ht
  have hag := hinv.agrees
  have hle := d.started_le
  simp only [SerialFrame.Agrees, hpc] at hag
  refine ⟨by omega, ?_, ?_, fun hprobe => ?_, fun s' hs' => ?_⟩
  · rw [hinv.follows.starts, hn]
    simp [InOrder.starts, ht, hag.2.1]
  · rw [hinv.follows.resumes, hn]
    simp [InOrder.resumes, ht]
  · have := (hfil hp).signal j hrun
    simpa only [hprobe] using this
  · simp only [Sys.thread, hrun, Option.some.injEq] at hs'
    have hm := (hfil hp).move hw hrun
    rw [show s.fillerStep hw j = s' from hs'] at hm
    cases hm with
    | wait => exact .inl hrun
    | probe ctx hown hctx => exact .inl hrun
    | back n x hprobe hctx hst => exact .inr ⟨Sys.swap_running _ _ _ _, hst⟩

theorem Board.completedForGood : CompletedForGood Board.hardware := by
  rintro m m' ⟨b, hb⟩ i hi
  cases b with
  | ends j st =>
      simp only [Board.move, Option.ite_none_right_eq_some, Option.some.injEq] at hb
      obtain ⟨⟨-, hpend⟩, rfl⟩ := hb
      have hne : i ≠ j := by
        rintro rfl
        rw [show m.status i = compStatusCompleted from hi] at hpend
        cases hpend
      exact (Function.update_of_ne hne _ _).trans hi
  | tick =>
      obtain rfl := Option.some.inj hb
      exact hi

/-- Two requests that share a filler; each job ends while the filler runs. -/
def twoWaits : List (Option BoardMove) :=
  List.replicate 8 none ++ [some (.ends 0 1)] ++ List.replicate 13 none ++ [some (.ends 1 1)] ++
    List.replicate 7 none

theorem fillers_preempted_two :
    ∃ s, Board.schedule ((executeYieldingRequestsInterleaved 2).program Board.hardware
        Board.request fun _ => ()) twoWaits = some s ∧
      s.running = .exited ∧ s.swaps.length = 12 ∧ s.fills 0 ≤ 1 ∧ s.entries 0 ≤ 1 := by
  refine ⟨_, rfl, rfl, rfl, ?_⟩
  have h := fillers_preempted 2 _ (List.mem_cons_of_mem _ List.mem_cons_self) Board.hardware
    Board.offload Board.work (fun _ => ()) Board.completedForGood
    (Board.reachable_of_schedule (l := twoWaits) rfl rfl)
  exact ⟨h.2.2.1 0, h.2.2.2.1 0⟩

end XMPGym
