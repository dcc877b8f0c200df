import XMPGym.CoreLoop
import XMPGym.Progress
import XMPGym.ThreePhaseOrder

/-!
# The blocking executors come to their end

In a fair run in which no operation is repeated for ever, a blocking loop returns; and so does a
loop that counts, whose runs are those of a blocking loop.
-/

open Relation Transition

namespace XMPGym

variable {L M : Type*}

/-! ## Loops on the index -/

/-- Where the thread stands between two instructions of the requests. -/
def blockingWeight (s : Sys BlockingFrame L M) : ℕ :=
  match s.running with
  | .at .executor =>
      match s.frame.pc with
      | .begin => 3
      | .loop => 2
      | .returned => 0
      | .finish => 1
  | _ => 0

/-- How far a blocking loop is from its end. -/
def BlockingLoop.left (e : BlockingLoop) (s : Sys BlockingFrame L M) : ℕ :=
  codeLeft e.totalRequests s + 3 * (e.totalRequests - s.frame.nextUnstartedReqIdx) +
    blockingWeight s

section blocking

variable {e : BlockingLoop} {hw : Hardware M} {request : ℕ → List (Instr L M)} {locals : ℕ → L}
  {m₀ : M} {s : Sys BlockingFrame L M}

/-- A step of the executor takes the loop nearer to its end. -/
theorem BlockingInv.executor_left
    (h : BlockingInv e.totalRequests (e.program hw request locals) s)
    (hrun : s.running = .at .executor) :
    e.left (s.executorStep (e.program hw request locals)) < e.left s := by
  have hle := h.le
  have hexec : (e.program hw request locals).executor = e.executor hw := rfl
  simp only [Sys.executorStep, hexec]
  cases hact : e.executor hw s.frame s.arrived s.requestsCompleted s.mem with
  | goto g =>
      rcases BlockingLoop.executor_goto hact with ⟨hpc, hgpc, hi⟩ | ⟨hpc, -, rfl⟩ | ⟨hpc, rfl⟩
      · simp [BlockingLoop.left, blockingWeight, codeLeft, hrun, hpc, hgpc, hi]
      · simp [BlockingLoop.left, blockingWeight, codeLeft, hrun, hpc]
      · obtain ⟨hlt, -⟩ := h.current hpc
        simp only [BlockingLoop.left, blockingWeight, codeLeft, hrun, hpc]
        omega
  | swap t x g =>
      obtain ⟨hpc, hlt, rfl, rfl⟩ := BlockingLoop.executor_swap hact
      simp only [BlockingLoop.left, codeLeft_swap, blockingWeight, hrun, hpc, Sys.swap_frame,
        Sys.swap_running, fcontextCreate]
      exact Nat.lt_add_of_pos_right Nat.two_pos
  | exit g =>
      obtain ⟨hpc, -, hi⟩ := BlockingLoop.executor_exit hact
      simp [BlockingLoop.left, blockingWeight, codeLeft, hrun, hpc, hi]
  | fault => exact (BlockingLoop.executor_fault hact).elim

/-- A blocking loop gets nearer to its end, unless a request repeats an operation. -/
theorem BlockingInv.descends (hret : NeverReturns (e.program hw request locals))
    (h : BlockingInv e.totalRequests (e.program hw request locals) s) :
    Descends (e.program hw request locals) e.left (fun _ _ => False) s where
  thread t ht := by
    right
    simp only [Sys.thread] at ht
    split at ht
    · next hrun =>
        obtain rfl := Option.some.inj ht
        exact .inr (h.executor_left hrun)
    · next i hrun =>
        obtain rfl := Option.some.inj ht
        obtain ⟨hpc, rfl, hlt, hb⟩ := h.of_request (by rw [hrun]; rfl)
        have hframe : (s.requestStep s.frame.nextUnstartedReqIdx).frame = s.frame :=
          (Sys.thread_frame (P := e.program hw request locals) (by simp [Sys.thread, hrun])
            (by simp [hrun])).1
        have hw₀ : blockingWeight s = 0 := by simp [blockingWeight, hrun]
        have hw₁ : blockingWeight (s.requestStep s.frame.nextUnstartedReqIdx) = 0 := by
          simp only [blockingWeight, hframe, hpc]
          split <;> rfl
        simp only [BlockingLoop.left, hframe, hw₀, hw₁]
        rcases hb.request_left hret Nat.one_pos hlt hrun with ⟨c, hat, hat', heq⟩ | hless
        · exact .inl ⟨_, c, hat, hat', by rw [heq]⟩
        · exact .inr (by omega)
    · next i hrun => exact (h.not_filler hrun).elim
    · cases ht
  hw m _ := .inr ⟨rfl, fun _ hf => hf.elim⟩
  unique _ _ hi _ := hi.elim
  running _ hi _ := hi.elim

/-- A loop that has returned is behind its last request. -/
theorem BlockingInv.exited_frame
    (h : BlockingInv e.totalRequests (e.program hw request locals) s)
    (hrun : s.running = .exited) :
    s.frame.pc = .finish ∧ s.frame.nextUnstartedReqIdx = e.totalRequests := by
  have hpc : s.frame.pc ≠ .returned := by
    intro hpc
    obtain ⟨-, ⟨hr, -⟩ | ⟨hr, -⟩⟩ := h.current hpc <;> rw [hrun] at hr <;> cases hr
  rcases h.running hpc with hr | ⟨-, hfin⟩
  · rw [hrun] at hr
    cases hr
  · exact ⟨hfin, Nat.le_antisymm h.le (h.finished hfin)⟩

/-- A blocking loop returns in a fair run, if every operation comes to its end. -/
theorem BlockingLoop.exits (hone : OneSwap (e.program hw request locals))
    (hret : NeverReturns (e.program hw request locals))
    {r : FairRun (Sys.processes (e.program hw request locals))}
    (hr : r.state 0 = .init (e.program hw request locals) m₀) (hops : OpsEnd r) :
    ∃ n, (r.state n).running = .exited := by
  have hend : r.LeadsTo (Sys.Reachable (e.program hw request locals) m₀)
      fun s => s.thread (e.program hw request locals) = none :=
    Descends.leadsTo_end e.left (fun _ _ => False)
      (fun s hs => (blockingInv_of_reachable hone hs).descends hret) hops
      fun i n hn => hn.2.elim
  obtain ⟨n, -, hend⟩ := hend 0 (Sys.reachable_fairRun hr 0)
  have hreach := Sys.reachable_fairRun hr n
  have hinv := blockingInv_of_reachable hone hreach
  refine ⟨n, ?_⟩
  cases hrun : (r.state n).running with
  | «at» c => cases c <;> simp [Sys.thread, hrun] at hend
  | exited => rfl
  | returned i =>
      refine absurd hrun (hret.ne_returned (fun s hs j hj => ?_) hreach i)
      exact ⟨1, Nat.one_pos,
        ((blockingInv_of_reachable hone hs).of_request (by rw [hj]; rfl)).2.2.2⟩
  | fault =>
      by_cases hpc : (r.state n).frame.pc = .returned
      · obtain ⟨-, ⟨hr, -⟩ | ⟨hr, -⟩⟩ := hinv.current hpc <;> rw [hrun] at hr <;> cases hr
      · rcases hinv.running hpc with hr | ⟨hr, -⟩ <;> rw [hrun] at hr <;> cases hr

end blocking

/-! ## Three-phase requests -/

/-- The operations of a three-phase request do not leave its entry function, and it repeats none but
the wait for its record. -/
theorem ThreePhaseOp.instr_next {fns : ThreePhaseFns M} {a : OffArgs} {op : ThreePhaseOp}
    {f : ThreePhaseLocals → M → ThreePhaseLocals × M × Next} (h : op.instr fns a = .op f)
    (l : ThreePhaseLocals) (m : M) :
    (f l m).2.2 ≠ .ret ∧ ((f l m).2.2 = .stay → fns.postOffload a.comp m = true) := by
  cases op with
  | swap => cases h
  | postOffload =>
      simp only [instr, Instr.op.injEq] at h
      subst h
      cases hw : fns.postOffload a.comp m <;> simp [hw]
  | _ =>
      simp only [instr, Instr.op.injEq] at h
      subst h
      simp

/-- The blocking executors of three-phase requests, of which there is one at least, return in every
fair run in which the record that a running request waits for is written in the end, and stays
written: also when the core computes the accelerator's function itself.  Every request has then been
entered once, in index order, and the averages of the breakdown form can be taken. -/
theorem blockingThreePhase_exits (N idx : ℕ) (hN : 1 ≤ N) (e : BlockingLoop)
    (he : e ∈ [executeThreePhaseBlockingRequestsClosedSystemThroughput N idx,
      executeThreePhaseBlockingRequestsClosedSystemRequestBreakdown N])
    (timed : Bool) (t : List ThreePhaseOp)
    (ht : t ∈ [blockingThreePhaseRequest timed, gpcoreThreePhaseRequest timed])
    (hw : Hardware M) (fns : ThreePhaseFns M) (args : ℕ → OffArgs) {m₀ : M}
    (hkeep : ∀ m m', hw.Moves m m' → ∀ i,
      fns.postOffload (args i).comp m = false → fns.postOffload (args i).comp m' = false)
    (r : FairRun (Sys.processes (e.program hw (fun i => t.map (ThreePhaseOp.instr fns (args i)))
      fun i => .init (args i))))
    (hr : r.state 0 = .init (e.program hw (fun i => t.map (ThreePhaseOp.instr fns (args i)))
      fun i => .init (args i)) m₀)
    (hrec : ∀ i < N, r.LeadsTo (fun s => s.running = .at (.request i))
      fun s => fns.postOffload (args i).comp s.mem = false) :
    ∃ n, (r.state n).running = .exited ∧
      (r.state n).starts = List.range N ∧ (r.state n).resumes = [] ∧
      ∀ diff ts, requestBreakdown N diff ts ≠ none := by
  obtain rfl : e.totalRequests = N := by
    simp only [List.mem_cons, List.not_mem_nil, or_false] at he
    rcases he with rfl | rfl <;> rfl
  have hone : OneSwap (e.program hw (fun i => t.map (ThreePhaseOp.instr fns (args i)))
      fun i => .init (args i)) := by
    intro i
    refine (swapsLeft_map_instr fns (args i) t).trans ?_
    simp only [List.mem_cons, List.not_mem_nil, or_false] at ht
    rcases ht with rfl | rfl <;> cases timed <;> rfl
  have hop : ∀ i f, Instr.op f ∈ t.map (ThreePhaseOp.instr fns (args i)) → ∀ l m,
      (f l m).2.2 ≠ .ret ∧ ((f l m).2.2 = .stay → fns.postOffload (args i).comp m = true) := by
    intro i f hf l m
    obtain ⟨op, -, hop⟩ := List.mem_map.1 hf
    exact ThreePhaseOp.instr_next hop l m
  have hret : NeverReturns (e.program hw (fun i => t.map (ThreePhaseOp.instr fns (args i)))
      fun i => .init (args i)) := fun i f hf l m => (hop i f hf l m).1
  have hrun : ∀ s, Sys.Reachable (e.program hw
      (fun i => t.map (ThreePhaseOp.instr fns (args i))) fun i => .init (args i)) m₀ s →
      ∀ i, s.running = .at (.request i) → i < e.totalRequests ∧ InBody (e.program hw
        (fun i => t.map (ThreePhaseOp.instr fns (args i))) fun i => .init (args i)) i 1
        (s.request i) := fun s hs i hi =>
    ((blockingInv_of_reachable hone hs).of_request (by rw [hi]; rfl)).2.2
  have hstay : ∀ i f, Instr.op f ∈ t.map (ThreePhaseOp.instr fns (args i)) → ∀ l m,
      (f l m).2.2 = .stay → fns.postOffload (args i).comp m = true :=
    fun i f hf l m => (hop i f hf l m).2
  have hops : OpsEnd r := by
    refine opsEnd_of_spins hret hstay (fun i m m' hm hwait => ?_) hr
      (fun s hs i hi => ⟨1, Nat.one_pos, (hrun s hs i hi).2⟩) fun i n hn => ?_
    · by_contra hdone
      exact Bool.false_ne_true ((hkeep m m' hm i (Bool.eq_false_iff.2 hdone)).symm.trans hwait)
    · have hi := (hrun _ (Sys.reachable_fairRun hr n) i hn.1).1
      obtain ⟨k, hk, hdone⟩ := hrec i hi n hn.1
      exact ⟨k, hk, fun h => Bool.false_ne_true (hdone.symm.trans h.2)⟩
  obtain ⟨n, hexit⟩ := BlockingLoop.exits hone hret hr hops
  have hreach := Sys.reachable_fairRun hr n
  obtain ⟨hst, hre⟩ := enteredInOrder_of_reachable hone hreach
  obtain ⟨hpc, hidx⟩ := (blockingInv_of_reachable hone hreach).exited_frame hexit
  rw [if_neg (by simp [hpc]), hidx] at hst
  exact ⟨n, hexit, hst, hre, requestBreakdown_ne_none hN⟩

/-- Two three-phase requests, whose jobs end while they are waited for. -/
def twoThreePhases : List (Option BoardMove) :=
  let wait (i : ℕ) := List.replicate 6 none ++ some (.ends i compStatusCompleted) ::
    List.replicate 5 none
  none :: (wait 0 ++ wait 1) ++ List.replicate 2 none

theorem blockingThreePhase_exits_two :
    ∃ r : FairRun (Sys.processes ((executeThreePhaseBlockingRequestsClosedSystemThroughput 2
        0).program Board.hardware (fun i => (blockingThreePhaseRequest false).map
          (ThreePhaseOp.instr Board.fns (Board.args i))) fun i => .init (Board.args i))),
      ∃ n, (r.state n).running = .exited ∧ (r.state n).starts = [0, 1] := by
  obtain ⟨s, hs, hend, hwritten⟩ : ∃ s, Board.schedule
      ((executeThreePhaseBlockingRequestsClosedSystemThroughput 2 0).program Board.hardware
        (fun i => (blockingThreePhaseRequest false).map
          (ThreePhaseOp.instr Board.fns (Board.args i))) fun i => .init (Board.args i))
        twoThreePhases = some s ∧ s.running = .exited ∧
      ∀ i < 2, s.mem.status i ≠ compStatusPending := ⟨_, rfl, rfl, by decide⟩
  obtain ⟨r, hr, hlast⟩ := Sys.exists_fairRun
    (fun _ b _ hb => show Board.hardware.Moves _ _ from ⟨b, hb⟩) hs (by simp [Sys.thread, hend])
  obtain ⟨n, hn⟩ := blockingThreePhase_exits 2 0 (by decide) _ List.mem_cons_self false _
    List.mem_cons_self Board.hardware Board.fns Board.args
    (fun m m' h i hi => by
      have hi' : m.status i ≠ compStatusPending := by simpa [Board.fns, Board.args] using hi
      simpa [Board.fns, Board.args, Board.status_of_moves h hi'] using hi') r hr
    fun i hi n _ => ⟨max n twoThreePhases.length, Nat.le_max_left _ _, by
      rw [hlast _ (Nat.le_max_right _ _)]
      simpa [Board.fns, Board.args] using hwritten i hi⟩
  exact ⟨r, n, hn.1, hn.2.1⟩

/-! ## Loops that count -/

/-- The loops that count return, if there is a request, in every fair run in which the operations
that a request repeats come to an end: every request has then been entered once, in index order, and
counted once, and the averages of the breakdown forms can be taken. -/
theorem coreLoops_exit (N timestamps idx : ℕ) (hN : 1 ≤ N) (hroom : 2 ≤ timestamps)
    (e : CoreLoop) (he : e ∈ coreLoops N timestamps idx) (hw : Hardware M)
    (work : ℕ → List (L → M → L × M × Next)) (locals : ℕ → L)
    (hret : ∀ i, ∀ f ∈ work i, ∀ l m, (f l m).2.2 ≠ .ret) {m₀ : M}
    (r : FairRun (Sys.processes (e.program hw (fun i => blockingRequest (work i)) locals)))
    (hr : r.state 0 = .init (e.program hw (fun i => blockingRequest (work i)) locals) m₀)
    (hops : OpsEnd r) :
    ∃ n, (r.state n).running = .exited ∧ (r.state n).requestsCompleted = N ∧
      (r.state n).starts = List.range N ∧ ∀ diff ts, requestBreakdown N diff ts ≠ none := by
  obtain ⟨htotal, hfits⟩ := fits_of_mem_coreLoops hroom he
  have hone := oneSwap_blockingRequest (e.program hw (fun i => blockingRequest (work i)) locals) rfl
  have hcount :=
    countsFirst_blockingRequest (e.program hw (fun i => blockingRequest (work i)) locals) rfl
  have hret' : NeverReturns (e.toBlocking.program hw (fun i => blockingRequest (work i)) locals) :=
    fun i f hf l m => hret i f (by simpa [blockingRequest] using
      (show Instr.op f ∈ blockingRequest (work i) from hf)) l m
  -- the run of the loop on the index
  let r' : FairRun (Sys.processes
      (e.toBlocking.program hw (fun i => blockingRequest (work i)) locals)) :=
    r.map (Sys.mapFrame CoreFrame.toBlocking)
      (fun _ n => by
        obtain ⟨hr', hst⟩ :=
          CoreLoop.reachable_toBlocking hfits hone hcount (Sys.reachable_fairRun hr n)
        exact CoreLoop.thread_toBlocking hfits hst (indexCounts_of_reachable hone hcount hr'))
      (by rintro s t ⟨m, hm, rfl⟩; exact ⟨m, hm, rfl⟩)
  have hops' : OpsEnd r' := by
    intro i c n hn
    obtain ⟨k, hk, hend⟩ := hops i c n ⟨hn.running, hn.code⟩
    exact ⟨k, hk, fun h => hend ⟨h.running, h.code⟩⟩
  have hr' : r'.state 0 = .init
      (e.toBlocking.program hw (fun i => blockingRequest (work i)) locals) m₀ :=
    congrArg (Sys.mapFrame CoreFrame.toBlocking) hr
  obtain ⟨n, hexit⟩ := BlockingLoop.exits hone hret' hr' hops'
  have hexit' : (r.state n).running = .exited := hexit
  obtain ⟨-, k, -, h, hk⟩ := CoreLoop.inTurn hfits hone hcount (Sys.reachable_fairRun hr n)
  obtain ⟨rfl, -⟩ := hk hexit'
  exact ⟨n, hexit', htotal ▸ h.between (by rw [hexit']; rfl), htotal ▸ h.starts,
    requestBreakdown_ne_none hN⟩

theorem coreLoops_exit_two :
    ∃ r : FairRun (Sys.processes ((executeBlockingRequestsClosedSystemWithSampling 2 2 5).program
        Board.hardware (fun i => blockingRequest (Board.wait i)) fun _ => ())),
      ∃ n, (r.state n).running = .exited ∧ (r.state n).requestsCompleted = 2 := by
  obtain ⟨s, hs, hend⟩ : ∃ s, Board.schedule
      ((executeBlockingRequestsClosedSystemWithSampling 2 2 5).program Board.hardware
        (fun i => blockingRequest (Board.wait i)) fun _ => ()) twoJobs = some s ∧
      s.running = .exited := ⟨_, rfl, rfl⟩
  obtain ⟨r, hr, hlast⟩ := Sys.exists_fairRun
    (fun _ b _ hb => show Board.hardware.Moves _ _ from ⟨b, hb⟩) hs (by simp [Sys.thread, hend])
  obtain ⟨n, hn⟩ := coreLoops_exit 2 2 5 (by decide) le_rfl _ List.mem_cons_self Board.hardware
    Board.wait (fun _ => ()) (fun i f hf l m => by
      simp only [Board.wait, List.mem_cons, List.not_mem_nil, or_false] at hf
      rcases hf with rfl | rfl
      · simp
      · simp only
        split_ifs <;> simp) r hr
    fun i c n hat => ⟨max n twoJobs.length, Nat.le_max_left _ _, fun h => by
      have := h.running
      rw [hlast _ (Nat.le_max_right _ _), hend] at this
      cases this⟩
  exact ⟨r, n, hn.1, hn.2.1⟩

end XMPGym
