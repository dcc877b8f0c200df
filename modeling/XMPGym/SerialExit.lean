import XMPGym.ClosedExit
import XMPGym.Filler

/-!
# The serial executors come to their end

In a fair run in which the records are completed, every serial loop returns, whichever way it fills
its waits.  A filler that has control is the one that polls the record; the hardware decides how
long it runs.
-/

open Relation Transition

namespace XMPGym

variable {L M : Type*}

/-- Where the thread stands between two instructions of the requests. -/
def serialWeight (hw : Hardware M) (s : Sys SerialFrame L M) : ℕ :=
  match s.running with
  | .at .executor =>
      match s.frame.pc with
      | .started => 8
      | .filled => if hw.status s.mem s.requestsCompleted = compStatusCompleted then 3 else 7
      | .wait => if hw.status s.mem s.requestsCompleted = compStatusCompleted then 2 else 6
      | .loop => 2
  | .at (.filler j) => if (s.filler j).pc = .probe then 4 else 5
  | .at (.request _) => 1
  | _ => 0

/-- How far the thread is from its end. -/
def SerialLoop.left (e : SerialLoop) (hw : Hardware M) (s : Sys SerialFrame L M) : ℕ :=
  8 * codeLeft e.totalRequests s + serialWeight hw s

/-- The record of request `i` is polled: by the executor or by a filler. -/
structure SerialLoop.Waits (e : SerialLoop) (hw : Hardware M) (i : ℕ) (s : Sys SerialFrame L M) :
    Prop where
  outstanding : s.requestsCompleted = i
  polled : s.running = .at .executor ∧ s.frame.pc = .wait ∨
    ∃ j, s.running = .at (.filler j) ∧ (s.filler j).pc = .probe
  pending : hw.status s.mem i ≠ compStatusCompleted

section serial

variable {e : SerialLoop} {hw : Hardware M} {request : ℕ → List (Instr L M)} {locals : ℕ → L}
  {m₀ : M} {d : InOrder e.totalRequests} {s t : Sys SerialFrame L M}

theorem serialWeight_le (hw : Hardware M) (s : Sys SerialFrame L M) : serialWeight hw s ≤ 8 := by
  unfold serialWeight
  split
  · split <;> (try split) <;> omega
  · split <;> omega
  · omega
  · omega

theorem SerialLoop.left_lt (hcode : ∀ i, (t.request i).code = (s.request i).code)
    (hlt : serialWeight hw t < serialWeight hw s) : e.left hw t < e.left hw s := by
  unfold left
  rw [codeLeft_congr hcode]
  omega

/-- A step of the executor: it waits, or it gets closer to the end. -/
theorem SerialInv.executor_left (h : SerialInv e (e.program hw request locals) d s)
    (hfil : e.fill ≠ .pause → FillerInv e.fill s) (hrun : s.running = .at .executor) :
    (∃ i, e.Waits hw i s) ∧ s.executorStep (e.program hw request locals) = s ∨
      e.left hw (s.executorStep (e.program hw request locals)) < e.left hw s := by
  unfold Sys.executorStep
  cases hact : (e.program hw request locals).executor s.frame s.arrived s.requestsCompleted
      s.mem with
  | goto g =>
      simp only
      rcases SerialLoop.executor_goto hact with ⟨hpc, rfl⟩ | ⟨hpc, hst, -, rfl⟩ | ⟨hpc, rfl⟩
      · refine .inr (SerialLoop.left_lt (fun _ => rfl) ?_)
        simp only [serialWeight, hrun, hpc]
        split_ifs <;> omega
      · exact .inl ⟨⟨_, rfl, .inl ⟨hrun, hpc⟩, by simpa [isCompleted] using hst⟩, rfl⟩
      · refine .inr (SerialLoop.left_lt (fun _ => rfl) ?_)
        simp only [serialWeight, hrun, hpc]
        split_ifs <;> omega
  | swap x y g =>
      refine .inr (SerialLoop.left_lt (fun _ => by simp) ?_)
      obtain ⟨-, ⟨hpc, rfl, rfl⟩ | ⟨hpc, hst, ⟨z, hz, rfl⟩, rfl⟩ | ⟨hpc, hst, hp, rfl, hto, rfl⟩⟩ :=
        SerialLoop.executor_swap hact
      · simp [serialWeight, hrun, hpc, fcontextCreate]
      · obtain ⟨ht, -, z', n, hz', hown⟩ := h.waiting (.inl hpc)
        rw [h.count ht, hz'] at hz
        obtain rfl := Option.some.inj hz
        simp only [serialWeight, hown, Sys.swap_running, hrun, hpc]
        split_ifs <;> omega
      · obtain ⟨k, rfl, -⟩ := (hfil hp).target hrun hpc hto
        have hst' : hw.status s.mem s.requestsCompleted ≠ compStatusCompleted := by
          simpa [isCompleted] using hst
        simp only [serialWeight, Sys.swap_running, hrun, hpc, if_neg hst']
        split_ifs <;> omega
  | exit g =>
      obtain ⟨hpc, -, rfl⟩ := SerialLoop.executor_exit hact
      exact .inr (SerialLoop.left_lt (fun _ => rfl) (by simp [serialWeight, hrun, hpc]))
  | fault => exact absurd hact (h.no_fault hfil hrun)

/-- A step of a filler: it waits, or it gets closer to its probe or back to the executor. -/
theorem SerialInv.filler_left (h : SerialInv e (e.program hw request locals) d s)
    (hfil : FillerInv e.fill s) {i : ℕ} (hrun : s.running = .at (.filler i)) :
    (∃ i, e.Waits hw i s) ∧ s.fillerStep hw i = s ∨
      e.left hw (s.fillerStep hw i) < e.left hw s := by
  obtain ⟨-, hpc, -⟩ := h.of_filler hrun
  have hm := hfil.move hw hrun
  generalize s.fillerStep hw i = t at hm ⊢
  cases hm with
  | wait hprobe hst => exact .inl ⟨⟨_, rfl, .inr ⟨i, hrun, hprobe⟩, hst⟩, rfl⟩
  | probe ctx hown hctx =>
      refine .inr (SerialLoop.left_lt (fun _ => rfl) ?_)
      have hne : (s.filler i).pc ≠ .probe := by
        rcases hctx with ⟨h', -⟩ | ⟨h', -⟩ <;> simp [h']
      simp [serialWeight, Sys.setFillerPc, hrun, hne]
  | back n x hprobe hctx hst =>
      refine .inr (SerialLoop.left_lt (fun _ => by simp [Sys.setFillerPc]) ?_)
      simp [serialWeight, Sys.setFillerPc, hrun, hprobe, hpc, hst]

/-- A step of the thread: a record is polled in vain, a request repeats an operation, or the thread
gets closer to its end. -/
theorem SerialInv.thread_left (hret : NeverReturns (e.program hw request locals))
    (h : SerialInv e (e.program hw request locals) d s)
    (hfil : e.fill ≠ .pause → FillerInv e.fill s)
    (hs : s.thread (e.program hw request locals) = some t) :
    (∃ i, e.Waits hw i s) ∧ t = s ∨
      (∃ i c, AtCode i c s ∧ AtCode i c t ∧ e.left hw t = e.left hw s) ∨
        e.left hw t < e.left hw s := by
  simp only [Sys.thread] at hs
  split at hs
  · next hrun =>
      obtain rfl := Option.some.inj hs
      exact (h.executor_left hfil hrun).imp_right .inr
  · next i hrun =>
      obtain rfl := Option.some.inj hs
      right
      rcases h.follows.request_left hret hrun with ⟨c, hi, hi', heq⟩ | hlt
      · refine .inl ⟨i, c, hi, hi', ?_⟩
        simp only [SerialLoop.left, serialWeight, heq, hi.running, hi'.running]
      · have hle := serialWeight_le hw (s.requestStep i)
        have hone : serialWeight hw s = 1 := by simp [serialWeight, hrun]
        refine .inr ?_
        unfold SerialLoop.left
        omega
  · next i hrun =>
      obtain rfl := Option.some.inj hs
      exact (h.filler_left (hfil (h.of_filler hrun).2.2.2) hrun).imp_right .inr
  · cases hs

/-- The hardware does not take the thread further away, nor make it wait. -/
theorem SerialLoop.hw_left (e : SerialLoop) (s : Sys SerialFrame L M) {m : M}
    (hkeep : ∀ i, hw.status s.mem i = compStatusCompleted → hw.status m i = compStatusCompleted) :
    e.left hw { s with mem := m } < e.left hw s ∨ e.left hw { s with mem := m } = e.left hw s ∧
      ∀ i, e.Waits hw i { s with mem := m } → e.Waits hw i s := by
  have hle : e.left hw { s with mem := m } ≤ e.left hw s := by
    have := hkeep s.requestsCompleted
    refine Nat.add_le_add_left ?_ _
    unfold serialWeight
    simp only
    split
    · split <;> (try split_ifs) <;> omega
    all_goals omega
  refine (Nat.lt_or_eq_of_le hle).imp_right fun heq => ⟨heq, fun i hwait => ?_⟩
  exact ⟨hwait.outstanding, hwait.polled, fun h => hwait.pending (hkeep i h)⟩

theorem SerialInv.descends (hret : NeverReturns (e.program hw request locals))
    (hgood : CompletedForGood hw) (h : SerialInv e (e.program hw request locals) d s)
    (hfil : e.fill ≠ .pause → FillerInv e.fill s) :
    Descends (e.program hw request locals) (e.left hw) (e.Waits hw) s where
  thread _ hs := h.thread_left hret hfil hs
  hw _ hm := e.hw_left s (hgood _ _ hm)
  unique _ _ hi hj := hi.outstanding.symm.trans hj.outstanding
  running _ hi j := by rcases hi.polled with ⟨h', -⟩ | ⟨k, h', -⟩ <;> simp [h']

/-- The request that is waited for has been started. -/
theorem SerialInv.yielded {i : ℕ} (h : SerialInv e (e.program hw request locals) d s)
    (hwait : e.Waits hw i s) : i < e.totalRequests ∧ Yielded i s := by
  obtain ⟨rfl, hpoll, -⟩ := hwait
  have hpc : s.frame.pc = .wait ∨ s.frame.pc = .filled := by
    rcases hpoll with ⟨-, h'⟩ | ⟨j, hrun, -⟩
    · exact .inl h'
    · exact .inr (h.of_filler hrun).2.1
  obtain ⟨ht, hst, -⟩ := h.waiting hpc
  have hn := h.count ht
  have hle := d.started_le
  refine ⟨by omega, ?_, ?_⟩
  · rw [h.follows.starts, InOrder.starts, List.mem_range, if_neg (by simp [ht])]
    omega
  · rcases hpoll with ⟨h', -⟩ | ⟨j, h', -⟩ <;> simp [h']

/-- The executor returns, with all requests done. -/
theorem SerialLoop.exits {r : FairRun (Sys.processes (e.program hw request locals))}
    (hP : TwoSwaps (e.program hw request locals))
    (hP' : CompletesOnce (e.program hw request locals))
    (hret : NeverReturns (e.program hw request locals)) (hgood : CompletedForGood hw)
    (hr : r.state 0 = .init (e.program hw request locals) m₀) (hops : OpsEnd r)
    (hrec : ∀ i < e.totalRequests,
      r.LeadsTo (Yielded i) fun s => hw.status s.mem i = compStatusCompleted) :
    ∃ n, (r.state n).running = .exited ∧ (r.state n).requestsCompleted = e.totalRequests ∧
      (r.state n).starts = List.range e.totalRequests ∧
      (r.state n).resumes = List.range e.totalRequests := by
  have hend : r.LeadsTo (Sys.Reachable (e.program hw request locals) m₀)
      fun s => s.thread (e.program hw request locals) = none := by
    refine Descends.leadsTo_end (e.left hw) (e.Waits hw) (fun s hs => ?_) hops fun i n hn => ?_
    · obtain ⟨⟨d, h⟩, hfil⟩ := serialInv_of_reachable hP hP' hs
      exact h.descends hret hgood hfil
    · obtain ⟨⟨d, h⟩, -⟩ := serialInv_of_reachable hP hP' hn.1
      obtain ⟨hlt, hy⟩ := h.yielded hn.2
      obtain ⟨k, hk, hst⟩ := hrec i hlt n hy
      exact ⟨k, hk, fun hwait => hwait.pending hst⟩
  obtain ⟨n, -, hend⟩ := hend 0 (Sys.reachable_fairRun hr 0)
  have hreach := Sys.reachable_fairRun hr n
  obtain ⟨⟨d, h⟩, -⟩ := serialInv_of_reachable hP hP' hreach
  have hexit : (r.state n).running = .exited := by
    cases hrun : (r.state n).running with
    | «at» c => cases c <;> simp [Sys.thread, hrun] at hend
    | exited => rfl
    | returned i =>
        refine absurd hrun (hret.ne_returned (fun s hs i hi => ?_) hreach i)
        obtain ⟨⟨d, h⟩, -⟩ := serialInv_of_reachable hP hP' hs
        exact h.follows.inBody hi
    | fault => exact absurd hrun h.running_ne_fault
  obtain ⟨ht, hres, -⟩ := h.all_resumed hexit
  exact ⟨n, hexit, (h.count ht).trans hres, h.exited hexit⟩

end serial

/-- The serial executors, with fillers and without, return, if there is a request, in every fair run
in which the operations that a request repeats come to an end and the record of a request that has
yielded is completed in the end: also when it is a filler that waits for it.  Every request has then
been started once, resumed once and counted once, in index order, and the averages can be taken. -/
theorem serial_exits (N : ℕ) (hN : 1 ≤ N) (e : SerialLoop)
    (he : e ∈ [executeYieldingRequestsBestCase N, executeYieldingRequestsMultipleFillerRequests N,
      executeYieldingRequestsInterleaved N])
    (hw : Hardware M) (offload work : ℕ → List (L → M → L × M × Next)) (locals : ℕ → L)
    (hret : ∀ i, ∀ f ∈ offload i ++ work i, ∀ l m, (f l m).2.2 ≠ .ret)
    (hgood : CompletedForGood hw) {m₀ : M}
    (r : FairRun (Sys.processes
      (e.program hw (fun i => yieldingRequest (offload i) (work i)) locals)))
    (hr : r.state 0 = .init (e.program hw (fun i => yieldingRequest (offload i) (work i)) locals)
      m₀)
    (hops : OpsEnd r)
    (hrec : ∀ i < N, r.LeadsTo (Yielded i) fun s => hw.status s.mem i = compStatusCompleted) :
    ∃ n, (r.state n).running = .exited ∧ (r.state n).requestsCompleted = N ∧
      (r.state n).starts = List.range N ∧ (r.state n).resumes = List.range N ∧
      ∀ diff ts, requestBreakdown N diff ts ≠ none := by
  obtain rfl : e.totalRequests = N := by
    simp only [List.mem_cons, List.not_mem_nil, or_false] at he
    rcases he with rfl | rfl | rfl <;> rfl
  obtain ⟨n, hexit, hcount, hst, hre⟩ := SerialLoop.exits (twoSwaps_yieldingRequest _ rfl)
    (completesOnce_yieldingRequest _ rfl) (neverReturns_yieldingRequest _ rfl hret) hgood hr hops
    hrec
  exact ⟨n, hexit, hcount, hst, hre, requestBreakdown_ne_none hN⟩

theorem serial_exits_two :
    ∃ r : FairRun (Sys.processes ((executeYieldingRequestsInterleaved 2).program Board.hardware
        Board.request fun _ => ())),
      ∃ n, (r.state n).running = .exited ∧ (r.state n).requestsCompleted = 2 := by
  obtain ⟨s, hs, hend, hwritten⟩ : ∃ s, Board.schedule
      ((executeYieldingRequestsInterleaved 2).program Board.hardware Board.request fun _ => ())
        twoWaits = some s ∧
      s.running = .exited ∧ ∀ i < 2, s.mem.status i = compStatusCompleted :=
    ⟨_, rfl, rfl, by decide⟩
  obtain ⟨r, hr, hlast⟩ := Sys.exists_fairRun
    (fun _ b _ hb => show Board.hardware.Moves _ _ from ⟨b, hb⟩) hs (by simp [Sys.thread, hend])
  obtain ⟨n, hn⟩ := serial_exits 2 (by decide) _ (List.mem_cons_of_mem _ (List.mem_cons_of_mem _
    List.mem_cons_self)) Board.hardware Board.offload Board.work (fun _ => ())
    (by simp [Board.offload, Board.work]) Board.completedForGood r hr
    (fun i c n hat => ⟨max n twoWaits.length, Nat.le_max_left _ _, fun h => by
      have := h.running
      rw [hlast _ (Nat.le_max_right _ _), hend] at this
      cases this⟩)
    fun i hi n _ => ⟨max n twoWaits.length, Nat.le_max_left _ _, by
      rw [hlast _ (Nat.le_max_right _ _)]
      exact hwritten i hi⟩
  exact ⟨r, n, hn.1, hn.2.1⟩

end XMPGym
