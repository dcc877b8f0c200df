import XMPGym.CoreLoop
import XMPGym.Progress
import XMPGym.Sampling
import XMPGym.SerialLoop

/-!
# What a request may rely on

The executors that run two-phase requests give them the same guarantees, whatever they do in
between: a request is entered with its context fresh and resumed with its record completed, nothing
but the requests touches the memory that they share with the device, and an executor that returns
has seen all of them to their end.
-/

open Relation Transition

namespace XMPGym

variable {F L M : Type*}

/-- The guarantees of the executor of `P` to the requests below `N`. -/
structure Schedules (P : Program F L M) (N : ℕ) (m₀ : M) : Prop where
  move : ∀ s s', Sys.Reachable P m₀ s → Sys.Step P s s' → Move P s s'
  request_lt : ∀ s i, Sys.Reachable P m₀ s → s.running = .at (.request i) → i < N
  resume : ∀ s t x f, Sys.Reachable P m₀ s → s.running = .at .executor →
    P.executor s.frame s.arrived s.requestsCompleted s.mem = .swap t x f →
    ∀ i, t.owner = .request i →
      (s.request i).arg = none ∨ P.hw.status s.mem i = compStatusCompleted
  filler : ∀ s i, Sys.Reachable P m₀ s → s.running = .at (.filler i) →
    (s.fillerStep P.hw i).request = s.request ∧ (s.fillerStep P.hw i).mem = s.mem ∧
      (s.fillerStep P.hw i).running.request = none
  exited : ∀ s, Sys.Reachable P m₀ s → s.running = .exited →
    ∀ i < N, swapsLeft (s.request i).code = 0

section

variable {hw : Hardware M} {request : ℕ → List (Instr L M)} {locals : ℕ → L} {m₀ : M}

/-- A closed loop that resumes requests whose records are completed. -/
theorem schedules_closed {e : ClosedLoop} (hready : e.ready = isCompleted)
    {submitted : M → ℕ → Prop} (hP : TwoSwaps (e.program hw request locals))
    (hP' : CompletesOnce (e.program hw request locals))
    (hc : RecordContract (e.program hw request locals) submitted m₀) :
    Schedules (e.program hw request locals) e.totalRequests m₀ := by
  have hpend : e.ready compStatusPending = false := by rw [hready]; rfl
  have hinv : ∀ s, Sys.Reachable (e.program hw request locals) m₀ s →
      ∃ d, ClosedInv e (e.program hw request locals) submitted d s := fun s hs =>
    closedInv_of_reachable hP hc (fun _ => hP') hpend hs
  refine ⟨fun s s' hr hs => ?_, fun s i hr hrun => ?_, fun s t x f hr hrun hact i ho => ?_,
    fun s i hr hrun => ?_, fun s hr hrun i hi => ?_⟩
  · obtain ⟨d, h⟩ := hinv s hr
    exact h.follows.move hs
  · obtain ⟨d, h⟩ := hinv s hr
    exact h.request_lt hrun
  · obtain ⟨d, h⟩ := hinv s hr
    obtain ⟨-, -, -, ⟨y, n, -, -, rfl, -, hrd, -⟩ | ⟨rfl, -, hfresh, -⟩⟩ :=
      h.swap_target hpend hrun hact
    · obtain rfl := Ctx.request.inj ho
      rw [hready] at hrd
      exact .inr (of_decide_eq_true hrd)
    · obtain rfl := Ctx.request.inj ho
      exact .inl (by rw [hfresh])
  · obtain ⟨d, h⟩ := hinv s hr
    exact absurd hrun (h.running_ne_filler i)
  · obtain ⟨d, h⟩ := hinv s hr
    obtain ⟨-, hres, -⟩ := h.all_resumed (fun _ => hP') hrun
    have hst := h.follows.stages i
    rw [InOrder.stage_eq_done.2 (by omega)] at hst
    exact hst.swaps

/-- A serial loop, with fillers or without. -/
theorem schedules_serial {e : SerialLoop} (hP : TwoSwaps (e.program hw request locals))
    (hP' : CompletesOnce (e.program hw request locals)) :
    Schedules (e.program hw request locals) e.totalRequests m₀ := by
  have hinv : ∀ s, Sys.Reachable (e.program hw request locals) m₀ s → _ := fun s hs =>
    serialInv_of_reachable hP hP' hs
  refine ⟨fun s s' hr hs => ?_, fun s i hr hrun => ?_, fun s t x f hr hrun hact i ho => ?_,
    fun s i hr hrun => ?_, fun s hr hrun i hi => ?_⟩
  · obtain ⟨⟨d, h⟩, -⟩ := hinv s hr
    exact h.follows.move hs
  · obtain ⟨⟨d, h⟩, -⟩ := hinv s hr
    exact h.follows.request_lt hrun
  · obtain ⟨⟨d, h⟩, hfil⟩ := hinv s hr
    have ht := h.follows.scheduler_of_executor hrun
    obtain ⟨-, ⟨hpc, rfl, -⟩ | ⟨hpc, hst, ⟨z, hz, rfl⟩, -⟩ | ⟨hpc, -, hp, -, hto, -⟩⟩ :=
      SerialLoop.executor_swap hact
    · obtain rfl := Ctx.request.inj ho
      have hag := h.agrees
      simp only [SerialFrame.Agrees, hpc, ht, true_and, reduceCtorEq, false_and, or_false] at hag
      have hfresh := h.follows.stages s.requestsCompleted
      rw [h.count ht, ← hag, d.stage_started, if_neg (by simp [ht])] at hfresh
      rw [h.count ht, ← hag]
      exact .inl (by rw [hfresh])
    · obtain ⟨-, -, z', n, hz', hown⟩ := h.waiting (.inl hpc)
      rw [h.count ht, hz'] at hz
      obtain rfl := Option.some.inj hz
      rw [hown] at ho
      obtain rfl := Ctx.request.inj ho
      rw [h.count ht] at hst
      exact .inr (of_decide_eq_true hst)
    · obtain ⟨k, rfl, -⟩ := (hfil hp).target hrun hpc hto
      cases ho
  · obtain ⟨⟨d, h⟩, hfil⟩ := hinv s hr
    have haside : ∀ t, FillerMove hw s i t →
        t.request = s.request ∧ t.mem = s.mem ∧ t.running.request = none := by
      intro t hm
      cases hm with
      | wait => exact ⟨rfl, rfl, by rw [hrun]; rfl⟩
      | probe => exact ⟨rfl, rfl, by simp [Sys.setFillerPc, hrun, Running.request]⟩
      | back n x =>
          exact ⟨by simp [Sys.setFillerPc], by simp [Sys.setFillerPc], by simp [Running.request]⟩
    exact haside _ ((hfil (h.of_filler hrun).2.2.2).move hw hrun)
  · obtain ⟨⟨d, h⟩, -⟩ := hinv s hr
    obtain ⟨-, hres, -⟩ := h.all_resumed hrun
    have hst := h.follows.stages i
    rw [InOrder.stage_eq_done.2 (by omega)] at hst
    exact hst.swaps

/-- A loop that counts. -/
theorem schedules_core {e : CoreLoop} (hfits : e.Fits)
    (hone : OneSwap (e.program hw request locals))
    (hcount : CountsFirst (e.program hw request locals)) :
    Schedules (e.program hw request locals) e.totalRequests m₀ := by
  have hinv : ∀ s, Sys.Reachable (e.program hw request locals) m₀ s →
      BlockingInv e.totalRequests (e.toBlocking.program hw request locals)
        (s.mapFrame CoreFrame.toBlocking) := fun s hs =>
    blockingInv_of_reachable hone (CoreLoop.reachable_toBlocking hfits hone hcount hs).1
  refine ⟨fun s s' hr hs => ?_, fun s i hr hrun => ?_, fun s t x f hr hrun hact i ho => ?_,
    fun s i hr hrun => ?_, fun s hr hrun i hi => ?_⟩
  · refine .of_step (fun i hrun => ⟨1, Nat.one_pos, ?_⟩) hs
    obtain ⟨hent, hsuf, hsw⟩ := ((hinv s hr).of_request (i := i)
      (by rw [show (s.mapFrame CoreFrame.toBlocking).running = _ from hrun]; rfl)).2.2.2
    exact ⟨hent, hsuf, hsw⟩
  · exact ((hinv s hr).of_request (i := i)
      (by rw [show (s.mapFrame CoreFrame.toBlocking).running = _ from hrun]; rfl)).2.2.1
  · have hswap : e.toBlocking.executor hw s.frame.toBlocking s.arrived s.requestsCompleted s.mem =
        .swap t x f.toBlocking := by
      obtain ⟨hr', hst⟩ := CoreLoop.reachable_toBlocking hfits hone hcount hr
      have hidx := indexCounts_of_reachable hone hcount hr'
      refine (CoreLoop.executor_toBlocking hfits hst hidx hrun).trans ?_
      rw [show e.executor hw s.frame s.arrived s.requestsCompleted s.mem = _ from hact]
      rfl
    obtain ⟨hpc, -, rfl, -⟩ := BlockingLoop.executor_swap hswap
    obtain rfl := Ctx.request.inj ho
    left
    have hfresh := (hinv s hr).fresh s.frame.nextUnstartedReqIdx (.inr ⟨rfl, ?_⟩)
    · exact congrArg RequestFiber.arg hfresh
    · exact fun h => by simp [show s.frame.toBlocking.pc = _ from h] at hpc
  · exact ((hinv s hr).not_filler (i := i) hrun).elim
  · exact (hinv s hr).exited hrun hi

end

end XMPGym
