import Mathlib.Data.List.Perm.Subperm
import XMPGym.Abandoned
import XMPGym.PhaseStamps

/-!
# The monitored offload count

With monitoring on, `yielding_simple_ranker_request_stamped` reads `total_offloads` before it
submits and after it is resumed, and prints how far the counter has come without its own offload.
The accelerator counts an entry after it has released the submitter, and at one log level only;
the request reads at that level and above.  `Monitoring` relates the state of a run to one of the
handshake, where the entries taken are those of the successful calls.
-/

open Relation Transition

namespace XMPGym

variable {D : Type*}

/-! ## The requests -/

/-- What a request printed: the accelerator at its two reads of `total_offloads`. -/
structure Report where
  request : ℕ
  offloadsBeforeYielding : EmulSys
  offloadsAfterYielding : EmulSys

/-- `offloads_after_yielding - offloads_before_yielding - 1`, of type `uint64_t` -/
def Report.printed (r : Report) : ℕ :=
  stampDiff (stampDiff r.offloadsAfterYielding.shared.totalOffloads
    r.offloadsBeforeYielding.shared.totalOffloads) 1

/-- The accelerator, the writes to the arrays of time stamps and what the requests have printed,
oldest first. -/
structure MonitorMem where
  ax : EmulSys
  stamps : List StampWrite
  reports : List Report

/-- The local variables; `offloads_before_yielding` is `none` until it is set, and then the
accelerator at the read. -/
structure StampedLocals (D : Type*) where
  call : SubmitFrame
  data : D
  offloadsBeforeYielding : Option EmulSys

/-- An instruction without control flow. -/
def straightOp (f : StampedLocals D → MonitorMem → StampedLocals D × MonitorMem)
    (l : StampedLocals D) (m : MonitorMem) : StampedLocals D × MonitorMem × Next :=
  ((f l m).1, (f l m).2, .next)

/-- `if(gLogLevel >= LOG_MONITOR) offloads_before_yielding = total_offloads` -/
def readBefore (p : AxParams) (l : StampedLocals D) (m : MonitorMem) :
    StampedLocals D × MonitorMem :=
  (if logMonitor ≤ p.gLogLevel then { l with offloadsBeforeYielding := some m.ax } else l, m)

/-- `ts[id] = sampleCoderdtsc()`, for one of the arrays `ts0` to `ts3` -/
def stampOp (ts id : ℕ) (l : StampedLocals D) (m : MonitorMem) : StampedLocals D × MonitorMem :=
  (l, { m with stamps := m.stamps ++ [⟨id, ts, id, m.ax.clock⟩] })

/-- `status = submit_offload(comp, head)`, one access after the other, and the `return` on
`STATUS_FAIL`. -/
def stampedSubmitOp (l : StampedLocals D) (m : MonitorMem) :
    StampedLocals D × MonitorMem × Next :=
  match submitOp (l.call, l.data) m.ax with
  | ((call, data), ax, n) => ({ l with call := call, data := data }, { m with ax := ax }, n)

/-- `if(gLogLevel >= LOG_MONITOR)`: the second read of `total_offloads`, and the print. -/
def readAfter (p : AxParams) (id : ℕ) (l : StampedLocals D) (m : MonitorMem) :
    StampedLocals D × MonitorMem :=
  (l,
    if logMonitor ≤ p.gLogLevel then
      { m with reports :=
          m.reports ++ (l.offloadsBeforeYielding.map fun before => ⟨id, before, m.ax⟩).toList }
    else m)

/-- `ll_simple(head)` -/
def llSimpleOp (llSimple : D → D) (l : StampedLocals D) (m : MonitorMem) :
    StampedLocals D × MonitorMem :=
  ({ l with data := llSimple l.data }, m)

/-- `yielding_simple_ranker_request_stamped`, of the request `id` -/
def yieldingSimpleRankerRequestStamped (p : AxParams) (llSimple : D → D) (id : ℕ) :
    List (Instr (StampedLocals D) MonitorMem) :=
  yieldingRequest
    [straightOp (readBefore p), straightOp (stampOp 0 id), stampedSubmitOp,
      straightOp (stampOp 1 id)]
    [straightOp (readAfter p id), straightOp (stampOp 2 id), straightOp (llSimpleOp llSimple),
      straightOp (stampOp 3 id)]

/-- The emulated accelerator as hardware, beside the logs. -/
def monitorHardware (p : AxParams) : Hardware MonitorMem where
  status m i := m.ax.shared.comps i
  clock m := m.ax.clock
  Moves m m' := ∃ a, (emulHardware p).Moves m.ax a ∧ m' = { m with ax := a }

/-- A closed loop with these requests. -/
def ClosedLoop.monitored (e : ClosedLoop) (p : AxParams) (llSimple : D → D) (dst : ℕ → ℕ)
    (data : ℕ → D) : Program ClosedFrame (StampedLocals D) MonitorMem :=
  e.program (monitorHardware p) (yieldingSimpleRankerRequestStamped p llSimple)
    fun i => ⟨.init i (dst i), data i, none⟩

/-! ## The counter -/

/-- The records of the entries that the accelerator has taken, oldest first. -/
def EmulSys.taken (a : EmulSys) : List ℕ :=
  (acceptedIn a.history).map OffloadEntry.comp ++ pushing a.frame

/-- The entries that are taken and not counted yet: the last one, until the thread comes to the
end of the accepting branch. -/
def uncounted : EmulPc → ℕ
  | .acceptRelease _ _ | .push _ _ | .count => 1
  | _ => 0

/-- What `total_offloads` says, from a value `v` on: at the level `LOG_MONITOR` the entries taken
without the one that is not counted yet, and nothing at another level. -/
def Counts (p : AxParams) (v : ℕ) (a : EmulSys) : Prop :=
  if p.gLogLevel = logMonitor then
    a.shared.totalOffloads + uncounted a.frame.pc = v + a.taken.length
  else a.shared.totalOffloads = v

/-- The accelerator is past its start, no request is pending, and entries are counted from here. -/
structure EmulSys.Listening (a : EmulSys) : Prop where
  settled : Settled a.shared a.frame.pc
  history : a.history = []
  pushing : pushing a.frame = []

section counter

variable {p : AxParams} {v : ℕ} {a : EmulSys} {t t' : OffloadSys}

theorem recorded_eq_taken (t : OffloadSys) : recorded t = t.ax.taken := rfl

theorem EmulSys.Listening.taken (h : a.Listening) : a.taken = [] := by
  simp [EmulSys.taken, h.history, h.pushing, acceptedIn]

/-- The value from which the counter goes on. -/
theorem EmulSys.Listening.counts (p : AxParams) (h : a.Listening) : ∃ v, Counts p v a := by
  refine ⟨if p.gLogLevel = logMonitor then a.shared.totalOffloads + uncounted a.frame.pc
    else a.shared.totalOffloads, ?_⟩
  unfold Counts
  split_ifs <;> simp [h.taken]

theorem EmulSys.Listening.account (h : a.Listening) : Account [] (noCalls a) where
  sync := h.settled
  taken := h.taken

/-- The accelerator does not go back to its start. -/
theorem Sync.ne_resetTotal {c : Option SubmitFrame} {sh : Shared} {pc : EmulPc}
    (h : Sync c sh pc) : pc ≠ .resetTotal := by
  rintro rfl
  cases c with
  | none => simp [Sync, Settled, Quiet] at h
  | some f => cases hf : f.pc <;> simp [Sync, hf, Settled, Pending, Answered, Quiet] at h

/-- A step of the accelerator takes an entry, counts one, or does neither. -/
theorem uncounted_emul (p : AxParams) (a : EmulSys) :
    uncounted (a.emul p).frame.pc =
      match a.frame.pc with
      | .loadAddr _ | .acceptRelease _ _ | .push _ _ => 1
      | _ => 0 := by
  cases hpc : a.frame.pc with
  | top =>
      cases hr : a.shared.axRunning <;> cases hf : a.frame.offloadInFlight <;>
        simp [EmulSys.emul, nonblockingEmulAx, uncounted, hpc, hr, hf]
  | time | poll | stamp =>
      simp only [EmulSys.emul, nonblockingEmulAx, hpc]
      split_ifs <;> rfl
  | complete u =>
      cases hl : a.frame.offloadInFlightList <;>
        simp [EmulSys.emul, nonblockingEmulAx, uncounted, completeFront, hpc, hl]
  | _ => simp [EmulSys.emul, nonblockingEmulAx, uncounted, pushEntry, hpc]

theorem totalOffloads_emul (p : AxParams) (h : a.frame.pc ≠ .resetTotal) :
    (a.emul p).shared.totalOffloads = a.shared.totalOffloads +
      if p.gLogLevel = logMonitor ∧ a.frame.pc = .count then 1 else 0 := by
  cases hpc : a.frame.pc with
  | resetTotal => exact absurd hpc h
  | complete u =>
      cases hl : a.frame.offloadInFlightList <;>
        simp [EmulSys.emul, nonblockingEmulAx, completeFront, hpc, hl]
  | top | time | poll | stamp | count =>
      simp only [EmulSys.emul, nonblockingEmulAx, hpc]
      split_ifs <;> simp_all
  | _ => simp [EmulSys.emul, nonblockingEmulAx, hpc]

theorem Counts.emul (h : Counts p v a) (hpc : a.frame.pc ≠ .resetTotal) :
    Counts p v (a.emul p) := by
  have htaken := recorded_emul p ⟨a, none, []⟩
  simp only [recorded_eq_taken, OffloadSys.emul] at htaken
  have htotal := totalOffloads_emul p hpc
  by_cases hlevel : p.gLogLevel = logMonitor
  · simp only [Counts, hlevel, if_true, true_and] at h htotal ⊢
    rw [htotal, uncounted_emul, htaken]
    cases hx : a.frame.pc <;> simp [hx, uncounted] at h ⊢ <;> omega
  · simp only [Counts, hlevel, if_false, false_and, Nat.add_zero] at h htotal ⊢
    exact htotal.trans h

theorem Counts.congr {b : EmulSys} (h : Counts p v a)
    (htotal : b.shared.totalOffloads = a.shared.totalOffloads) (hframe : b.frame = a.frame)
    (hhist : b.history = a.history) : Counts p v b := by
  unfold Counts EmulSys.taken at h ⊢
  rwa [htotal, hframe, hhist]

theorem submitOffload_totalOffloads (f : SubmitFrame) (sh : Shared) :
    (submitOffload f sh).2.totalOffloads = sh.totalOffloads := by
  unfold submitOffload
  split <;> try rfl
  split_ifs <;> rfl

/-- The counter keeps up along a run of the handshake. -/
theorem preserved_counts (v : ℕ) :
    Preserved (OffloadSys.Step p) fun t => Account [] t ∧ Counts p v t.ax := by
  refine (preserved_account []).and_of fun t t' hs hacc h => ?_
  cases hs with
  | emul => exact h.emul hacc.sync.ne_resetTotal
  | tick | call | ret => exact h
  | submit f hc => exact h.congr (submitOffload_totalOffloads f t.ax.shared) rfl rfl

end counter

/-! ## Reports -/

/-- The number of entries in the list after that of request `i`. -/
def takenAfter (i : ℕ) (l : List ℕ) : ℕ := (l.dropWhile (· ≠ i)).tail.length

/-- The printed number is that of the entries the accelerator took after the request's own.  It
takes none between the resumption of the request and its second read, where no call is in
progress. -/
def Report.Exact (r : Report) : Prop :=
  r.printed = takenAfter r.request r.offloadsAfterYielding.taken

/-- As many entries wait to be counted at the second read as at the first. -/
def Report.EquallyBehind (r : Report) : Prop :=
  uncounted r.offloadsBeforeYielding.frame.pc = uncounted r.offloadsAfterYielding.frame.pc

instance (r : Report) : Decidable r.Exact := inferInstanceAs (Decidable (_ = _))

instance (r : Report) : Decidable r.EquallyBehind := inferInstanceAs (Decidable (_ = _))

/-- What is known of a report: the request's own entry and no other was taken twice, and when the
number is right. -/
structure Report.Settles (p : AxParams) (r : Report) : Prop where
  own : r.request ∈ r.offloadsAfterYielding.taken
  nodup : r.offloadsAfterYielding.taken.Nodup
  exact_iff : r.Exact ↔ p.gLogLevel = logMonitor ∧ r.EquallyBehind

section reports

variable {p : AxParams} {v : ℕ} {r : Report}

theorem takenAfter_append {i : ℕ} {l : List ℕ} (h : i ∉ l) (l' : List ℕ) :
    takenAfter i (l ++ i :: l') = l'.length := by
  have hall : ∀ j ∈ l, (j ≠ i) = True := fun j hj => eq_true fun e => h (e ▸ hj)
  rw [takenAfter, List.dropWhile_append_of_pos (by simpa using hall)]
  simp

theorem uncounted_le (pc : EmulPc) : uncounted pc ≤ 1 := by
  cases pc <;> simp [uncounted]

/-- The difference of the two reads, when the entries are the old ones, the request's own and some
more. -/
theorem Report.settles {l : List ℕ} (hbefore : Counts p v r.offloadsBeforeYielding)
    (hafter : Counts p v r.offloadsAfterYielding)
    (htaken : r.offloadsAfterYielding.taken =
      r.offloadsBeforeYielding.taken ++ r.request :: l)
    (hnodup : r.offloadsAfterYielding.taken.Nodup) (hl : l.length + 1 < 2 ^ 64) :
    r.Settles p := by
  have hnew : r.request ∉ r.offloadsBeforeYielding.taken := by
    rw [htaken, List.nodup_append] at hnodup
    exact fun hmem => hnodup.2.2 _ hmem _ List.mem_cons_self rfl
  refine ⟨by simp [htaken], hnodup, ?_⟩
  have hb := uncounted_le r.offloadsBeforeYielding.frame.pc
  have ha := uncounted_le r.offloadsAfterYielding.frame.pc
  rw [Report.Exact, Report.EquallyBehind, htaken, takenAfter_append hnew, Report.printed, stampDiff,
    stampDiff]
  by_cases hlevel : p.gLogLevel = logMonitor
  · simp only [Counts, hlevel, if_true, htaken, List.length_append, List.length_cons]
      at hbefore hafter
    simp only [hlevel, true_and]
    omega
  · -- the counter stands still
    simp only [Counts, hlevel, if_false] at hbefore hafter
    simp only [hlevel, false_and, iff_false, hbefore, hafter]
    omega

end reports

/-! ## What a request has done -/

section rest

variable (p : AxParams) (llSimple : D → D) (id : ℕ)

/-- What is left of a request after its print. -/
def printedRest : List (Instr (StampedLocals D) MonitorMem) :=
  [.op (straightOp (stampOp 2 id)), .op (straightOp (llSimpleOp llSimple)),
    .op (straightOp (stampOp 3 id)), .completed, .swap]

/-- What is left when it is resumed. -/
def resumedRest : List (Instr (StampedLocals D) MonitorMem) :=
  .op (straightOp (readAfter p id)) :: printedRest llSimple id

/-- What is left after the submission. -/
def submittedRest : List (Instr (StampedLocals D) MonitorMem) :=
  .op (straightOp (stampOp 1 id)) :: .swap :: resumedRest p llSimple id

/-- What is left during the submission. -/
def callRest : List (Instr (StampedLocals D) MonitorMem) :=
  .op stampedSubmitOp :: submittedRest p llSimple id

/-- What is left after the first read. -/
def readRest : List (Instr (StampedLocals D) MonitorMem) :=
  .op (straightOp (stampOp 0 id)) :: callRest p llSimple id

theorem yieldingSimpleRankerRequestStamped_eq : yieldingSimpleRankerRequestStamped p llSimple id =
    .op (straightOp (readBefore p)) :: readRest p llSimple id := rfl

/-- The first read was made after the calls that have been successful so far. -/
def HasRead (v : ℕ) (t : OffloadSys) (l : StampedLocals D) : Prop :=
  ∀ b, l.offloadsBeforeYielding = some b → Counts p v b ∧ successes t = b.taken

/-- Request `i` is in its call. -/
structure InCall (v : ℕ) (t : OffloadSys) (i : ℕ) (l : StampedLocals D) : Prop where
  client : t.client = some l.call
  comp : l.call.comp = i
  fresh : i ∉ successes t
  read : HasRead p v t l

/-- How far request `i` is, what it has read, and whether it is among the successful calls. -/
inductive StampedPhase (v : ℕ) (t : OffloadSys) (running : Running) (i : ℕ) (l : StampedLocals D)
    (c : List (Instr (StampedLocals D) MonitorMem)) : Prop where
  | fresh (d : ℕ) (hc : c = .op (straightOp (readBefore p)) :: readRest p llSimple i)
      (hcall : l.call = .init i d) (hunset : l.offloadsBeforeYielding = none)
      (hnew : i ∉ successes t)
  | reading (d : ℕ) (hc : c = readRest p llSimple i) (hrun : running = .at (.request i))
      (hcall : l.call = .init i d) (hnew : i ∉ successes t) (hread : HasRead p v t l)
  | calling (hc : c = callRest p llSimple i) (hrun : running = .at (.request i))
      (hcall : InCall p v t i l)
  | accepted (hc : c = submittedRest p llSimple i ∨ c = .swap :: resumedRest p llSimple i ∨
        c = resumedRest p llSimple i)
      (hread : ∀ b, l.offloadsBeforeYielding = some b →
        Counts p v b ∧ ∃ l', successes t = b.taken ++ i :: l')
  | printed (hc : c <:+ printedRest llSimple i)

end rest

/-- The state `t` of the handshake in the state `s` of a run. -/
structure Monitoring (p : AxParams) (llSimple : D → D) (v N : ℕ)
    (s : Sys ClosedFrame (StampedLocals D) MonitorMem) (t : OffloadSys) : Prop where
  ax : t.ax = s.mem.ax
  account : Account [] t
  counts : Counts p v t.ax
  phase : ∀ i, s.running ≠ .returned i →
    StampedPhase p llSimple v t s.running i (s.request i).locals (s.request i).code
  client : ∀ f, t.client = some f → ∃ i, s.running = .at (.request i) ∧
    (s.request i).code = callRest p llSimple i
  below : ∀ i ∈ successes t, i < N
  nodup : (successes t).Nodup
  reports : ∀ r ∈ s.mem.reports, r.Settles p

section monitoring

variable {p : AxParams} {llSimple : D → D} {v N i : ℕ} {t t' : OffloadSys}
  {s s' : Sys ClosedFrame (StampedLocals D) MonitorMem}

/-- A request that does not run keeps its phase while others succeed. -/
theorem StampedPhase.aside {run run' : Running} {l : StampedLocals D}
    {c : List (Instr (StampedLocals D) MonitorMem)} (h : StampedPhase p llSimple v t run i l c)
    (hrun : run ≠ .at (.request i)) {new : List ℕ}
    (hsucc : successes t' = successes t ++ new) (hnew : i ∉ new) :
    StampedPhase p llSimple v t' run' i l c := by
  cases h with
  | fresh d hc hcall hunset hi =>
      refine .fresh d hc hcall hunset ?_
      rw [hsucc, List.mem_append]
      exact fun hmem => hmem.elim hi hnew
  | reading d hc hrun' => exact absurd hrun' hrun
  | calling hc hrun' => exact absurd hrun' hrun
  | accepted hc hread =>
      refine .accepted hc fun b hb => ?_
      obtain ⟨hcounts, l', hl'⟩ := hread b hb
      exact ⟨hcounts, l' ++ new, by rw [hsucc, hl', List.append_assoc, List.cons_append]⟩
  | printed hc => exact .printed hc

/-- Outside of a call the entries taken are those of the successful calls. -/
theorem Monitoring.taken_eq (h : Monitoring p llSimple v N s t) (hc : t.client = none) :
    s.mem.ax.taken = successes t := by
  have := h.account.recorded_eq hc
  rwa [List.nil_append, recorded_eq_taken, h.ax] at this

theorem Monitoring.no_client (h : Monitoring p llSimple v N s t)
    (hrun : ∀ i, s.running = .at (.request i) → (s.request i).code ≠ callRest p llSimple i) :
    t.client = none := by
  cases hc : t.client with
  | none => rfl
  | some f =>
      obtain ⟨i, hi, hcode⟩ := h.client f hc
      exact absurd hcode (hrun i hi)

/-- A request that runs and is not in its call. -/
theorem Monitoring.no_client_of_length (h : Monitoring p llSimple v N s t)
    (hrun : s.running = .at (.request i)) (hlen : (s.request i).code.length ≠ 9) :
    t.client = none := by
  refine h.no_client fun k hk hcode => hlen ?_
  rw [hrun] at hk
  obtain rfl := Ctx.request.inj (Running.at.inj hk)
  rw [hcode]
  rfl

/-- The running request goes from one phase to another, and nobody else does anything. -/
theorem Monitoring.move (h : Monitoring p llSimple v N s t) (hrun : s.running = .at (.request i))
    (hother : ∀ j, j ≠ i → (s'.request j).locals = (s.request j).locals ∧
      (s'.request j).code = (s.request j).code)
    {new : List ℕ} (hsucc : successes t' = successes t ++ new) (hnew : ∀ j ∈ new, j = i)
    (hphase : s'.running ≠ .returned i →
      StampedPhase p llSimple v t' s'.running i (s'.request i).locals (s'.request i).code)
    (j : ℕ) (hj : s'.running ≠ .returned j) :
    StampedPhase p llSimple v t' s'.running j (s'.request j).locals (s'.request j).code := by
  rcases eq_or_ne j i with rfl | hne
  · exact hphase hj
  · obtain ⟨hlocals, hcode⟩ := hother j hne
    rw [hlocals, hcode]
    refine (h.phase j (by simp [hrun])).aside ?_ hsucc fun hmem => hne (hnew j hmem)
    rw [hrun]
    exact fun e => hne (Ctx.request.inj (Running.at.inj e)).symm

/-- The running request makes a step, which the handshake follows from `t` to `t'`. -/
theorem Monitoring.next (h : Monitoring p llSimple v N s t) (hrun : s.running = .at (.request i))
    (hax : t'.ax = s'.mem.ax) (hinv : Account [] t' ∧ Counts p v t'.ax)
    (hother : ∀ j, j ≠ i → (s'.request j).locals = (s.request j).locals ∧
      (s'.request j).code = (s.request j).code)
    {new : List ℕ} (hsucc : successes t' = successes t ++ new) (hnew : ∀ j ∈ new, j = i)
    (hlt : i < N) (hnodup : (successes t').Nodup)
    (hphase : s'.running ≠ .returned i →
      StampedPhase p llSimple v t' s'.running i (s'.request i).locals (s'.request i).code)
    (hclient : ∀ f, t'.client = some f →
      s'.running = .at (.request i) ∧ (s'.request i).code = callRest p llSimple i)
    (hreports : ∀ r ∈ s'.mem.reports, r.Settles p) : Monitoring p llSimple v N s' t' where
  ax := hax
  account := hinv.1
  counts := hinv.2
  phase := h.move hrun hother hsucc hnew hphase
  client f hf := ⟨i, hclient f hf⟩
  below j hj := by
    rw [hsucc, List.mem_append] at hj
    rcases hj with hj | hj
    · exact h.below j hj
    · exact hnew j hj ▸ hlt
  nodup := hnodup
  reports := hreports

/-- The running request makes a step outside of its call that leaves the accelerator alone. -/
theorem Monitoring.outside (h : Monitoring p llSimple v N s t)
    (hrun : s.running = .at (.request i)) (hlt : i < N)
    {ins : Instr (StampedLocals D) MonitorMem} {c : List (Instr (StampedLocals D) MonitorMem)}
    (hlen : (s.request i).code.length ≠ 9) (hax : (s.instr i c ins).mem.ax = s.mem.ax)
    (hphase : StampedPhase p llSimple v t (s.instr i c ins).running i
      ((s.instr i c ins).request i).locals ((s.instr i c ins).request i).code)
    (hreports : ∀ r ∈ (s.instr i c ins).mem.reports, r.Settles p) :
    Monitoring p llSimple v N (s.instr i c ins) t := by
  have hnone := h.no_client_of_length hrun hlen
  exact h.next hrun (h.ax.trans hax.symm) ⟨h.account, h.counts⟩
    (fun j hj => s.instr_other hj c ins) (List.append_nil _).symm (by simp) hlt h.nodup
    (fun _ => hphase) (by simp [hnone]) hreports

/-- A swap, or the count of a request: it goes on, or the thread faults. -/
theorem instr_other_than_op (s : Sys ClosedFrame (StampedLocals D) MonitorMem) (i : ℕ)
    (c : List (Instr (StampedLocals D) MonitorMem)) {ins : Instr (StampedLocals D) MonitorMem}
    (hins : ins = .swap ∨ ins = .completed) :
    (s.instr i c ins).mem = s.mem ∧
      ((s.instr i c ins).request i).locals = (s.request i).locals ∧
      (((s.instr i c ins).request i).code = c ∨
        ((s.instr i c ins).request i).code = (s.request i).code) := by
  rcases hins with rfl | rfl
  · simp only [Sys.instr]
    split <;> simp [Sys.setCode]
  · simp [Sys.instr, Sys.setCode]

/-- An instruction without control flow. -/
theorem instr_straight (s : Sys ClosedFrame (StampedLocals D) MonitorMem) (i : ℕ)
    (c : List (Instr (StampedLocals D) MonitorMem))
    (f : StampedLocals D → MonitorMem → StampedLocals D × MonitorMem) :
    s.instr i c (.op (straightOp f)) =
      { s with
        request := Function.update s.request i
          { s.request i with locals := (f (s.request i).locals s.mem).1, code := c }
        mem := (f (s.request i).locals s.mem).2 } := by
  simp [Sys.instr, straightOp]

/-- At most `N` calls have been successful. -/
theorem Monitoring.length_le (h : Monitoring p llSimple v N s t) :
    (successes t).length ≤ N := by
  have hsub : successes t ⊆ List.range N := fun j hj => List.mem_range.2 (h.below j hj)
  simpa using (h.nodup.subperm hsub).length_le

/-- The second read, outside of a call. -/
theorem Monitoring.report (h : Monitoring p llSimple v N s t) (hN : N < 2 ^ 64)
    (hnone : t.client = none) {b : EmulSys} (hb : Counts p v b) {l : List ℕ}
    (hl : successes t = b.taken ++ i :: l) : Report.Settles p ⟨i, b, s.mem.ax⟩ := by
  have htaken := h.taken_eq hnone
  have hlen := h.length_le
  rw [hl, List.length_append, List.length_cons] at hlen
  exact Report.settles hb (h.ax ▸ h.counts) (htaken.trans hl) (htaken ▸ h.nodup) (by omega)

/-- A request that has submitted goes on, up to its print. -/
theorem Monitoring.accepted (h : Monitoring p llSimple v N s t) (hN : N < 2 ^ 64)
    (hrun : s.running = .at (.request i)) (hlt : i < N)
    {ins : Instr (StampedLocals D) MonitorMem} {c : List (Instr (StampedLocals D) MonitorMem)}
    (hc : (s.request i).code = ins :: c)
    (hcode : ins :: c = submittedRest p llSimple i ∨
      ins :: c = .swap :: resumedRest p llSimple i ∨ ins :: c = resumedRest p llSimple i)
    (hread : ∀ b, (s.request i).locals.offloadsBeforeYielding = some b →
      Counts p v b ∧ ∃ l', successes t = b.taken ++ i :: l') :
    Monitoring p llSimple v N (s.instr i c ins) t := by
  have hlen : (s.request i).code.length ≠ 9 := by
    rw [hc]
    rcases hcode with e | e | e <;> rw [e] <;> simp [submittedRest, resumedRest, printedRest]
  rcases hcode with hcode | hcode | hcode
  · -- the second stamp
    obtain ⟨rfl, rfl⟩ := List.cons.inj hcode
    refine h.outside hrun hlt hlen ?_ ?_ ?_ <;> rw [instr_straight]
    · rfl
    · exact .accepted (.inr (.inl (by simp))) (by simpa [stampOp] using hread)
    · exact h.reports
  · obtain ⟨rfl, rfl⟩ := List.cons.inj hcode
    obtain ⟨hmem, hlocals, hcode'⟩ := instr_other_than_op s i (resumedRest p llSimple i) (.inl rfl)
    refine h.outside hrun hlt hlen (by rw [hmem]) ?_ (hmem ▸ h.reports)
    rw [hlocals]
    exact .accepted (.inr (hcode'.symm.imp (·.trans hc) id)) hread
  · -- the second read, and the print
    obtain ⟨rfl, rfl⟩ := List.cons.inj hcode
    have hnone := h.no_client_of_length hrun hlen
    refine h.outside hrun hlt hlen ?_ ?_ ?_ <;> rw [instr_straight]
    · simp only [readAfter]
      split_ifs <;> rfl
    · exact .printed (by simp)
    · simp only [readAfter]
      split_ifs with hlevel
      · intro r hr
        rcases List.mem_append.1 hr with hr | hr
        · exact h.reports r hr
        · rw [Option.mem_toList, Option.map_eq_some_iff] at hr
          obtain ⟨b, hb, rfl⟩ := hr
          obtain ⟨hcounts, l, hl⟩ := hread b hb
          exact h.report hN hnone hcounts hl
      · exact h.reports

/-- A statement after the print. -/
theorem printedRest_cases {ins : Instr (StampedLocals D) MonitorMem}
    (h : ins ∈ printedRest llSimple i) : (ins = .swap ∨ ins = .completed) ∨
      ∃ f, ins = .op (straightOp f) ∧
        ∀ l m, (f l m).2.ax = m.ax ∧ (f l m).2.reports = m.reports := by
  simp only [printedRest, List.mem_cons, List.not_mem_nil, or_false] at h
  rcases h with rfl | rfl | rfl | rfl | rfl
  · exact .inr ⟨_, rfl, fun _ _ => ⟨rfl, rfl⟩⟩
  · exact .inr ⟨_, rfl, fun _ _ => ⟨rfl, rfl⟩⟩
  · exact .inr ⟨_, rfl, fun _ _ => ⟨rfl, rfl⟩⟩
  · exact .inl (.inr rfl)
  · exact .inl (.inl rfl)

/-- A request goes on after its print. -/
theorem Monitoring.printed (h : Monitoring p llSimple v N s t) (hrun : s.running = .at (.request i))
    (hlt : i < N) {ins : Instr (StampedLocals D) MonitorMem}
    {c : List (Instr (StampedLocals D) MonitorMem)} (hc : (s.request i).code = ins :: c)
    (hsuf : ins :: c <:+ printedRest llSimple i) :
    Monitoring p llSimple v N (s.instr i c ins) t := by
  have hlen : (s.request i).code.length ≠ 9 := by
    have := hsuf.length_le
    rw [← hc] at this
    simp only [printedRest, List.length_cons, List.length_nil] at this
    omega
  have hsuf' : c <:+ printedRest llSimple i := (List.suffix_cons ins c).trans hsuf
  rcases printedRest_cases (hsuf.subset List.mem_cons_self) with hins | ⟨f, rfl, hf⟩
  · obtain ⟨hmem, -, hcode'⟩ := instr_other_than_op s i c hins
    refine h.outside hrun hlt hlen (by rw [hmem]) (.printed ?_) (hmem ▸ h.reports)
    rcases hcode' with e | e <;> rw [e]
    · exact hsuf'
    · rwa [hc]
  · refine h.outside hrun hlt hlen ?_ ?_ ?_ <;> rw [instr_straight]
    · exact (hf _ _).1
    · exact .printed (by simpa using hsuf')
    · exact fun r hr => h.reports r ((hf _ _).2 ▸ hr)

/-- The first read. -/
theorem Monitoring.readBefore (h : Monitoring p llSimple v N s t)
    (hrun : s.running = .at (.request i)) (hlt : i < N)
    (hc : (s.request i).code = .op (straightOp (readBefore p)) :: readRest p llSimple i) {d : ℕ}
    (hcall : (s.request i).locals.call = .init i d)
    (hunset : (s.request i).locals.offloadsBeforeYielding = none) (hnew : i ∉ successes t) :
    Monitoring p llSimple v N
      (s.instr i (readRest p llSimple i) (.op (straightOp (XMPGym.readBefore p)))) t := by
  have hlen : (s.request i).code.length ≠ 9 := by
    rw [hc]
    simp [readRest, callRest, submittedRest, resumedRest, printedRest]
  have htaken := h.taken_eq (h.no_client_of_length hrun hlen)
  refine h.outside hrun hlt hlen ?_ ?_ ?_ <;> rw [instr_straight]
  · rfl
  · refine .reading d (by simp) hrun ?_ hnew fun b hb => ?_
    · simp only [XMPGym.readBefore, Function.update_self]
      split_ifs <;> exact hcall
    · simp only [XMPGym.readBefore, Function.update_self] at hb
      split_ifs at hb
      · obtain rfl := Option.some.inj hb
        exact ⟨h.ax ▸ h.counts, htaken.symm⟩
      · simp [hunset] at hb
  · exact h.reports

/-- The first stamp, after which the call begins. -/
theorem Monitoring.call (h : Monitoring p llSimple v N s t) (hrun : s.running = .at (.request i))
    (hlt : i < N) (hc : (s.request i).code = readRest p llSimple i) {d : ℕ}
    (hcall : (s.request i).locals.call = .init i d) (hnew : i ∉ successes t)
    (hread : HasRead p v t (s.request i).locals) :
    Monitoring p llSimple v N (s.instr i (callRest p llSimple i) (.op (straightOp (stampOp 0 i))))
      { t with client := some (.init i d) } := by
  have hnone : t.client = none := by
    refine h.no_client_of_length hrun ?_
    rw [hc]
    simp [readRest, callRest, submittedRest, resumedRest, printedRest]
  have hstep : OffloadSys.Step p t { t with client := some (.init i d) } := .call t i d hnone
  refine h.next hrun ?_ (preserved_counts v hstep ⟨h.account, h.counts⟩)
    (fun j hj => s.instr_other hj _ _) (List.append_nil _).symm (by simp) hlt h.nodup ?_ ?_ ?_ <;>
    rw [instr_straight]
  · exact h.ax
  · refine fun _ => .calling (by simp) hrun ⟨?_, ?_, hnew, fun b hb => ?_⟩
    · simp [stampOp, hcall]
    · simp [stampOp, hcall, SubmitFrame.init]
    · exact hread b (by simpa [stampOp] using hb)
  · exact fun f hf => ⟨hrun, by simp⟩
  · exact h.reports

/-- The call returns: its status, and what the request does with it. -/
theorem Monitoring.ret (h : Monitoring p llSimple v N s t) (hrun : s.running = .at (.request i))
    (hlt : i < N) (hcall : InCall p v t i (s.request i).locals) {r : ℤ}
    (hr : (s.request i).locals.call.pc = .returned r) :
    Monitoring p llSimple v N (s.instr i (submittedRest p llSimple i) (.op stampedSubmitOp))
      { t with client := none, returned := t.returned ++ [(i, r)] } := by
  have hstat : r = statusSuccess ∨ r = statusFail := by
    have := h.account.sync
    simp only [hcall.client, Sync, hr] at this
    exact this.2
  have hstep : OffloadSys.Step p t { t with client := none, returned := t.returned ++ [(i, r)] } :=
    hcall.comp ▸ .ret t _ r hcall.client hr
  have hop : stampedSubmitOp (s.request i).locals s.mem =
      ((s.request i).locals, s.mem, if r = statusFail then .ret else .next) := by
    simp [stampedSubmitOp, submitOp, hr]
  have hsucc : successes { t with client := none, returned := t.returned ++ [(i, r)] } =
      successes t ++ if r = statusSuccess then [i] else [] := by
    by_cases hs : r = statusSuccess <;> simp [successes, List.filter_append, hs]
  have hnodup : (successes t ++ if r = statusSuccess then [i] else []).Nodup := by
    split_ifs
    · exact List.nodup_append.2 ⟨h.nodup, by simp, fun j hj k hk => by
        obtain rfl := List.mem_singleton.1 hk
        exact fun e => hcall.fresh (e ▸ hj)⟩
    · simpa using h.nodup
  refine h.next hrun (by simpa [Sys.instr, hop] using h.ax)
    (preserved_counts v hstep ⟨h.account, h.counts⟩) (fun j hj => s.instr_other hj _ _) hsucc
    (by split_ifs <;> simp) hlt (hsucc ▸ hnodup) (fun hne => ?_) (fun f hf => by cases hf)
    (by simpa [Sys.instr, hop] using h.reports)
  rcases hstat with rfl | rfl
  · refine .accepted (.inl ?_) fun b hb => ?_
    · simp [Sys.instr, hop, statusSuccess, statusFail]
    · obtain ⟨hcounts, hb'⟩ := hcall.read b (by simpa [Sys.instr, hop] using hb)
      exact ⟨hcounts, [], by rw [hsucc, hb', if_pos rfl]⟩
  · simp [Sys.instr, hop] at hne

/-- The running request makes a step of its call. -/
theorem Monitoring.submit (h : Monitoring p llSimple v N s t)
    (hrun : s.running = .at (.request i)) (hlt : i < N)
    (hcall : InCall p v t i (s.request i).locals)
    (hr : ∀ r, (s.request i).locals.call.pc ≠ .returned r) :
    Monitoring p llSimple v N (s.instr i (submittedRest p llSimple i) (.op stampedSubmitOp))
      (t.submit (s.request i).locals.call) := by
  have hop : stampedSubmitOp (s.request i).locals s.mem =
      ({ (s.request i).locals with
          call := (submitOffload (s.request i).locals.call s.mem.ax.shared).1 },
        { s.mem with ax := { s.mem.ax with
          shared := (submitOffload (s.request i).locals.call s.mem.ax.shared).2 } },
        .stay) := by
    have hsubmit : submitOp ((s.request i).locals.call, (s.request i).locals.data) s.mem.ax =
        (((submitOffload (s.request i).locals.call s.mem.ax.shared).1, (s.request i).locals.data),
          { s.mem.ax with
            shared := (submitOffload (s.request i).locals.call s.mem.ax.shared).2 }, .stay) := by
      unfold submitOp
      split
      · next r hpc => exact absurd hpc (hr r)
      · rfl
    simp [stampedSubmitOp, hsubmit]
  refine h.next hrun (by simp [Sys.instr, hop, OffloadSys.submit, h.ax])
    (preserved_counts v (.submit t _ hcall.client) ⟨h.account, h.counts⟩)
    (fun j hj => s.instr_other hj _ _) (List.append_nil _).symm (by simp) hlt h.nodup
    (fun _ => ?_) (fun f hf => ?_) (by simpa [Sys.instr, hop] using h.reports)
  · refine .calling (by simp [Sys.instr, hop, callRest]) (by simp [Sys.instr, hop, hrun])
      ⟨?_, ?_, hcall.fresh, fun b hb => ?_⟩
    · simp [Sys.instr, hop, OffloadSys.submit, h.ax]
    · simp [Sys.instr, hop, submitOffload_comp, hcall.comp]
    · exact hcall.read b (by simpa [Sys.instr, hop] using hb)
  · exact ⟨by simp [Sys.instr, hop, hrun], by simp [Sys.instr, hop, callRest]⟩

/-- An instruction of the request that runs. -/
theorem Monitoring.instr (h : Monitoring p llSimple v N s t) (hN : N < 2 ^ 64)
    (hrun : s.running = .at (.request i)) (hlt : i < N)
    {ins : Instr (StampedLocals D) MonitorMem} {c : List (Instr (StampedLocals D) MonitorMem)}
    (hc : (s.request i).code = ins :: c) :
    ∃ t', Monitoring p llSimple v N (s.instr i c ins) t' := by
  cases h.phase i (by simp [hrun]) with
  | fresh d hcode hcall hunset hnew =>
      obtain ⟨rfl, rfl⟩ := List.cons.inj (hc.symm.trans hcode)
      exact ⟨t, h.readBefore hrun hlt hcode hcall hunset hnew⟩
  | reading d hcode hrun' hcall hnew hread =>
      obtain ⟨rfl, rfl⟩ := List.cons.inj (hc.symm.trans hcode)
      exact ⟨_, h.call hrun hlt hcode hcall hnew hread⟩
  | calling hcode hrun' hcall =>
      obtain ⟨rfl, rfl⟩ := List.cons.inj (hc.symm.trans hcode)
      by_cases hr : ∃ r, (s.request i).locals.call.pc = .returned r
      · obtain ⟨r, hr⟩ := hr
        exact ⟨_, h.ret hrun hlt hcall hr⟩
      · exact ⟨_, h.submit hrun hlt hcall fun r hr' => hr ⟨r, hr'⟩⟩
  | accepted hcode hread => exact ⟨t, h.accepted hN hrun hlt hc (hc ▸ hcode) hread⟩
  | printed hcode => exact ⟨t, h.printed hrun hlt hc (hc ▸ hcode)⟩

/-- The accelerator moves, or its clock advances. -/
theorem Monitoring.hw (h : Monitoring p llSimple v N s t) {m : MonitorMem}
    (hm : (monitorHardware p).Moves s.mem m) :
    ∃ t', Monitoring p llSimple v N { s with mem := m } t' := by
  have follow {t' : OffloadSys} (hstep : OffloadSys.Step p t t') (hclient : t'.client = t.client)
      (hret : t'.returned = t.returned) (hax : t'.ax = m.ax)
      (hreports : m.reports = s.mem.reports) :
      Monitoring p llSimple v N { s with mem := m } t' := by
    have hsucc : successes t' = successes t := by rw [successes, hret, successes]
    obtain ⟨hacc, hcounts⟩ := preserved_counts v hstep ⟨h.account, h.counts⟩
    refine ⟨hax, hacc, hcounts, fun i hi => ?_, hclient ▸ h.client, hsucc ▸ h.below,
      hsucc ▸ h.nodup, hreports ▸ h.reports⟩
    cases h.phase i hi with
    | fresh d hc hcall hunset hnew => exact .fresh d hc hcall hunset (hsucc ▸ hnew)
    | reading d hc hrun hcall hnew hread =>
        exact .reading d hc hrun hcall (hsucc ▸ hnew) fun b hb => hsucc ▸ hread b hb
    | calling hc hrun hcall =>
        exact .calling hc hrun ⟨hclient.trans hcall.client, hcall.comp, hsucc ▸ hcall.fresh,
          fun b hb => hsucc ▸ hcall.read b hb⟩
    | accepted hc hread => exact .accepted hc (hsucc ▸ hread)
    | printed hc => exact .printed hc
  obtain ⟨a, ha | ⟨u, hu, ha⟩, rfl⟩ := hm
  · exact ⟨_, follow (.emul t) rfl rfl (by rw [ha, OffloadSys.emul, h.ax]) rfl⟩
  · exact ⟨_, follow (.tick t u (h.ax ▸ hu)) rfl rfl (by rw [ha, h.ax]) rfl⟩

/-- A step of the executor. -/
theorem Monitoring.aside (h : Monitoring p llSimple v N s t) {c : Ctx} (hrun : s.running = .at c)
    (hne : ∀ i, c ≠ .request i) (hcode : ∀ i, (s'.request i).code = (s.request i).code)
    (hlocals : ∀ i, (s'.request i).locals = (s.request i).locals) (hmem : s'.mem = s.mem) :
    Monitoring p llSimple v N s' t := by
  have hother : ∀ i, s.running ≠ .at (.request i) := by simpa [hrun] using hne
  refine ⟨h.ax.trans (congrArg MonitorMem.ax hmem.symm), h.account, h.counts, fun i _ => ?_,
    fun f hf => ?_, h.below, h.nodup, hmem ▸ h.reports⟩
  · rw [hcode, hlocals]
    exact (h.phase i (by simp [hrun])).aside (hother i) (List.append_nil _).symm
      List.not_mem_nil
  · rw [h.no_client fun i hi => absurd hi (hother i)] at hf
    cases hf

/-- A request without anything left to do returns. -/
theorem Monitoring.ended (h : Monitoring p llSimple v N s t) (hrun : s.running = .at (.request i))
    (hc : (s.request i).code = []) :
    Monitoring p llSimple v N { s with running := .returned i } t where
  ax := h.ax
  account := h.account
  counts := h.counts
  phase := h.move hrun (fun _ _ => ⟨rfl, rfl⟩) (List.append_nil _).symm (by simp) (by simp)
  client f hf := by
    rw [h.no_client_of_length hrun (by simp [hc])] at hf
    cases hf
  below := h.below
  nodup := h.nodup
  reports := h.reports

theorem Monitoring.step (h : Monitoring p llSimple v N s t) (hN : N < 2 ^ 64)
    (hlt : ∀ i, s.running = .at (.request i) → i < N)
    {P : Program ClosedFrame (StampedLocals D) MonitorMem} (hP : P.hw = monitorHardware p)
    (hs : Sys.Step P s s') : ∃ t', Monitoring p llSimple v N s' t' := by
  cases hs.fires with
  | hw m hm => exact h.hw (hP ▸ hm)
  | aside _ c hrun hne hcode hlocals hmem => exact ⟨t, h.aside hrun hne hcode hlocals hmem⟩
  | instr i ins c hrun hc => exact h.instr hN hrun (hlt i hrun) hc
  | ended i hrun hc => exact ⟨t, h.ended hrun hc⟩

end monitoring

/-! ## When the printed number is right -/

section runs

variable {e : ClosedLoop} {p : AxParams} {llSimple : D → D} {dst : ℕ → ℕ} {data : ℕ → D}
  {a : EmulSys} {s : Sys ClosedFrame (StampedLocals D) MonitorMem}

theorem monitoring_init {v : ℕ} (ha : a.Listening) (hv : Counts p v a) (N : ℕ) :
    Monitoring p llSimple v N (.init (e.monitored p llSimple dst data) ⟨a, [], []⟩)
      (noCalls a) where
  ax := rfl
  account := ha.account
  counts := hv
  phase i _ :=
    .fresh (dst i) (yieldingSimpleRankerRequestStamped_eq p llSimple i) rfl rfl List.not_mem_nil
  client f hf := by cases hf
  below i hi := by cases hi
  nodup := List.nodup_nil
  reports r hr := by cases hr

theorem monitoring_of_reachable (ha : a.Listening) (hN : e.totalRequests < 2 ^ 64)
    (hr : Sys.Reachable (e.monitored p llSimple dst data) ⟨a, [], []⟩ s) :
    ∃ v t, Monitoring p llSimple v e.totalRequests s t := by
  obtain ⟨v, hv⟩ := ha.counts p
  refine ⟨v, ?_⟩
  induction hr with
  | refl => exact ⟨noCalls a, monitoring_init ha hv _⟩
  | tail hr hs ih =>
      obtain ⟨t, h⟩ := ih
      exact h.step hN (fun i hi => request_lt_of_reachable hr hi) rfl hs

/-- In every run of a closed loop whose number of requests is an `int`, however it is interleaved
with the accelerator, a printed number is that of the requests whose offloads were accepted after
the request's own exactly if the level is `LOG_MONITOR` and the accelerator owes the counter as many
entries at the second read as at the first. -/
theorem yieldingSimpleRankerRequestStamped_exact_iff (e : ClosedLoop)
    (hN : e.totalRequests < 2 ^ 64) (p : AxParams) (llSimple : D → D) (dst : ℕ → ℕ) (data : ℕ → D)
    {a : EmulSys} (ha : a.Listening) {s : Sys ClosedFrame (StampedLocals D) MonitorMem}
    (hr : Sys.Reachable (e.monitored p llSimple dst data) ⟨a, [], []⟩ s) :
    ∀ r ∈ s.mem.reports, r.Settles p := by
  obtain ⟨v, t, h⟩ := monitoring_of_reachable ha hN hr
  exact h.reports

end runs

/-! ## Two requests -/

/-- A move of the accelerator (`none`), or of its clock. -/
def monitorMove (p : AxParams) (m : MonitorMem) : Option ℕ → Option MonitorMem
  | none => some { m with ax := m.ax.emul p }
  | some t => if m.ax.clock ≤ t then some { m with ax := { m.ax with clock := t } } else none

theorem moves_of_monitorMove {p : AxParams} (m : MonitorMem) (c : Option ℕ) (m' : MonitorMem)
    (h : monitorMove p m c = some m') : (monitorHardware p).Moves m m' := by
  cases c with
  | none =>
      obtain rfl := Option.some.inj h
      exact ⟨_, .inl rfl, rfl⟩
  | some t =>
      simp only [monitorMove, Option.ite_none_right_eq_some, Option.some.injEq] at h
      obtain ⟨ht, rfl⟩ := h
      exact ⟨_, .inr ⟨t, ht, rfl⟩, rfl⟩

/-- An accelerator with two slots, at a level of logging. -/
def twoSlots (gLogLevel : ℤ) : AxParams := ⟨2, 5, gLogLevel, false⟩

/-- Two requests under the breakdown executor. -/
def twoMonitored (gLogLevel : ℤ) : Program ClosedFrame (StampedLocals ℕ) MonitorMem :=
  (executeYieldingRequestsClosedSystemRequestBreakdown 2).monitored (twoSlots gLogLevel) Nat.succ
    id id

/-- The accelerator has not counted the first entry when the second request reads the counter; both
are counted and complete before the first request is resumed. -/
def twoAccepted : List (Option (Option ℕ)) :=
  List.replicate 8 none ++ List.replicate 6 (some none) ++ List.replicate 12 none ++
    List.replicate 12 (some none) ++ List.replicate 5 none ++ [some (some 5)] ++
    List.replicate 14 (some none) ++ List.replicate 12 none

theorem pollingSys_listening : pollingSys.ax.Listening := ⟨⟨rfl, trivial⟩, rfl, rfl⟩

/-- The request, what it printed, the number of entries taken after its own, and whether the
counter was as far behind at both reads. -/
def Report.row (r : Report) : ℕ × ℕ × ℕ × Bool :=
  (r.request, r.printed, takenAfter r.request r.offloadsAfterYielding.taken, r.EquallyBehind)

/-- The reports of a run. -/
def reportRows (gLogLevel : ℤ) (l : List (Option (Option ℕ))) : Option (List (ℕ × ℕ × ℕ × Bool)) :=
  (Sys.schedule (monitorMove (twoSlots gLogLevel)) (twoMonitored gLogLevel)
    ⟨pollingSys.ax, [], []⟩ l).map fun s => s.mem.reports.map Report.row

theorem reachable_of_reportRows {gLogLevel : ℤ} {l : List (Option (Option ℕ))}
    {rows : List (ℕ × ℕ × ℕ × Bool)} (h : reportRows gLogLevel l = some rows) :
    ∃ s, Sys.Reachable (twoMonitored gLogLevel) ⟨pollingSys.ax, [], []⟩ s ∧
      s.mem.reports.map Report.row = rows := by
  obtain ⟨s, hs, hrows⟩ := Option.map_eq_some_iff.1 h
  exact ⟨s, Sys.reachable_of_schedule moves_of_monitorMove hs, hrows⟩

/-- The first request prints that one was offloaded while it was away, which is right; the second
prints the same, which is wrong. -/
theorem yieldingSimpleRankerRequestStamped_exact_two :
    ∃ s, Sys.Reachable (twoMonitored logMonitor) ⟨pollingSys.ax, [], []⟩ s ∧
      s.mem.reports.map Report.row = [(0, 1, 1, true), (1, 1, 0, false)] ∧
      ∀ r ∈ s.mem.reports, r.Exact ↔ r.request = 0 := by
  have htwo : reportRows logMonitor twoAccepted = some [(0, 1, 1, true), (1, 1, 0, false)] := by
    decide +kernel
  obtain ⟨s, hr, hrows⟩ := reachable_of_reportRows htwo
  refine ⟨s, hr, hrows, fun r hmem => ?_⟩
  have h := yieldingSimpleRankerRequestStamped_exact_iff
    (executeYieldingRequestsClosedSystemRequestBreakdown 2) (by decide) (twoSlots logMonitor)
    Nat.succ id id pollingSys_listening hr r hmem
  have hrow : r.row ∈ [(0, 1, 1, true), (1, 1, 0, false)] := hrows ▸ List.mem_map_of_mem hmem
  simp only [List.mem_cons, List.not_mem_nil, or_false, Report.row, Prod.mk.injEq,
    decide_eq_true_eq, decide_eq_false_iff_not] at hrow
  rw [h.exact_iff]
  rcases hrow with ⟨hreq, -, -, hlevel⟩ | ⟨hreq, -, -, hlevel⟩
  · simp [hreq, hlevel, twoSlots]
  · simp [hreq, hlevel]

/-- A row with a wrong number comes from a report with that number. -/
theorem exists_inexact_of_row {gLogLevel : ℤ} {l : List (Option (Option ℕ))}
    {rows : List (ℕ × ℕ × ℕ × Bool)} {i n k : ℕ} {b : Bool}
    (hrows : reportRows gLogLevel l = some rows) (hmem : (i, n, k, b) ∈ rows) (hne : n ≠ k) :
    ∃ s, Sys.Reachable (twoMonitored gLogLevel) ⟨pollingSys.ax, [], []⟩ s ∧
      ∃ r ∈ s.mem.reports, r.request = i ∧ r.printed = n ∧ ¬ r.Exact := by
  obtain ⟨s, hr, rfl⟩ := reachable_of_reportRows hrows
  obtain ⟨r, hr', hrow⟩ := List.mem_map.1 hmem
  simp only [Report.row, Prod.mk.injEq] at hrow
  obtain ⟨rfl, rfl, rfl, -⟩ := hrow
  exact ⟨s, hr, r, hr', rfl, rfl, hne⟩

/-- The second request prints 1 although nothing was accepted after its own offload; and at the
level `LOG_DEBUG` the first one prints `2 ^ 64 - 1`. -/
theorem yieldingSimpleRankerRequestStamped_inexact :
    (∃ s, Sys.Reachable (twoMonitored logMonitor) ⟨pollingSys.ax, [], []⟩ s ∧
      ∃ r ∈ s.mem.reports, r.request = 1 ∧ r.printed = 1 ∧ ¬ r.Exact) ∧
    ∃ s, Sys.Reachable (twoMonitored logDebug) ⟨pollingSys.ax, [], []⟩ s ∧
      ∃ r ∈ s.mem.reports, r.request = 0 ∧ r.printed = 2 ^ 64 - 1 ∧ ¬ r.Exact := by
  have hmonitor : reportRows logMonitor twoAccepted = some [(0, 1, 1, true), (1, 1, 0, false)] := by
    decide +kernel
  have hdebug : reportRows logDebug twoAccepted =
      some [(0, 2 ^ 64 - 1, 1, true), (1, 2 ^ 64 - 1, 0, false)] := by
    decide +kernel
  exact ⟨exists_inexact_of_row hmonitor (.tail _ (.head _)) (by decide),
    exists_inexact_of_row hdebug (.head _) (by decide)⟩

end XMPGym
