import XMPGym.Allocators
import XMPGym.BlockingLoop
import XMPGym.ThreePhaseOrder
import XMPGym.TimerUtils

/-!
# Time stamps of the phases

The stamped templates share the arrays `ts0` to `ts4`, and the breakdown executors read them when
all requests are done.  The writes are kept here in a log beside the memory.  The clock does not go
back, so the log is in the order of time; and what a request has written is told from the statements
that it has left.
-/

open Relation Transition

namespace XMPGym

variable {F M : Type*}

/-! ## The log of stamps -/

/-- A write `ts[idx] = value`, made by a request. -/
structure StampWrite where
  request : ℕ
  ts : ℕ
  idx : ℕ
  value : ℕ
  deriving DecidableEq, Repr

/-- A memory, and the writes to the arrays of time stamps, oldest first. -/
structure StampMem (M : Type*) where
  mem : M
  log : List StampWrite

/-- The functions of the phases, for request `i`, with the log. -/
def ThreePhaseFns.logged (fns : ThreePhaseFns M) (clock : M → ℕ) (i : ℕ) :
    ThreePhaseFns (StampMem M) where
  preProc input output inputSize m :=
    let r := fns.preProc input output inputSize m.mem
    ({ m with mem := r.1 }, r.2)
  prep desc src dst comp size m := { m with mem := fns.prep desc src dst comp size m.mem }
  submit desc m := { m with mem := fns.submit desc m.mem }
  postOffload comp m := fns.postOffload comp m.mem
  axFunc input output inputSize maxOutputSize m :=
    let r := fns.axFunc input output inputSize maxOutputSize m.mem
    ({ m with mem := r.1 }, r.2)
  postProc input output inputSize maxOutputSize m :=
    let r := fns.postProc input output inputSize maxOutputSize m.mem
    ({ m with mem := r.1 }, r.2)
  stamp ts idx m := ⟨fns.stamp ts idx m.mem, m.log ++ [⟨i, ts, idx, clock m.mem⟩]⟩

/-- The hardware, which does not write stamps. -/
def Hardware.logged (hw : Hardware M) : Hardware (StampMem M) where
  status m := hw.status m.mem
  clock m := hw.clock m.mem
  Moves m m' := hw.Moves m.mem m'.mem ∧ m'.log = m.log

/-- The requests of a template, with the log. -/
def loggedRequests (hw : Hardware M) (fns : ThreePhaseFns M) (args : ℕ → OffArgs)
    (t : List ThreePhaseOp) (i : ℕ) : List (Instr ThreePhaseLocals (StampMem M)) :=
  t.map (ThreePhaseOp.instr (fns.logged hw.clock i) (args i))

/-- The clock is a `uint64_t` that does not go back. -/
structure ClockRuns (hw : Hardware M) (fns : ThreePhaseFns M) : Prop where
  word : ∀ m, hw.clock m < 2 ^ 64
  moves : ∀ m m', hw.Moves m m' → hw.clock m ≤ hw.clock m'
  preProc : ∀ input output size m, hw.clock m ≤ hw.clock (fns.preProc input output size m).1
  prep : ∀ desc src dst comp size m, hw.clock m ≤ hw.clock (fns.prep desc src dst comp size m)
  submit : ∀ desc m, hw.clock m ≤ hw.clock (fns.submit desc m)
  axFunc : ∀ input output size maxSize m,
    hw.clock m ≤ hw.clock (fns.axFunc input output size maxSize m).1
  postProc : ∀ input output size maxSize m,
    hw.clock m ≤ hw.clock (fns.postProc input output size maxSize m).1
  stamp : ∀ ts idx m, hw.clock m ≤ hw.clock (fns.stamp ts idx m)

/-- The arrays that statements write. -/
def stampsOf (t : List ThreePhaseOp) : List ℕ :=
  t.filterMap fun | .stamp ts => some ts | _ => none

theorem stampsOf_append (t t' : List ThreePhaseOp) :
    stampsOf (t ++ t') = stampsOf t ++ stampsOf t' :=
  List.filterMap_append

/-! ## The invariant -/

/-- What is in the log: for each request the stamps of the statements that it has performed, in
the order of time. -/
structure Stamped (hw : Hardware M) (fns : ThreePhaseFns M) (args : ℕ → OffArgs)
    (t : List ThreePhaseOp) (N : ℕ) (s : Sys F ThreePhaseLocals (StampMem M)) : Prop where
  request : ∀ i, ∃ done rest, t = done ++ rest ∧
    (s.request i).code = loggedRequests hw fns args rest i ∧
    (s.mem.log.filter fun e => e.request = i).map StampWrite.ts = stampsOf done
  entry : ∀ e ∈ s.mem.log, e.request < N ∧ e.idx = (args e.request).id ∧
    e.value ≤ hw.clock s.mem.mem
  sorted : (s.mem.log.map StampWrite.value).Pairwise (· ≤ ·)

section stamped

variable {hw : Hardware M} {fns : ThreePhaseFns M} {args : ℕ → OffArgs} {t : List ThreePhaseOp}
  {N i : ℕ} {P : Program F ThreePhaseLocals (StampMem M)}
  {s s' : Sys F ThreePhaseLocals (StampMem M)}

theorem stamped_init {m₀ : M} (hreq : P.request = loggedRequests hw fns args t) :
    Stamped hw fns args t N (.init P ⟨m₀, []⟩) where
  request i := ⟨[], t, rfl, by simp [Sys.init, hreq], rfl⟩
  entry e he := absurd he List.not_mem_nil
  sorted := List.Pairwise.nil

/-- Steps that perform no statement. -/
theorem Stamped.congr (h : Stamped hw fns args t N s)
    (hcode : ∀ i, (s'.request i).code = (s.request i).code) (hlog : s'.mem.log = s.mem.log)
    (hclock : hw.clock s.mem.mem ≤ hw.clock s'.mem.mem) : Stamped hw fns args t N s' where
  request i := by
    rw [hcode, hlog]
    exact h.request i
  entry e he := by
    rw [hlog] at he
    obtain ⟨h₁, h₂, h₃⟩ := h.entry e he
    exact ⟨h₁, h₂, Nat.le_trans h₃ hclock⟩
  sorted := by
    rw [hlog]
    exact h.sorted

/-- What a statement writes to the log. -/
theorem logged_op (hclock : ClockRuns hw fns) {a : OffArgs} {op : ThreePhaseOp}
    {f : ThreePhaseLocals → StampMem M → ThreePhaseLocals × StampMem M × Next}
    (hop : op.instr (fns.logged hw.clock i) a = .op f) (l : ThreePhaseLocals) (m : StampMem M) :
    (f l m).2.1.log = m.log ++ (stampsOf [op]).map (fun ts => ⟨i, ts, a.id, hw.clock m.mem⟩) ∧
      hw.clock m.mem ≤ hw.clock (f l m).2.1.mem ∧
      ((f l m).2.2 = .stay → stampsOf [op] = []) := by
  cases op <;> simp only [ThreePhaseOp.instr, Instr.op.injEq, reduceCtorEq] at hop <;> subst hop
  case stamp ts => exact ⟨rfl, hclock.stamp ts a.id m.mem, fun h => by cases h⟩
  case preProc => exact ⟨(List.append_nil _).symm, hclock.preProc _ _ _ _, fun _ => rfl⟩
  case prep => exact ⟨(List.append_nil _).symm, hclock.prep _ _ _ _ _ _, fun _ => rfl⟩
  case submit => exact ⟨(List.append_nil _).symm, hclock.submit _ _, fun _ => rfl⟩
  case axFunc => exact ⟨(List.append_nil _).symm, hclock.axFunc _ _ _ _ _, fun _ => rfl⟩
  case postProc => exact ⟨(List.append_nil _).symm, hclock.postProc _ _ _ _ _, fun _ => rfl⟩
  all_goals exact ⟨(List.append_nil _).symm, Nat.le_refl _, fun _ => rfl⟩

/-- The next statement of a request. -/
theorem Stamped.next (h : Stamped hw fns args t N s)
    {ins : Instr ThreePhaseLocals (StampMem M)} {c : List (Instr ThreePhaseLocals (StampMem M))}
    (hc : (s.request i).code = ins :: c) :
    ∃ done op rest, t = done ++ op :: rest ∧ op.instr (fns.logged hw.clock i) (args i) = ins ∧
      loggedRequests hw fns args rest i = c ∧
      (s.mem.log.filter fun e => e.request = i).map StampWrite.ts = stampsOf done := by
  obtain ⟨done, rest, ht, hcode, hlog⟩ := h.request i
  rw [hc] at hcode
  cases rest with
  | nil => cases hcode
  | cons op rest =>
      obtain ⟨hins, hrest⟩ := List.cons.inj hcode
      exact ⟨done, op, rest, ht, hins.symm, hrest.symm, hlog⟩

/-- A request performs a statement. -/
theorem Stamped.op (hclock : ClockRuns hw fns) (h : Stamped hw fns args t N s) (hi : i < N)
    {f : ThreePhaseLocals → StampMem M → ThreePhaseLocals × StampMem M × Next}
    {c : List (Instr ThreePhaseLocals (StampMem M))} (hc : (s.request i).code = .op f :: c) :
    Stamped hw fns args t N (s.instr i c (.op f)) := by
  obtain ⟨done, op, rest, ht, hop, hrest, hts⟩ := h.next hc
  obtain ⟨hlog, hle, hstay⟩ := logged_op hclock hop (s.request i).locals s.mem
  have hnew : ∀ e ∈ (stampsOf [op]).map fun ts =>
      (⟨i, ts, (args i).id, hw.clock s.mem.mem⟩ : StampWrite),
      e.request = i ∧ e.idx = (args i).id ∧ e.value = hw.clock s.mem.mem := by
    intro e he
    obtain ⟨ts, -, rfl⟩ := List.mem_map.1 he
    exact ⟨rfl, rfl, rfl⟩
  have hnewts : ((stampsOf [op]).map fun ts =>
      (⟨i, ts, (args i).id, hw.clock s.mem.mem⟩ : StampWrite)).map StampWrite.ts =
      stampsOf [op] := by
    rw [List.map_map]
    exact List.map_id' _
  generalize (stampsOf [op]).map (fun ts =>
    (⟨i, ts, (args i).id, hw.clock s.mem.mem⟩ : StampWrite)) = new at hlog hnew hnewts
  refine ⟨fun j => ?_, fun e he => ?_, ?_⟩
  · show ∃ done rest, t = done ++ rest ∧ _ ∧
      ((f (s.request i).locals s.mem).2.1.log.filter fun e => e.request = j).map _ = _
    rw [hlog, List.filter_append, List.map_append]
    by_cases hj : j = i
    · rw [hj, hts, List.filter_eq_self.2 fun e he => decide_eq_true (hnew e he).1, hnewts]
      by_cases hst : (f (s.request i).locals s.mem).2.2 = .stay
      · refine ⟨done, op :: rest, ht, ?_, by rw [hstay hst, List.append_nil]⟩
        simp [Sys.instr, hst, loggedRequests, hop, ← hrest]
      · refine ⟨done ++ [op], rest, by simp [ht], ?_, (stampsOf_append _ _).symm⟩
        simp [Sys.instr, hst, hrest]
    · obtain ⟨done', rest', ht', hcode', hts'⟩ := h.request j
      refine ⟨done', rest', ht', ?_, ?_⟩
      · simpa [Sys.instr, Function.update_of_ne hj] using hcode'
      · rw [hts', List.filter_eq_nil_iff.2 fun e he => ?_, List.map_nil, List.append_nil]
        have := (hnew e he).1
        simp only [decide_eq_true_eq]
        omega
  · have he' : e ∈ s.mem.log ++ new := hlog ▸ he
    rcases List.mem_append.1 he' with he' | he'
    · obtain ⟨h₁, h₂, h₃⟩ := h.entry e he'
      exact ⟨h₁, h₂, Nat.le_trans h₃ hle⟩
    · obtain ⟨h₁, h₂, h₃⟩ := hnew e he'
      rw [h₁]
      exact ⟨hi, h₂, h₃ ▸ hle⟩
  · show ((f (s.request i).locals s.mem).2.1.log.map StampWrite.value).Pairwise (· ≤ ·)
    rw [hlog, List.map_append, List.pairwise_append]
    have hvalue : ∀ v ∈ new.map StampWrite.value, v = hw.clock s.mem.mem := by
      intro v hv
      obtain ⟨e, he, rfl⟩ := List.mem_map.1 hv
      exact (hnew e he).2.2
    refine ⟨h.sorted, ?_, fun v hv v' hv' => ?_⟩
    · refine List.pairwise_of_forall_mem_list fun v hv v' hv' => ?_
      rw [hvalue v hv, hvalue v' hv']
    · obtain ⟨e, he, rfl⟩ := List.mem_map.1 hv
      rw [hvalue v' hv']
      exact (h.entry e he).2.2

/-- A step of the thread or of the hardware. -/
theorem Stamped.move (hclock : ClockRuns hw fns) (h : Stamped hw fns args t N s)
    (hhw : P.hw = hw.logged) (hlt : ∀ i, s.running = .at (.request i) → i < N)
    (hfil : ∀ i, s.running ≠ .at (.filler i)) (hm : Move P s s') :
    Stamped hw fns args t N s' := by
  cases hm with
  | hw m hmove =>
      rw [hhw] at hmove
      exact h.congr (fun _ => rfl) hmove.2 (hclock.moves _ _ hmove.1)
  | goto f hrun hact => exact h.congr (fun _ => rfl) rfl (Nat.le_refl _)
  | exit f hrun hact => exact h.congr (fun _ => rfl) rfl (Nat.le_refl _)
  | fault hrun hact => exact h.congr (fun _ => rfl) rfl (Nat.le_refl _)
  | swap tg x f hrun hact =>
      exact h.congr (fun j => by simp) (by simp) (by simp)
  | op i f c hrun hc => exact h.op hclock (hlt i hrun) hc
  | completed i c hrun hc =>
      obtain ⟨done, op, rest, -, hop, -, -⟩ := h.next hc
      cases op <;> cases hop
  | back i n c x hrun hc harg =>
      refine ⟨fun j => ?_, fun e he => ?_, by simpa [Sys.setCode] using h.sorted⟩
      · by_cases hj : j = i
        · obtain ⟨done, op, rest, ht, hop, hrest, hts⟩ := h.next hc
          obtain rfl : op = .swap := by
            cases op <;> simp only [ThreePhaseOp.instr, reduceCtorEq] at hop
            rfl
          refine ⟨done ++ [.swap], rest, by simp [ht], ?_, ?_⟩
          · simp [Sys.setCode, hj, hrest]
          · rw [stampsOf_append, ← hts]
            simp [Sys.setCode, hj, stampsOf]
        · simpa [Sys.setCode, Function.update_of_ne hj] using h.request j
      · exact h.entry e (by simpa [Sys.setCode] using he)
  | filler i hrun => exact absurd hrun (hfil i)

/-- The stamps of a request that is done: one for each array, in the order of time. -/
theorem Stamped.slots (hclock : ClockRuns hw fns) (h : Stamped hw fns args t N s)
    (hid : (args i).id = i) (hts : stampsOf t = List.range 5) {t' : List ThreePhaseOp}
    (ht : t = t' ++ [.swap]) (hdone : swapsLeft (s.request i).code = 0) :
    ∃ v : ℕ → ℕ, (s.mem.log.filter fun e => e.request = i) =
        (List.range 5).map (fun ts => ⟨i, ts, i, v ts⟩) ∧
      (∀ ts < 4, v ts ≤ v (ts + 1)) ∧ ∀ ts < 5, v ts < 2 ^ 64 := by
  obtain ⟨done, rest, hsplit, hcode, hlog⟩ := h.request i
  -- the last statement is a swap, so a request without a swap left has performed all
  have hrest : rest = [] := by
    rw [hcode] at hdone
    unfold loggedRequests at hdone
    rw [swapsLeft_map_instr] at hdone
    have hsuf : rest <:+ t' ++ [.swap] := ht ▸ hsplit ▸ List.suffix_append done rest
    rcases List.suffix_concat_iff.1 hsuf with hnil | ⟨rest', hrest', -⟩
    · exact hnil
    · rw [hrest', List.count_append] at hdone
      simp at hdone
  rw [hrest, List.append_nil] at hsplit
  rw [← hsplit, hts] at hlog
  have hentry : ∀ e ∈ s.mem.log.filter fun e => e.request = i,
      e.request = i ∧ e.idx = i ∧ e.value < 2 ^ 64 := by
    intro e he
    obtain ⟨he, hei⟩ := List.mem_filter.1 he
    have hi : e.request = i := of_decide_eq_true hei
    obtain ⟨-, hidx, hle⟩ := h.entry e he
    have := hclock.word s.mem.mem
    exact ⟨hi, by rw [hidx, hi, hid], by omega⟩
  have hsorted : ((s.mem.log.filter fun e => e.request = i).map StampWrite.value).Pairwise
      (· ≤ ·) := h.sorted.sublist (List.filter_sublist.map _)
  generalize (s.mem.log.filter fun e => e.request = i) = l at hlog hentry hsorted
  have hlen : l.length = 5 := by
    rw [← List.length_map (f := StampWrite.ts), hlog, List.length_range]
  have hvalue : ∃ v : ℕ → ℕ, ∀ ts (_ : ts < 5), v ts = (l[ts]).value :=
    ⟨fun ts => (l.map StampWrite.value).getD ts 0, fun ts hlt => by
      simp [List.getD_eq_getElem?_getD, hlen, hlt]⟩
  obtain ⟨v, hv⟩ := hvalue
  refine ⟨v, ?_, fun ts hlt => ?_, fun ts hlt => ?_⟩
  · apply List.ext_getElem
    · rw [hlen, List.length_map, List.length_range]
    · intro ts hlt _
      rw [hlen] at hlt
      obtain ⟨hreq, hidx, -⟩ := hentry l[ts] (List.getElem_mem _)
      have hts' : (l[ts]).ts = ts := by
        have := congrArg (·[ts]?) hlog
        simpa [hlen, hlt] using this
      rw [List.getElem_map, List.getElem_range, hv ts hlt]
      calc l[ts] = ⟨(l[ts]).request, (l[ts]).ts, (l[ts]).idx, (l[ts]).value⟩ := rfl
        _ = _ := by rw [hreq, hidx, hts']
  · rw [hv ts (by omega), hv (ts + 1) (by omega)]
    have hpair := List.pairwise_iff_getElem.1 hsorted ts (ts + 1)
    simp only [List.length_map, List.getElem_map] at hpair
    exact hpair (by omega) (by omega) (by omega)
  · rw [hv ts hlt]
    exact (hentry _ (List.getElem_mem _)).2.2

end stamped

/-! ## The arrays -/

/-- `ts[idx] = value` -/
def StampWrite.apply (a : ℕ → ℕ → ℕ) (e : StampWrite) : ℕ → ℕ → ℕ :=
  Function.update a e.ts (Function.update (a e.ts) e.idx e.value)

/-- The arrays `ts0` to `ts4` after the writes of a log, from contents `a`. -/
def stampArrays (a : ℕ → ℕ → ℕ) (log : List StampWrite) : ℕ → ℕ → ℕ := log.foldl StampWrite.apply a

/-- The writes to one slot. -/
def writesTo (log : List StampWrite) (ts idx : ℕ) : List StampWrite :=
  log.filter fun e => e.ts = ts ∧ e.idx = idx

theorem StampWrite.apply_of_ne {a : ℕ → ℕ → ℕ} {e : StampWrite} {ts idx : ℕ}
    (hne : ¬(e.ts = ts ∧ e.idx = idx)) : e.apply a ts idx = a ts idx := by
  unfold apply
  by_cases hts : e.ts = ts
  · have hidx : idx ≠ e.idx := fun h => hne ⟨hts, h.symm⟩
    rw [← hts, Function.update_self, Function.update_of_ne hidx]
  · rw [Function.update_of_ne (Ne.symm hts)]

/-- A slot has the last value written to it, or the one from the beginning. -/
theorem stampArrays_eq (log : List StampWrite) (a : ℕ → ℕ → ℕ) (ts idx : ℕ) :
    stampArrays a log ts idx =
      ((writesTo log ts idx).map StampWrite.value).getLast?.getD (a ts idx) := by
  induction log generalizing a with
  | nil => rfl
  | cons e log ih =>
      show stampArrays (e.apply a) log ts idx = _
      rw [ih]
      unfold writesTo
      by_cases he : e.ts = ts ∧ e.idx = idx
      · have hslot : e.apply a ts idx = e.value := by
          unfold StampWrite.apply
          rw [← he.1, ← he.2, Function.update_self, Function.update_self]
        rw [List.filter_cons_of_pos (by simpa using he), List.map_cons, List.getLast?_cons, hslot]
        rfl
      · rw [List.filter_cons_of_neg (by simpa using he), StampWrite.apply_of_ne he]

/-- On a memory that has the arrays, they are what the log says. -/
theorem stamps_eq_stampArrays {k : Kernels} {x : Executor F (StampMem Memory)} {f : F}
    {args : ℕ → OffArgs} {t : List ThreePhaseOp} {m₀ : Memory}
    {s : Sys F ThreePhaseLocals (StampMem Memory)}
    (hr : Sys.Reachable ⟨(Memory.hardware k).logged, x, f,
      loggedRequests (Memory.hardware k) k.fns args t, fun i => .init (args i)⟩ ⟨m₀, []⟩ s) :
    s.mem.mem.stamps = stampArrays m₀.stamps s.mem.log := by
  refine mem_invariant (R := fun m => m.mem.stamps = stampArrays m₀.stamps m.log) rfl
    (fun i f hf l m h => ?_) (fun m m' hm h => ?_) hr
  · obtain ⟨op, -, hop⟩ := List.mem_map.1 hf
    cases op <;> simp only [ThreePhaseOp.instr, Instr.op.injEq, reduceCtorEq] at hop <;> subst hop
    case stamp ts =>
      show Function.update m.mem.stamps ts _ = stampArrays m₀.stamps (m.log ++ [_])
      unfold stampArrays at h ⊢
      rw [List.foldl_append, ← h]
      rfl
    case submit =>
      show (m.mem.submit (args i).desc).stamps = _
      unfold Memory.submit
      split <;> exact h
    all_goals exact h
  · obtain ⟨⟨a, ha⟩, hlog⟩ := hm
    rw [hlog, ← h]
    cases a with
    | writes c =>
        simp only [Memory.move] at ha
        split at ha
        · rw [← Option.some.inj ha]
          rfl
        · cases ha
    | completes c =>
        simp only [Memory.move, Option.ite_none_right_eq_some, Option.some.injEq] at ha
        rw [← ha.2]
    | tick => rw [← Option.some.inj ha]

/-- The stamps of `N` requests in arrays that had the contents `a`: each slot has been written
exactly once and by its own request, the stamps of a request are in order, no difference that the
breakdown takes wraps around, and the four of them add up. -/
structure StampsComplete (N : ℕ) (a : ℕ → ℕ → ℕ) (log : List StampWrite) : Prop where
  once : ∀ i < N, ∀ ts < 5, ∃ v, writesTo log ts i = [⟨i, ts, i, v⟩]
  ordered : ∀ i < N, ∀ ts < 4, stampArrays a log ts i ≤ stampArrays a log (ts + 1) i
  exact : ∀ i < N, ∀ ts < 4, ∀ diff,
    stampArrays a log ts i +
        genDiffArray diff (stampArrays a log ts) (stampArrays a log (ts + 1)) N i =
      stampArrays a log (ts + 1) i
  durations : ∀ i < N, ∀ diff,
    ((List.range 4).map fun ts =>
        genDiffArray diff (stampArrays a log ts) (stampArrays a log (ts + 1)) N i).sum =
      stampArrays a log 4 i - stampArrays a log 0 i

/-- Once all requests are done, the stamps are complete. -/
theorem Stamped.complete {hw : Hardware M} {fns : ThreePhaseFns M} {args : ℕ → OffArgs}
    {t : List ThreePhaseOp} {N : ℕ} {s : Sys F ThreePhaseLocals (StampMem M)}
    (hclock : ClockRuns hw fns) (h : Stamped hw fns args t N s) (hid : ∀ i < N, (args i).id = i)
    (hts : stampsOf t = List.range 5) {t' : List ThreePhaseOp} (ht : t = t' ++ [.swap])
    (hdone : ∀ i < N, swapsLeft (s.request i).code = 0) (a : ℕ → ℕ → ℕ) :
    StampsComplete N a s.mem.log := by
  have hslots (i : ℕ) (hi : i < N) := h.slots hclock (hid i hi) hts ht (hdone i hi)
  -- a slot is written by its own request only
  have hown (i : ℕ) (hi : i < N) (ts : ℕ) : writesTo s.mem.log ts i =
      (s.mem.log.filter fun e => e.request = i).filter fun e => e.ts = ts := by
    unfold writesTo
    rw [List.filter_filter]
    refine List.filter_congr fun e he => ?_
    obtain ⟨hlt, hidx, -⟩ := h.entry e he
    rw [hid _ hlt] at hidx
    simp [hidx]
  choose! v hv hle hword using hslots
  have honce (i : ℕ) (hi : i < N) (ts : ℕ) (hlt : ts < 5) :
      writesTo s.mem.log ts i = [⟨i, ts, i, v i ts⟩] := by
    rw [hown i hi, hv i hi]
    match ts, hlt with
    | 0, _ | 1, _ | 2, _ | 3, _ | 4, _ => rfl
  have hslot (i : ℕ) (hi : i < N) (ts : ℕ) (hlt : ts < 5) :
      stampArrays a s.mem.log ts i = v i ts := by
    rw [stampArrays_eq, honce i hi ts hlt]
    rfl
  have hdiff (i : ℕ) (hi : i < N) (ts : ℕ) (hlt : ts < 4) (diff : ℕ → ℕ) :
      genDiffArray diff (stampArrays a s.mem.log ts) (stampArrays a s.mem.log (ts + 1)) N i =
        v i (ts + 1) - v i ts := by
    rw [genDiffArray_of_lt hi, hslot i hi ts (by omega), hslot i hi (ts + 1) (by omega)]
    exact stampDiff_of_le (hle i hi ts hlt) (hword i hi (ts + 1) (by omega))
  refine ⟨fun i hi ts hlt => ⟨_, honce i hi ts hlt⟩, fun i hi ts hlt => ?_,
    fun i hi ts hlt diff => ?_, fun i hi diff => ?_⟩
  · rw [hslot i hi ts (by omega), hslot i hi (ts + 1) (by omega)]
    exact hle i hi ts hlt
  · rw [hdiff i hi ts hlt, hslot i hi ts (by omega), hslot i hi (ts + 1) (by omega)]
    have := hle i hi ts hlt
    omega
  · rw [List.map_congr_left fun ts hlt => hdiff i hi ts (List.mem_range.1 hlt) diff,
      hslot i hi 4 (by omega), hslot i hi 0 (by omega)]
    show v i 1 - v i 0 + (v i 2 - v i 1 + (v i 3 - v i 2 + (v i 4 - v i 3 + 0))) = _
    have h₀ : v i 0 ≤ v i 1 := hle i hi 0 (by omega)
    have h₁ : v i 1 ≤ v i 2 := hle i hi 1 (by omega)
    have h₂ : v i 2 ≤ v i 3 := hle i hi 2 (by omega)
    have h₃ : v i 3 ≤ v i 4 := hle i hi 3 (by omega)
    omega

/-! ## Runs -/

section runs

variable {hw : Hardware M} {fns : ThreePhaseFns M} {args : ℕ → OffArgs} {m₀ : M}

/-- The log under a blocking executor. -/
theorem stamped_of_blocking (hclock : ClockRuns hw fns) {e : BlockingLoop} {t : List ThreePhaseOp}
    (hone : t.count .swap = 1) {s : Sys BlockingFrame ThreePhaseLocals (StampMem M)}
    (hr : Sys.Reachable (e.program hw.logged (loggedRequests hw fns args t)
      fun i => .init (args i)) ⟨m₀, []⟩ s) :
    BlockingInv e.totalRequests
        (e.program hw.logged (loggedRequests hw fns args t) fun i => .init (args i)) s ∧
      Stamped hw fns args t e.totalRequests s := by
  have hP : OneSwap (e.program hw.logged (loggedRequests hw fns args t)
      fun i => .init (args i)) := fun i =>
    (swapsLeft_map_instr (fns.logged hw.clock i) (args i) t).trans hone
  refine ⟨blockingInv_of_reachable hP hr, ?_⟩
  induction hr with
  | refl => exact stamped_init rfl
  | tail hr hs ih =>
      have h := blockingInv_of_reachable hP hr
      exact ih.move hclock rfl (fun i hrun => (h.of_request (by rw [hrun]; rfl)).2.2.1)
        (fun i hrun => h.not_filler hrun) (h.move hs)

/-- The log under a closed loop. -/
theorem stamped_of_yielding (hclock : ClockRuns hw fns) {e : ClosedLoop}
    (hon : e.onCompleted = false) (hpend : e.ready compStatusPending = false)
    {t : List ThreePhaseOp} (htwo : t.count .swap = 2) {submitted : StampMem M → ℕ → Prop}
    (hc : RecordContract (e.program hw.logged (loggedRequests hw fns args t)
      fun i => .init (args i)) submitted ⟨m₀, []⟩)
    {s : Sys ClosedFrame ThreePhaseLocals (StampMem M)}
    (hr : Sys.Reachable (e.program hw.logged (loggedRequests hw fns args t)
      fun i => .init (args i)) ⟨m₀, []⟩ s) :
    (∃ d, ClosedInv e (e.program hw.logged (loggedRequests hw fns args t) fun i => .init (args i))
        submitted d s) ∧
      Stamped hw fns args t e.totalRequests s := by
  have hP : TwoSwaps (e.program hw.logged (loggedRequests hw fns args t)
      fun i => .init (args i)) := fun i =>
    (swapsLeft_map_instr (fns.logged hw.clock i) (args i) t).trans htwo
  refine ⟨closedInv_of_reachable hP hc (by simp [hon]) hpend hr, ?_⟩
  induction hr with
  | refl => exact stamped_init rfl
  | tail hr hs ih =>
      obtain ⟨d, h⟩ := closedInv_of_reachable hP hc (by simp [hon]) hpend hr
      exact ih.move hclock rfl (fun i hrun => h.request_lt hrun) h.running_ne_filler
        (h.follows.move hs)

end runs

/-- When a breakdown executor has run `N` stamped requests, with the arguments of one of the two
allocators, the stamps are complete and in order: under the blocking executor for both templates
that need no resumption, and under the yielding executor for every order in which the records
change. -/
theorem stamps_complete (hw : Hardware M) (fns : ThreePhaseFns M) (hclock : ClockRuns hw fns)
    (N : ℕ) (initialPayloadSize maxAxfuncOutputSize maxPostProcOutputSize : ℤ)
    (gen : ℤ → Bytes × ℤ) (offArgs : ℕ → OffArgs) (h : Heap) (args : ℕ → OffArgs)
    (hargs : args = (threeFuncAllocator N initialPayloadSize maxAxfuncOutputSize
        maxPostProcOutputSize gen offArgs h).1 ∨
      args = (nullTwoFuncAllocator N initialPayloadSize maxAxfuncOutputSize
        maxPostProcOutputSize gen offArgs h).1)
    (m₀ : M) (a : ℕ → ℕ → ℕ) :
    (∀ t ∈ [blockingThreePhaseRequest true, gpcoreThreePhaseRequest true],
      ∀ s, Sys.Reachable
          ((executeThreePhaseBlockingRequestsClosedSystemRequestBreakdown N).program hw.logged
            (loggedRequests hw fns args t) fun i => .init (args i)) ⟨m₀, []⟩ s →
        s.running = .exited → StampsComplete N a s.mem.log) ∧
    (∀ submitted, RecordContract
        ((executeThreePhaseYieldingRequestsClosedSystemRequestBreakdown N).program hw.logged
          (loggedRequests hw fns args (yieldingThreePhaseRequest true)) fun i => .init (args i))
        submitted ⟨m₀, []⟩ →
      ∀ s, Sys.Reachable
          ((executeThreePhaseYieldingRequestsClosedSystemRequestBreakdown N).program hw.logged
            (loggedRequests hw fns args (yieldingThreePhaseRequest true)) fun i => .init (args i))
          ⟨m₀, []⟩ s →
        s.running = .exited → StampsComplete N a s.mem.log) := by
  have hid : ∀ i < N, (args i).id = i := by
    intro i hi
    rcases hargs with rfl | rfl
    · exact fillArgs_id (fun _ _ => rfl) offArgs h hi
    · exact fillArgs_id (fun _ _ => rfl) offArgs h hi
  refine ⟨fun t ht s hr hexit => ?_, fun submitted hc s hr hexit => ?_⟩
  · have hshape : t.count .swap = 1 ∧ stampsOf t = List.range 5 ∧ ∃ t', t = t' ++ [.swap] := by
      simp only [List.mem_cons, List.not_mem_nil, or_false] at ht
      rcases ht with rfl | rfl <;> exact ⟨rfl, rfl, _, rfl⟩
    obtain ⟨hone, hts, t', ht'⟩ := hshape
    obtain ⟨hinv, hst⟩ := stamped_of_blocking hclock hone hr
    exact hst.complete hclock hid hts ht' (fun i hi => hinv.exited hexit hi) a
  · obtain ⟨⟨d, hinv⟩, hst⟩ := stamped_of_yielding hclock rfl rfl rfl hc hr
    obtain ⟨-, hres, -⟩ := hinv.all_resumed (by simp [
      executeThreePhaseYieldingRequestsClosedSystemRequestBreakdown]) hexit
    refine hst.complete hclock hid rfl rfl (fun i hi => ?_) a
    have hstage := hinv.follows.stages i
    rw [InOrder.stage_eq_done.2 (by rw [hres]; exact hi)] at hstage
    exact hstage.swaps

/-! ## Two requests -/

/-- The board with a clock of 64 bits, which stops at its last value. -/
def boardWithClock : Hardware Board :=
  { Board.hardware with clock := fun m => min m.clock (2 ^ 64 - 1) }

/-- The phases on a board whose requests have five addresses each: buffers and a descriptor. -/
def fiveAddressFns : ThreePhaseFns Board :=
  { Board.fns with submit := fun desc m => m.submit (desc / 5) }

theorem clockRuns_board : ClockRuns boardWithClock fiveAddressFns where
  word m := by
    show min m.clock (2 ^ 64 - 1) < 2 ^ 64
    omega
  moves m m' h := by
    obtain ⟨b, hb⟩ := h
    show min m.clock _ ≤ min m'.clock _
    cases b with
    | ends i st =>
        simp only [Board.move, Option.ite_none_right_eq_some, Option.some.injEq] at hb
        rw [← hb.2]
    | tick =>
        rw [← Option.some.inj hb]
        simp only
        omega
  preProc _ _ _ _ := Nat.le_refl _
  prep _ _ _ _ _ _ := Nat.le_refl _
  submit _ _ := Nat.le_refl _
  axFunc _ _ _ _ _ := Nat.le_refl _
  postProc _ _ _ _ _ := Nat.le_refl _
  stamp _ _ _ := Nat.le_refl _

/-- The arguments of two requests. -/
def twoStamped : ℕ → OffArgs :=
  (threeFuncAllocator 2 8 8 8 (fun n => ([], n))
    (fun i => ⟨i, 5 * i + 4, i, 0, 0, 0, 0, 0, 0, 0, 0⟩)
    ⟨0, fun _ => [], fun _ => none, fun _ => compStatusPending, fun _ => .idle, fun _ _ => 0, 0⟩).1

theorem twoStamped_comp_desc (i : ℕ) :
    (twoStamped i).comp = i ∧ (twoStamped i).desc = 5 * i + 4 := by
  match i with
  | 0 | 1 => exact ⟨rfl, rfl⟩
  | i + 2 => exact ⟨rfl, rfl⟩

/-- A move of the board beside the log. -/
def loggedMove (m : StampMem Board) (b : BoardMove) : Option (StampMem Board) :=
  (m.mem.move b).map fun m' => { m with mem := m' }

theorem moves_of_loggedMove (m : StampMem Board) (b : BoardMove) (m' : StampMem Board)
    (h : loggedMove m b = some m') : boardWithClock.logged.Moves m m' := by
  obtain ⟨m₁, hm₁, rfl⟩ := Option.map_eq_some_iff.1 h
  exact ⟨⟨b, hm₁⟩, rfl⟩

/-- Stamped requests on the board keep to the rules of records. -/
theorem recordContract_twoStamped {F : Type*} (x : Executor F (StampMem Board)) (f : F)
    (t : List ThreePhaseOp) :
    RecordContract ⟨boardWithClock.logged, x, f,
      loggedRequests boardWithClock fiveAddressFns twoStamped t, fun i => .init (twoStamped i)⟩
      (fun m i => m.mem.submitted i = true) ⟨Board.blank, []⟩ := by
  refine recordContract_of_ops _ _ _ (fun _ => rfl) (fun _ => by simp [Board.blank]) ?_
    fun m m' h => Board.hardware_moves h.1
  intro i f hf l m j
  obtain ⟨hcomp, hdesc⟩ := twoStamped_comp_desc i
  obtain ⟨op, -, hop⟩ := List.mem_map.1 hf
  cases op <;> simp only [ThreePhaseOp.instr, Instr.op.injEq, reduceCtorEq] at hop <;> subst hop
  case prep =>
    rw [hcomp]
    exact Board.clear_rules i j m.mem
  case submit =>
    have hown : (twoStamped i).desc / 5 = i := by
      rw [hdesc]
      omega
    show ((m.mem.submit ((twoStamped i).desc / 5)).submitted j = true → _) ∧ _
    rw [hown]
    exact Board.submit_rules i j m.mem
  all_goals exact ⟨.inl, .inl rfl⟩

/-- Both requests are started before the first job ends. -/
def stampedYielding : List (Option BoardMove) :=
  List.replicate 12 none ++ [some .tick] ++ List.replicate 9 none ++
    [some (.ends 1 9), some .tick, none, some (.ends 0 1)] ++ List.replicate 16 none

/-- Each job ends while its request waits for it. -/
def stampedBlocking : List (Option BoardMove) :=
  List.replicate 10 none ++ [some .tick, some (.ends 0 1)] ++ List.replicate 15 none ++
    [some (.ends 1 1), some .tick] ++ List.replicate 9 none

theorem stamps_complete_two :
    ∃ s s' s'',
      Sys.schedule loggedMove
        ((executeThreePhaseBlockingRequestsClosedSystemRequestBreakdown 2).program
          boardWithClock.logged (loggedRequests boardWithClock fiveAddressFns twoStamped
            (blockingThreePhaseRequest true)) fun i => .init (twoStamped i))
        ⟨Board.blank, []⟩ stampedBlocking = some s ∧
      Sys.schedule loggedMove
        ((executeThreePhaseBlockingRequestsClosedSystemRequestBreakdown 2).program
          boardWithClock.logged (loggedRequests boardWithClock fiveAddressFns twoStamped
            (gpcoreThreePhaseRequest true)) fun i => .init (twoStamped i))
        ⟨Board.blank, []⟩ (List.replicate 29 none) = some s' ∧
      Sys.schedule loggedMove
        ((executeThreePhaseYieldingRequestsClosedSystemRequestBreakdown 2).program
          boardWithClock.logged (loggedRequests boardWithClock fiveAddressFns twoStamped
            (yieldingThreePhaseRequest true)) fun i => .init (twoStamped i))
        ⟨Board.blank, []⟩ stampedYielding = some s'' ∧
      (List.range 5).map (fun ts => stampArrays (fun _ _ => 7) s''.mem.log ts 0) =
        [0, 0, 0, 2, 2] ∧
      StampsComplete 2 (fun _ _ => 7) s.mem.log ∧ StampsComplete 2 (fun _ _ => 7) s'.mem.log ∧
      StampsComplete 2 (fun _ _ => 7) s''.mem.log := by
  have h := stamps_complete boardWithClock fiveAddressFns clockRuns_board 2 8 8 8 _ _ _ twoStamped
    (.inl rfl) Board.blank fun _ _ => 7
  refine ⟨_, _, _, rfl, rfl, rfl, rfl, ?_, ?_, ?_⟩
  · exact h.1 _ List.mem_cons_self _
      (Sys.reachable_of_schedule moves_of_loggedMove (l := stampedBlocking) rfl) rfl
  · exact h.1 _ (List.mem_cons_of_mem _ List.mem_cons_self) _
      (Sys.reachable_of_schedule moves_of_loggedMove (l := List.replicate 29 none) rfl) rfl
  · exact h.2 _ (recordContract_twoStamped _ _ _) _
      (Sys.reachable_of_schedule moves_of_loggedMove (l := stampedYielding) rfl) rfl

end XMPGym
