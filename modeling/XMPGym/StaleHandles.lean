import XMPGym.FailedOffload

/-!
# Stale handles

`fcontext_swap` consumes the handle it jumps to and delivers a fresh one to the other side.  The
executors keep up with that: they always jump to a live handle.  Requests and fillers do not: they
go back through the handle they were entered with and discard what their swaps return.  So the first
swap of such a fiber goes to a live handle, and every later one to a handle that has been consumed.
-/

open Relation Transition

namespace XMPGym

variable {F L M : Type*}

namespace Sys

/-- Every swap so far went to a live handle. -/
def AllLive (s : Sys F L M) : Prop := ∀ w ∈ s.swaps, w.live = true

/-- The number of swaps that the context `c` has made. -/
def made (s : Sys F L M) (c : Ctx) : ℕ := s.swaps.countP fun w => w.self = c

theorem made_eq_zero {s : Sys F L M} {c : Ctx} : s.made c = 0 ↔ ∀ w ∈ s.swaps, w.self ≠ c := by
  simp [made, List.countP_eq_zero]

theorem made_append {s s' : Sys F L M} {w : Swap} (h : s'.swaps = s.swaps ++ [w]) (c : Ctx) :
    s'.made c = s.made c + if w.self = c then 1 else 0 := by
  simp [made, h, List.countP_cons]

theorem made_congr {s s' : Sys F L M} (h : s'.swaps = s.swaps) (c : Ctx) :
    s'.made c = s.made c := by
  rw [made, h]
  rfl

/-- The entry argument after a swap. -/
theorem swap_arg (s : Sys F L M) (self : Ctx) (t : Handle Ctx) (x : Data) (i : ℕ) :
    ((s.fcontextSwap self t x).request i).arg =
      if t.owner = .request i then some ((s.request i).arg.getD ⟨(s.handles.jump self t).1, x⟩)
      else (s.request i).arg := by
  obtain ⟨o, n⟩ := t
  cases o with
  | request j =>
      rcases eq_or_ne i j with rfl | hne
      · simp
      · simp [Function.update_of_ne hne, hne.symm]
  | _ => simp

theorem swap_arg_of_some {s : Sys F L M} {i : ℕ} {y : FcontextTransfer}
    (h : (s.request i).arg = some y) (self : Ctx) (t : Handle Ctx) (x : Data) :
    ((s.fcontextSwap self t x).request i).arg = some y := by
  simp [swap_arg, h]

/-! ## The handles of requests -/

/-- What the log says about the handles that requests were entered with: the swaps of a request go
there, and it is live while the request has not swapped. -/
structure Held (s : Sys F L M) : Prop where
  live : ∀ t, s.handles.live t = true ↔ ∀ w ∈ s.swaps, w.target ≠ t
  noArg : ∀ i, (s.request i).arg = none → s.made (.request i) = 0
  target : ∀ i x, (s.request i).arg = some x → ∀ w ∈ s.swaps, w.self = .request i →
    w.target = x.prevContext
  first : ∀ i x, (s.request i).arg = some x → s.made (.request i) = 0 →
    (s.running = .at (.request i) ∨ s.running = .returned i) ∧
      s.handles.live x.prevContext = true

theorem held_init (P : Program F L M) (m : M) : Held (init P m) where
  live t := by simp [init]
  noArg i _ := rfl
  target i x h := by simp [init] at h
  first i x h := by simp [init] at h

/-- Steps without a swap. -/
theorem Held.congr {s s' : Sys F L M} (h : Held s) (hsw : s'.swaps = s.swaps)
    (hh : s'.handles = s.handles) (harg : ∀ i, (s'.request i).arg = (s.request i).arg)
    (hrun : ∀ i, (s.request i).arg ≠ none → s.running = .at (.request i) ∨ s.running = .returned i →
      s'.running = .at (.request i) ∨ s'.running = .returned i) : Held s' where
  live t := by rw [hh, hsw]; exact h.live t
  noArg i hi := by rw [made_congr hsw]; exact h.noArg i (harg i ▸ hi)
  target i x hx := by rw [hsw]; exact h.target i x (harg i ▸ hx)
  first i x hx hm := by
    rw [harg] at hx
    rw [made_congr hsw] at hm
    obtain ⟨hr, hl⟩ := h.first i x hx hm
    exact ⟨hrun i (by simp [hx]) hr, hh ▸ hl⟩

/-- A swap by the context that runs; a request goes where it came from. -/
theorem Held.swap {s : Sys F L M} (h : Held s) {self : Ctx} (hrun : s.running = .at self)
    {t : Handle Ctx} (x : Data)
    (hself : ∀ i, self = .request i → ∃ y, (s.request i).arg = some y ∧ y.prevContext = t) :
    Held (s.fcontextSwap self t x) := by
  have hsw := swap_swaps s self t x
  refine ⟨fun u => ?_, fun i hi => ?_, fun i y hy w hw hi => ?_, fun i y hy hm => ?_⟩
  · rw [swap_handles, Handles.live_jump, h.live, hsw]
    constructor
    · rintro ⟨hne, hall⟩ w hw
      rcases List.mem_append.1 hw with hw | hw
      · exact hall w hw
      · obtain rfl := List.mem_singleton.1 hw
        exact hne.symm
    · intro hall
      exact ⟨(hall _ (List.mem_append_right _ (List.mem_singleton_self _))).symm,
        fun w hw => hall w (List.mem_append_left _ hw)⟩
  · rw [swap_arg] at hi
    split_ifs at hi
    rw [made_append hsw, h.noArg i hi, if_neg]
    rintro rfl
    obtain ⟨y, hy, -⟩ := hself i rfl
    simp [hy] at hi
  · have hold : w ∈ s.swaps → w.target = y.prevContext := by
      intro hw
      obtain ⟨z, hz⟩ : ∃ z, (s.request i).arg = some z := by
        apply Option.ne_none_iff_exists'.1
        intro hnone
        exact made_eq_zero.1 (h.noArg i hnone) w hw hi
      obtain rfl := Option.some.inj ((swap_arg_of_some hz self t x).symm.trans hy)
      exact h.target i z hz w hw hi
    rw [hsw] at hw
    rcases List.mem_append.1 hw with hw | hw
    · exact hold hw
    · obtain rfl := List.mem_singleton.1 hw
      obtain ⟨z, hz, hzt⟩ := hself i hi
      obtain rfl := Option.some.inj ((swap_arg_of_some hz self t x).symm.trans hy)
      exact hzt.symm
  · have hne : self ≠ .request i ∧ s.made (.request i) = 0 := by
      rw [made_append hsw] at hm
      split_ifs at hm with he
      exact ⟨he, hm⟩
    cases ha : (s.request i).arg with
    | some z =>
        -- a request that has not swapped has not lost control
        obtain ⟨hr | hr, -⟩ := h.first i z ha hne.2 <;> rw [hrun] at hr
        · exact absurd (Running.at.inj hr) hne.1
        · cases hr
    | none =>
        rw [swap_arg, ha] at hy
        split_ifs at hy with ho
        obtain rfl := Option.some.inj hy
        refine ⟨.inl (by rw [swap_running, ho]), ?_⟩
        rw [swap_handles]
        exact s.handles.live_jump_self self t

theorem Held.request {s : Sys F L M} (h : Held s) {k : ℕ} (hrun : s.running = .at (.request k)) :
    Held (s.requestStep k) := by
  have hk {i : ℕ} (hr : s.running = .at (.request i) ∨ s.running = .returned i) : i = k := by
    rw [hrun] at hr
    rcases hr with hr | hr <;> cases hr
    rfl
  have setCode (c : List (Instr L M)) : Held (s.setCode k c) := by
    refine h.congr rfl rfl (fun i => ?_) fun _ _ hr => hr
    rcases eq_or_ne i k with rfl | hne
    · simp [Sys.setCode]
    · simp [Sys.setCode, Function.update_of_ne hne]
  simp only [requestStep]
  split
  · refine h.congr rfl rfl (fun _ => rfl) fun i _ hr => ?_
    rw [hk hr]
    exact .inr rfl
  · next ins c _ =>
      cases ins with
      | op f =>
          refine h.congr rfl rfl (fun i => ?_) fun i _ hr => ?_
          · rcases eq_or_ne i k with rfl | hne
            · simp [instr]
            · simp [instr, Function.update_of_ne hne]
          · rw [hk hr]
            simp only [instr, hrun]
            split_ifs
            · exact .inr rfl
            · exact .inl rfl
      | completed => exact (setCode c).congr rfl rfl (fun _ => rfl) fun _ _ hr => hr
      | swap =>
          simp only [instr]
          split
          · next y hy =>
              refine (setCode c).swap hrun _ fun i hi => ?_
              obtain rfl := Ctx.request.inj hi
              exact ⟨y, by simp [Sys.setCode, hy], rfl⟩
          · next hnone =>
              refine h.congr rfl rfl (fun _ => rfl) fun i hi hr => ?_
              rw [hk hr] at hi
              exact absurd hnone hi

/-- Every step keeps the handles of requests. -/
theorem Held.step {P : Program F L M} {s s' : Sys F L M} (h : Held s) (hs : Step P s s') :
    Held s' := by
  cases hs with
  | hw m hm => exact h.congr rfl rfl (fun _ => rfl) fun _ _ hr => hr
  | thread _ hs =>
      simp only [thread] at hs
      split at hs <;> (try cases hs)
      · next hrun =>
          have hrun' (i : ℕ) : ¬ (s.running = .at (.request i) ∨ s.running = .returned i) := by
            simp [hrun]
          simp only [executorStep]
          split
          · exact h.congr rfl rfl (fun _ => rfl) fun _ _ hr => hr
          · next t x f _ =>
              have h' : Held { s with frame := f } :=
                h.congr rfl rfl (fun _ => rfl) fun _ _ hr => hr
              exact h'.swap hrun x fun i hi => by cases hi
          · exact h.congr rfl rfl (fun _ => rfl) fun i _ hr => absurd hr (hrun' i)
          · exact h.congr rfl rfl (fun _ => rfl) fun i _ hr => absurd hr (hrun' i)
      · next k hrun => exact h.request hrun
      · next k hrun =>
          have hrun' (i : ℕ) : ¬ (s.running = .at (.request i) ∨ s.running = .returned i) := by
            simp [hrun]
          simp only [fillerStep]
          split
          · exact h.congr rfl rfl (fun _ => rfl) fun _ _ hr => hr
          · split
            · have h' : Held (s.setFillerPc k .resumed) :=
                h.congr rfl rfl (fun _ => rfl) fun _ _ hr => hr
              exact h'.swap hrun _ fun i hi => by cases hi
            · exact h
            · exact h.congr rfl rfl (fun _ => rfl) fun i _ hr => absurd hr (hrun' i)
          · exact h.congr rfl rfl (fun _ => rfl) fun _ _ hr => hr

/-- A request goes to a live handle if and only if it swaps for the first time. -/
theorem Held.live_arg {s : Sys F L M} (h : Held s) {i : ℕ} {y : FcontextTransfer}
    (hy : (s.request i).arg = some y) :
    s.handles.live y.prevContext = true ↔ s.made (.request i) = 0 := by
  constructor
  · intro hlive
    rw [made_eq_zero]
    intro w hw hi
    exact (h.live _).1 hlive w hw (h.target i y hy w hw hi)
  · exact fun hm => (h.first i y hy hm).2

/-- The context of a request that has not been started is live. -/
theorem Held.live_start {s : Sys F L M} (h : Held s) {i : ℕ} (hi : i ∉ s.starts) :
    s.handles.live (fcontextCreate (.request i)) = true := by
  rw [h.live]
  intro w hw ht
  apply hi
  exact List.mem_filterMap.2 ⟨w, hw, by simp [Swap.start, ht, fcontextCreate]⟩

/-- The suspension of a request that has not been resumed is live. -/
theorem Held.live_resume {s : Sys F L M} (h : Held s) {i : ℕ} (hi : i ∉ s.resumes) (n : ℕ) :
    s.handles.live ⟨.request i, n + 1⟩ = true := by
  rw [h.live]
  intro w hw ht
  apply hi
  exact List.mem_filterMap.2 ⟨w, hw, by simp [Swap.resume, ht]⟩

/-! ## When every target is live -/

/-- If a step makes a swap, its target is live if and only if it is the executor's, or the first of
a fiber. -/
def FirstLive (s s' : Sys F L M) : Prop :=
  s'.swaps = s.swaps ∨ ∃ w, s'.swaps = s.swaps ++ [w] ∧
    (w.live = true ↔ w.self = .executor ∨ s.made w.self = 0)

/-- Any step but one in which a fiber swaps that has swapped before. -/
def FreshStep (P : Program F L M) (s s' : Sys F L M) : Prop :=
  Step P s s' ∧ ∀ w, s'.swaps = s.swaps ++ [w] → w.self = .executor ∨ s.made w.self = 0

theorem AllLive.append {s s' : Sys F L M} {w : Swap} (h : s'.swaps = s.swaps ++ [w]) :
    s'.AllLive ↔ s.AllLive ∧ w.live = true := by
  simp only [AllLive, h, List.mem_append, List.mem_singleton]
  constructor
  · exact fun h' => ⟨fun v hv => h' v (.inl hv), h' w (.inr rfl)⟩
  · rintro ⟨h', hw⟩ v (hv | rfl)
    · exact h' v hv
    · exact hw

theorem made_le_append {s s' : Sys F L M} {w : Swap} (h : s'.swaps = s.swaps ++ [w]) :
    (∀ c, c ≠ .executor → s'.made c ≤ 1) ↔
      (∀ c, c ≠ .executor → s.made c ≤ 1) ∧ (w.self = .executor ∨ s.made w.self = 0) := by
  simp only [made_append h]
  constructor
  · refine fun h' => ⟨fun c hc => Nat.le_trans (Nat.le_add_right _ _) (h' c hc), ?_⟩
    by_cases hself : w.self = .executor
    · exact .inl hself
    · have := h' w.self hself
      rw [if_pos rfl] at this
      exact .inr (by omega)
  · rintro ⟨h', hw⟩ c hc
    split_ifs with hself
    · rcases hw with hw | hw
      · exact absurd (hself ▸ hw) hc
      · have hc₀ : s.made c = 0 := by rw [← hself, hw]
        omega
    · exact h' c hc

theorem allLive_iff {P : Program F L M} {m₀ : M}
    (hstep : ∀ s s', Reachable P m₀ s → Step P s s' → FirstLive s s') {s : Sys F L M}
    (hr : Reachable P m₀ s) :
    (s.AllLive ↔ ∀ c, c ≠ .executor → s.made c ≤ 1) ∧
      (s.AllLive ↔ ReflTransGen (FreshStep P) (init P m₀) s) := by
  have fresh : ∀ {t}, ReflTransGen (FreshStep P) (init P m₀) t → Reachable P m₀ t ∧ t.AllLive := by
    intro t ht
    induction ht with
    | refl => exact ⟨.refl, fun w hw => by cases hw⟩
    | tail _ hs ih =>
        obtain ⟨hr, hlive⟩ := ih
        refine ⟨hr.tail hs.1, ?_⟩
        rcases hstep _ _ hr hs.1 with e | ⟨w, e, hw⟩
        · simpa only [AllLive, e] using hlive
        · exact (AllLive.append e).2 ⟨hlive, hw.2 (hs.2 w e)⟩
  have key : (s.AllLive ↔ ∀ c, c ≠ .executor → s.made c ≤ 1) ∧
      (s.AllLive → ReflTransGen (FreshStep P) (init P m₀) s) := by
    induction hr with
    | refl => exact ⟨⟨fun _ _ _ => Nat.zero_le 1, fun _ w hw => by cases hw⟩, fun _ => .refl⟩
    | tail hr hs ih =>
        obtain ⟨hiff, hrun⟩ := ih
        rcases hstep _ _ hr hs with e | ⟨w, e, hw⟩
        · refine ⟨?_, fun h => (hrun ?_).tail ⟨hs, fun w h' => ?_⟩⟩
          · simpa only [AllLive, e, made_congr e] using hiff
          · simpa only [AllLive, e] using h
          · rw [e] at h'
            simpa using congrArg List.length h'
        · refine ⟨?_, fun h => ?_⟩
          · rw [AllLive.append e, made_le_append e, hiff, hw]
          · obtain ⟨h', hlive⟩ := (AllLive.append e).1 h
            refine (hrun h').tail ⟨hs, fun v hv => ?_⟩
            obtain rfl : w = v := by simpa using e.symm.trans hv
            exact hw.1 hlive
  exact ⟨key.1, key.2, fun h => (fresh h).2⟩

/-! ## The swaps of a request -/

theorem made_requestStep (s : Sys F L M) (k i : ℕ) :
    (s.requestStep k).made (.request i) + swapsLeft ((s.requestStep k).request i).code =
      s.made (.request i) + swapsLeft (s.request i).code := by
  simp only [requestStep]
  split
  · rfl
  · next ins c hc =>
      have hset : (s.setCode k c).made (.request i) = s.made (.request i) := made_congr rfl _
      cases ins with
      | op f =>
          have e : (s.instr k c (.op f)).made (.request i) = s.made (.request i) :=
            made_congr rfl _
          rw [e]
          rcases eq_or_ne i k with rfl | hne
          · simp only [instr, Function.update_self, hc]
            split_ifs <;> simp
          · simp [instr, Function.update_of_ne hne]
      | completed =>
          have e : (s.instr k c .completed).made (.request i) = s.made (.request i) :=
            made_congr rfl _
          rw [e]
          rcases eq_or_ne i k with rfl | hne
          · simp [instr, Sys.setCode, hc]
          · simp [instr, Sys.setCode, Function.update_of_ne hne]
      | swap =>
          simp only [instr]
          split
          · rw [made_append (swap_swaps _ _ _ _), swap_code, hset]
            rcases eq_or_ne i k with rfl | hne
            · simp only [Sys.setCode, Function.update_self, hc, swapsLeft_swap, if_true]
              omega
            · rw [if_neg (by simpa using hne.symm)]
              simp [Sys.setCode, Function.update_of_ne hne]
          · rfl

/-- A request has made the swaps that are no longer left of its body. -/
theorem made_add_swapsLeft {P : Program F L M} {m₀ : M} {s : Sys F L M} (hr : Reachable P m₀ s)
    (i : ℕ) : s.made (.request i) + swapsLeft (s.request i).code = swapsLeft (P.request i) := by
  induction hr with
  | refl => exact Nat.zero_add _
  | tail _ hs ih =>
      rw [← ih]
      cases hs with
      | hw m hm => rfl
      | thread _ hs =>
          simp only [thread] at hs
          split at hs <;> (try cases hs)
          · simp only [executorStep]
            split
            · rfl
            · rw [made_append (swap_swaps _ _ _ _), if_neg (by simp), swap_code]
              rfl
            · rfl
            · rfl
          · exact made_requestStep _ _ _
          · simp only [fillerStep]
            split
            · rfl
            · split
              · rw [made_append (swap_swaps _ _ _ _), if_neg (by simp), swap_code]
                rfl
              · rfl
              · rfl
            · rfl

/-! ## Finished runs -/

theorem held_of_reachable {P : Program F L M} {m₀ : M} {s : Sys F L M} (hr : Reachable P m₀ s) :
    Held s := by
  induction hr with
  | refl => exact held_init P m₀
  | tail _ hs ih => exact ih.step hs

/-- An executor that never swaps keeps control. -/
theorem swaps_eq_nil {P : Program F L M} (hP : ∀ f a n m t x g, P.executor f a n m ≠ .swap t x g)
    {m₀ : M} {s : Sys F L M} (hr : Reachable P m₀ s) :
    s.swaps = [] ∧ ∀ c, s.running = .at c → c = .executor := by
  induction hr with
  | refl => exact ⟨rfl, fun c h => (Running.at.inj h).symm⟩
  | @tail t t' _ hs ih =>
      obtain ⟨hsw, hrun⟩ := ih
      cases hs with
      | hw m hm => exact ⟨hsw, hrun⟩
      | thread _ hs =>
          simp only [thread] at hs
          split at hs <;> (try cases hs)
          · simp only [executorStep]
            split
            · exact ⟨hsw, hrun⟩
            · next hact => exact absurd hact (hP _ _ _ _ _ _ _)
            · exact ⟨hsw, fun c h => by cases h⟩
            · exact ⟨hsw, fun c h => by cases h⟩
          · next i h => cases hrun _ h
          · next i h => cases hrun _ h

/-- Once request 0 is done, it has swapped twice. -/
theorem not_allLive_of_done {P : Program F L M} (hP : TwoSwaps P) {m₀ : M} {s : Sys F L M}
    (hr : Reachable P m₀ s) (hiff : s.AllLive ↔ ∀ c, c ≠ .executor → s.made c ≤ 1) {N : ℕ}
    {d : InOrder N} (h : Follows P d s) (hd : 0 < d.resumed) : ¬ s.AllLive := by
  intro hlive
  have hst := h.stages 0
  rw [InOrder.stage_eq_done.2 hd] at hst
  have hmade := made_add_swapsLeft hr 0
  have htwo := hP 0
  have hzero : swapsLeft (s.request 0).code = 0 := hst.swaps
  have hle := hiff.1 hlive (.request 0) (by simp)
  omega

/-- The targets of the swaps are live until a fiber swaps a second time.  In a run to the end this
happens unless there is nothing to do. -/
structure LiveUntilSecond (P : Program F L M) (m₀ : M) (N : ℕ) (s : Sys F L M) : Prop where
  once : s.AllLive ↔ ∀ c, c ≠ .executor → s.made c ≤ 1
  fresh : s.AllLive ↔ ReflTransGen (FreshStep P) (init P m₀) s
  exited : s.running = .exited → (s.AllLive ↔ N = 0)

end Sys

/-! ## Closed loops -/

section closed

variable {e : ClosedLoop} {hw : Hardware M} {request : ℕ → List (Instr L M)} {locals : ℕ → L}
  {submitted : M → ℕ → Prop} {m₀ : M} {d : InOrder e.totalRequests}
  {s s' : Sys ClosedFrame L M}

/-- The executor swaps to live handles only. -/
theorem ClosedInv.live_swap (hpend : e.ready compStatusPending = false)
    (h : ClosedInv e (e.program hw request locals) submitted d s) (hheld : Sys.Held s)
    (hrun : s.running = .at .executor) {t : Handle Ctx} {x : Data} {g : ClosedFrame}
    (hact : e.executor hw s.frame s.arrived s.requestsCompleted s.mem = .swap t x g) :
    s.handles.live t = true := by
  obtain ⟨ht, -, -, ⟨y, n, -, -, rfl, -⟩ | ⟨rfl, -⟩⟩ := h.swap_target hpend hrun hact
  · refine hheld.live_resume ?_ n
    rw [h.follows.resumes]
    simp [InOrder.resumes, ht]
  · refine hheld.live_start ?_
    rw [h.follows.starts]
    simp [InOrder.starts, ht]

theorem ClosedInv.firstLive (hpend : e.ready compStatusPending = false)
    (h : ClosedInv e (e.program hw request locals) submitted d s) (hheld : Sys.Held s)
    (hs : Sys.Step (e.program hw request locals) s s') : Sys.FirstLive s s' := by
  cases h.follows.move hs with
  | hw | goto | exit | fault | op | completed => exact .inl rfl
  | swap t x g hrun hact =>
      exact .inr ⟨_, Sys.swap_swaps _ _ _ _,
        fun _ => .inl rfl, fun _ => h.live_swap hpend hheld hrun hact⟩
  | back i n c x hrun hcode harg =>
      refine .inr ⟨_, Sys.swap_swaps _ _ _ _, ?_⟩
      have := hheld.live_arg harg
      simpa [Sys.setCode] using this
  | filler i hrun => exact absurd hrun (h.running_ne_filler i)

theorem ClosedLoop.liveUntilSecond (hP : TwoSwaps (e.program hw request locals))
    (hc : RecordContract (e.program hw request locals) submitted m₀)
    (hon : e.onCompleted = true → CompletesOnce (e.program hw request locals))
    (hpend : e.ready compStatusPending = false)
    (hr : Sys.Reachable (e.program hw request locals) m₀ s) :
    s.LiveUntilSecond (e.program hw request locals) m₀ e.totalRequests := by
  have hstep : ∀ t t', Sys.Reachable (e.program hw request locals) m₀ t →
      Sys.Step (e.program hw request locals) t t' → t.FirstLive t' := by
    intro t t' ht hs
    obtain ⟨d, h⟩ := closedInv_of_reachable hP hc hon hpend ht
    exact h.firstLive hpend (Sys.held_of_reachable ht) hs
  obtain ⟨hiff, hfresh⟩ := Sys.allLive_iff hstep hr
  refine ⟨hiff, hfresh, fun hrun => ⟨fun hlive => ?_, fun hN w hw' => ?_⟩⟩
  · by_contra hN
    obtain ⟨d, h⟩ := closedInv_of_reachable hP hc hon hpend hr
    obtain ⟨-, hres, -⟩ := h.all_resumed hon hrun
    exact Sys.not_allLive_of_done hP hr hiff h.follows (by omega) hlive
  · obtain ⟨hnil, -⟩ := Sys.swaps_eq_nil (fun f a n m t x g hact => by
      obtain ⟨-, hlt, -⟩ := ClosedLoop.executor_swap hact
      omega) hr
    simp [hnil] at hw'

end closed

/-! ## Serial loops -/

/-- The handles of fillers.  The one that a filler was entered with is in `sched_ctx` while the
filler can run; the ones that the executor keeps for its own swaps to fillers are live. -/
structure FillerHeld (fill : Fill) (s : Sys SerialFrame L M) : Prop where
  unswapped : ∀ j, (s.filler j).pc = .entry → s.made (.filler j) = 0
  unentered : ∀ j, (s.filler j).pc = .entry → s.running ≠ .at (.filler j) →
    ∀ w ∈ s.swaps, w.target ≠ fcontextCreate (.filler j)
  entry : ∀ j, s.running = .at (.filler j) → (s.filler j).pc = .entry →
    s.handles.live (s.filler j).arrived.prevContext = true
  ctx : Entered fill s → (s.filler (fillerIdx fill s)).pc ≠ .entry → ∃ ctx, s.schedCtx = some ctx ∧
    (∀ w ∈ s.swaps, w.self = .filler (fillerIdx fill s) → w.target = ctx.prevContext) ∧
    (s.made (.filler (fillerIdx fill s)) = 0 →
      s.running = .at (.filler (fillerIdx fill s)) ∧ s.handles.live ctx.prevContext = true)
  xfer : Entered fill s → s.frame.pc ≠ .filled → ∀ x, s.frame.xfer = some x →
    s.handles.live x.prevContext = true
  back : s.frame.pc = .filled → s.running = .at .executor →
    s.handles.live s.arrived.prevContext = true

section serial

variable {e : SerialLoop} {hw : Hardware M} {request : ℕ → List (Instr L M)} {locals : ℕ → L}
  {m₀ : M} {d : InOrder e.totalRequests} {s s' : Sys SerialFrame L M}

theorem fillerHeld_init : FillerHeld e.fill (.init (e.program hw request locals) m₀) where
  unswapped j _ := rfl
  unentered j _ _ w hw := by cases hw
  entry j h := by simp [Sys.init] at h
  ctx h := by simp [Entered, Sys.init, SerialLoop.program, SerialFrame.init] at h
  xfer h := by simp [Entered, Sys.init, SerialLoop.program, SerialFrame.init] at h
  back h := by simp [Sys.init, SerialLoop.program, SerialFrame.init] at h

theorem FillerHeld.aside (h : FillerHeld e.fill s) (hheld : Sys.Held s) (hheld' : Sys.Held s')
    (hfil : FillerInv e.fill s) (ha : Aside e.fill s s') : FillerHeld e.fill s' := by
  obtain ⟨l, hsw, hl⟩ := ha.swaps
  have hmade (j : ℕ) : s'.made (.filler j) = s.made (.filler j) := by
    have : l.countP (fun w => w.self = .filler j) = 0 := by
      rw [List.countP_eq_zero]
      intro w hw'
      simpa using (hl w hw').2 j
    rw [Sys.made, hsw, List.countP_append, this]
    rfl
  refine ⟨fun j hj => ?_, fun j hj _ w hw' => ?_, fun j hj => absurd hj (ha.after j),
    fun he hpc => ?_, fun he _ x hx => ?_, fun h' => absurd h' ha.pc.2⟩
  · rw [hmade]
    exact h.unswapped j (ha.filler ▸ hj)
  · rw [hsw] at hw'
    rcases List.mem_append.1 hw' with hw' | hw'
    · exact h.unentered j (ha.filler ▸ hj) (ha.before j) w hw'
    · intro ht
      have := (hl w hw').1
      simp [Swap.filler, ht, fcontextCreate] at this
  · obtain ⟨hent, -, hidx⟩ := ha.entered he
    rw [ha.filler, hidx] at hpc
    obtain ⟨ctx, hctx, htgt, hfirst⟩ := h.ctx hent hpc
    rw [hidx, hmade, ha.schedCtx]
    refine ⟨ctx, hctx, fun w hw' hself => ?_, fun hm => absurd (hfirst hm).1 (ha.before _)⟩
    rw [hsw] at hw'
    rcases List.mem_append.1 hw' with hw' | hw'
    · exact htgt w hw' hself
    · exact absurd hself ((hl w hw').2 _)
  · obtain ⟨hent, hx', -⟩ := ha.entered he
    rw [hx'] at hx
    have hlive := h.xfer hent ha.pc.1 x hx
    obtain ⟨y, n, hy, hown⟩ := hfil.xfer hent ha.pc.1
    obtain rfl := Option.some.inj (hx.symm.trans hy)
    rw [hheld'.live]
    intro w hw'
    rw [hsw] at hw'
    rcases List.mem_append.1 hw' with hw' | hw'
    · exact (hheld.live _).1 hlive w hw'
    · intro ht
      have := (hl w hw').1
      simp [Swap.filler, ht, hown] at this

/-- The executor turns to the filler of the current wait. -/
theorem FillerHeld.turn (h : FillerHeld e.fill s) (hrun : s.running = .at .executor) {k : ℕ}
    (hk : (s.filler (fillerIdx e.fill s)).pc ≠ .entry → Entered e.fill s) :
    FillerHeld e.fill (Sys.fcontextSwap { s with frame := { s.frame with pc := .filled } }
      .executor ⟨.filler (fillerIdx e.fill s), k⟩ (.comp s.requestsCompleted)) := by
  have hpcj (j : ℕ) : ((Sys.fcontextSwap { s with frame := { s.frame with pc := .filled } }
      .executor ⟨.filler (fillerIdx e.fill s), k⟩ (.comp s.requestsCompleted)).filler j).pc =
      (s.filler j).pc := by
    rcases eq_or_ne j (fillerIdx e.fill s) with rfl | hne
    · simp
    · simp [Function.update_of_ne hne]
  have hmade (j : ℕ) : (Sys.fcontextSwap { s with frame := { s.frame with pc := .filled } }
      .executor ⟨.filler (fillerIdx e.fill s), k⟩ (.comp s.requestsCompleted)).made (.filler j) =
      s.made (.filler j) := by
    rw [Sys.made_append (Sys.swap_swaps _ _ _ _), if_neg (by simp)]
    rfl
  have hidx : fillerIdx e.fill (Sys.fcontextSwap { s with frame := { s.frame with pc := .filled } }
      .executor ⟨.filler (fillerIdx e.fill s), k⟩ (.comp s.requestsCompleted)) =
      fillerIdx e.fill s := rfl
  refine ⟨fun j hj => ?_, fun j hj hj' w hw' => ?_, fun j hj hj' => ?_, fun _ hne => ?_,
    fun _ h' => by simp at h', fun _ h' => by simp at h'⟩
  · rw [hpcj] at hj
    rw [hmade]
    exact h.unswapped j hj
  · rw [hpcj] at hj
    rw [Sys.swap_swaps] at hw'
    rcases List.mem_append.1 hw' with hw' | hw'
    · exact h.unentered j hj (by simp [hrun]) w hw'
    · obtain rfl := List.mem_singleton.1 hw'
      intro ht
      obtain ⟨hown, -⟩ := Handle.mk.inj ht
      exact hj' (by rw [Sys.swap_running, hown])
  · simp only [Sys.swap_running, Running.at.injEq, Ctx.filler.injEq] at hj
    subst hj
    rw [Sys.swap_handles]
    simpa using s.handles.live_jump_self .executor ⟨.filler (fillerIdx e.fill s), k⟩
  · rw [hidx, hpcj] at hne
    obtain ⟨ctx, hctx, htgt, hfirst⟩ := h.ctx (hk hne) hne
    rw [hidx, hmade]
    refine ⟨ctx, by simpa using hctx, fun w hw' hself => ?_, fun hm => ?_⟩
    · rw [Sys.swap_swaps] at hw'
      rcases List.mem_append.1 hw' with hw' | hw'
      · exact htgt w hw' hself
      · obtain rfl := List.mem_singleton.1 hw'
        cases hself
    · have := (hfirst hm).1
      rw [hrun] at this
      cases this

/-- A filler that comes to its probe. -/
theorem FillerHeld.probe (hinv : SerialInv e (e.program hw request locals) d s)
    (h : FillerHeld e.fill s) {i : ℕ} (hrun : s.running = .at (.filler i))
    {ctx : FcontextTransfer}
    (hctx : (s.filler i).pc = .entry ∧ ctx = (s.filler i).arrived ∨
      (s.filler i).pc = .resumed ∧ s.schedCtx = some ctx) :
    FillerHeld e.fill { s.setFillerPc i .probe with
      pSig := .comp s.requestsCompleted
      schedCtx := some ctx } := by
  obtain ⟨-, hpc, hi, -⟩ := hinv.of_filler hrun
  have other {j : ℕ} (hj : ((Function.update s.filler i { s.filler i with pc := .probe }) j).pc =
      .entry) : (s.filler j).pc = .entry ∧ j ≠ i := by
    rcases eq_or_ne j i with rfl | hne
    · simp at hj
    · exact ⟨by simpa [Function.update_of_ne hne] using hj, hne⟩
  refine ⟨fun j hj => h.unswapped j (other hj).1, fun j hj hj' => h.unentered j (other hj).1 hj',
    fun j hj hj' => ?_, fun _ _ => ⟨ctx, rfl, ?_⟩, fun _ h' => absurd hpc h', fun _ h' => ?_⟩
  · have : i = j := by
      have := hrun.symm.trans hj
      simpa using this
    exact absurd this.symm (other hj').2
  · rcases hctx with ⟨hentry, rfl⟩ | ⟨hres, hctx⟩
    · have hm := h.unswapped i hentry
      refine ⟨fun w hw' hself => ?_, fun _ => ⟨hi ▸ hrun, h.entry i hrun hentry⟩⟩
      exact absurd (hself.trans (by rw [hi]; rfl)) (Sys.made_eq_zero.1 hm w hw')
    · obtain ⟨ctx', hctx', hrest⟩ := h.ctx (.inl hpc) (by rw [← hi, hres]; simp)
      obtain rfl := Option.some.inj (hctx.symm.trans hctx')
      exact hrest
  · rw [show s.running = .at .executor from h'] at hrun
    cases hrun

/-- The filler hands control back. -/
theorem FillerHeld.fill_back (hinv : SerialInv e (e.program hw request locals) d s)
    (h : FillerHeld e.fill s) {i n : ℕ} {x : Data} (hrun : s.running = .at (.filler i))
    (hprobe : (s.filler i).pc = .probe) (hctx : s.schedCtx = some ⟨⟨.executor, n⟩, x⟩) :
    FillerHeld e.fill
      ((s.setFillerPc i .resumed).fcontextSwap (.filler i) ⟨.executor, n⟩ .null) := by
  obtain ⟨-, hpc, hi, -⟩ := hinv.of_filler hrun
  have other {j : ℕ} (hj : ((Function.update s.filler i { s.filler i with pc := .resumed }) j).pc =
      .entry) : (s.filler j).pc = .entry ∧ j ≠ i := by
    rcases eq_or_ne j i with rfl | hne
    · simp at hj
    · exact ⟨by simpa [Function.update_of_ne hne] using hj, hne⟩
  refine ⟨fun j hj => ?_, fun j hj _ w hw' => ?_, fun j hj => by simp at hj, fun _ _ => ?_,
    fun _ h' => absurd hpc h', fun _ _ => ?_⟩
  · obtain ⟨hj, hne⟩ := other hj
    rw [Sys.made_append (Sys.swap_swaps _ _ _ _), if_neg (by simpa using hne.symm)]
    exact h.unswapped j hj
  · obtain ⟨hj, hne⟩ := other hj
    rw [Sys.swap_swaps] at hw'
    rcases List.mem_append.1 hw' with hw' | hw'
    · exact h.unentered j hj (by simpa [hrun] using hne.symm) w hw'
    · obtain rfl := List.mem_singleton.1 hw'
      simp [fcontextCreate]
  · obtain ⟨ctx, hctx', htgt, -⟩ := h.ctx (.inl hpc) (by rw [← hi, hprobe]; simp)
    obtain rfl := Option.some.inj (hctx.symm.trans hctx')
    refine ⟨_, by simpa [Sys.setFillerPc] using hctx, fun w hw' hself => ?_, fun hm => ?_⟩
    · rw [Sys.swap_swaps] at hw'
      rcases List.mem_append.1 hw' with hw' | hw'
      · exact htgt w hw' hself
      · obtain rfl := List.mem_singleton.1 hw'
        rfl
    · rw [Sys.made_append (Sys.swap_swaps _ _ _ _), if_pos (by rw [hi]; rfl)] at hm
      omega
  · rw [Sys.swap_handles]
    exact s.handles.live_jump_self (.filler i) ⟨.executor, n⟩

theorem FillerHeld.step (hP : CompletesOnce (e.program hw request locals))
    (hinv : SerialInv e (e.program hw request locals) d s) (hfil : FillerInv e.fill s)
    (hp : e.fill ≠ .pause) (hheld : Sys.Held s) (h : FillerHeld e.fill s)
    (hs : Sys.Step (e.program hw request locals) s s') : FillerHeld e.fill s' := by
  have hheld' := hheld.step hs
  cases hinv.fillMove hP hfil hp hs with
  | hw m hm =>
      obtain ⟨h₁, h₂, h₃, h₄, h₅, h₆⟩ := h
      exact ⟨h₁, h₂, h₃, h₄, h₅, h₆⟩
  | aside ha => exact h.aside hheld hheld' hfil ha
  | turn k hrun hpc hlt hst hk =>
      refine h.turn hrun fun hne => ?_
      rcases hk with ⟨-, h'⟩ | ⟨-, -, h', -⟩
      · exact absurd h' hne
      · exact h'
  | store hrun hpc =>
      refine ⟨h.unswapped, h.unentered, h.entry, fun _ => h.ctx (.inl hpc), fun _ _ x hx => ?_,
        fun h' => by simp at h'⟩
      obtain rfl := Option.some.inj hx
      exact h.back hpc hrun
  | filler i hrun hm =>
      cases hm with
      | wait => exact h
      | probe ctx hown hctx => exact h.probe hinv hrun hctx
      | back n x hprobe hctx hst => exact h.fill_back hinv hrun hprobe hctx

/-- The executor swaps to live handles only. -/
theorem SerialInv.live_swap (h : SerialInv e (e.program hw request locals) d s)
    (hfil : e.fill ≠ .pause → FillerInv e.fill s ∧ FillerHeld e.fill s) (hheld : Sys.Held s)
    (hrun : s.running = .at .executor) {t : Handle Ctx} {x : Data} {g : SerialFrame}
    (hact : e.executor hw s.frame s.arrived s.requestsCompleted s.mem = .swap t x g) :
    s.handles.live t = true := by
  have ht := h.follows.scheduler_of_executor hrun
  have hn := h.count ht
  have hag := h.agrees
  obtain ⟨hlt, ⟨hpc, rfl, rfl⟩ | ⟨hpc, -, ⟨y, hy, rfl⟩, rfl⟩ | ⟨hpc, -, hp, rfl, hto, rfl⟩⟩ :=
    SerialLoop.executor_swap hact
  · simp only [SerialFrame.Agrees, hpc, ht, true_and, reduceCtorEq, false_and, or_false] at hag
    refine hheld.live_start ?_
    rw [h.follows.starts, hn]
    simp [InOrder.starts, ht, hag]
  · obtain ⟨-, -, z, n, hz, hown⟩ := h.waiting (.inl hpc)
    rw [hn, hz] at hy
    obtain rfl := Option.some.inj hy
    rw [hown]
    refine hheld.live_resume ?_ n
    rw [h.follows.resumes]
    simp [InOrder.resumes, ht]
  · obtain ⟨hinv, hfheld⟩ := hfil hp
    obtain ⟨k, rfl, ⟨rfl, hentry⟩ | ⟨-, -, hent, y, hy, hyt⟩⟩ := hinv.target hrun hpc hto
    · rw [hheld.live]
      exact hfheld.unentered _ hentry (by simp [hrun])
    · rw [← hyt]
      exact hfheld.xfer hent (by simp [hpc]) y hy

theorem SerialInv.firstLive (h : SerialInv e (e.program hw request locals) d s)
    (hfil : e.fill ≠ .pause → FillerInv e.fill s ∧ FillerHeld e.fill s) (hheld : Sys.Held s)
    (hs : Sys.Step (e.program hw request locals) s s') : Sys.FirstLive s s' := by
  cases h.follows.move hs with
  | hw | goto | exit | fault | op | completed => exact .inl rfl
  | swap t x g hrun hact =>
      exact .inr ⟨_, Sys.swap_swaps _ _ _ _,
        fun _ => .inl rfl, fun _ => h.live_swap hfil hheld hrun hact⟩
  | back i n c x hrun hcode harg =>
      refine .inr ⟨_, Sys.swap_swaps _ _ _ _, ?_⟩
      have := hheld.live_arg harg
      simpa [Sys.setCode] using this
  | filler i hrun =>
      obtain ⟨-, hpc, hi, hp⟩ := h.of_filler hrun
      obtain ⟨hinv, hfheld⟩ := hfil hp
      have hm := hinv.move hw hrun
      change Sys.FirstLive s (s.fillerStep hw i)
      generalize s.fillerStep hw i = t at hm ⊢
      cases hm with
      | wait | probe => exact .inl rfl
      | back n x hprobe hctx hst =>
          refine .inr ⟨_, Sys.swap_swaps _ _ _ _, ?_⟩
          obtain ⟨ctx, hctx', htgt, hfirst⟩ := hfheld.ctx (.inl hpc) (by rw [← hi, hprobe]; simp)
          obtain rfl := Option.some.inj (hctx.symm.trans hctx')
          rw [← hi] at htgt hfirst
          have : s.handles.live ⟨.executor, n⟩ = true ↔ s.made (.filler i) = 0 := by
            refine ⟨fun hlive => ?_, fun hm => (hfirst hm).2⟩
            rw [Sys.made_eq_zero]
            intro w hw' hself
            exact (hheld.live _).1 hlive w hw' (htgt w hw' hself)
          simpa [Sys.setFillerPc] using this

theorem fillerHeld_of_reachable (hP : TwoSwaps (e.program hw request locals))
    (hP' : CompletesOnce (e.program hw request locals)) (hp : e.fill ≠ .pause)
    (hr : Sys.Reachable (e.program hw request locals) m₀ s) : FillerHeld e.fill s := by
  induction hr with
  | refl => exact fillerHeld_init
  | tail hr hs ih =>
      obtain ⟨⟨d, hinv⟩, hfil⟩ := serialInv_of_reachable hP hP' hr
      exact ih.step hP' hinv (hfil hp) hp (Sys.held_of_reachable hr) hs

theorem SerialLoop.liveUntilSecond (hP : TwoSwaps (e.program hw request locals))
    (hP' : CompletesOnce (e.program hw request locals))
    (hr : Sys.Reachable (e.program hw request locals) m₀ s) :
    s.LiveUntilSecond (e.program hw request locals) m₀ e.totalRequests := by
  have hstep : ∀ t t', Sys.Reachable (e.program hw request locals) m₀ t →
      Sys.Step (e.program hw request locals) t t' → t.FirstLive t' := by
    intro t t' ht hs
    obtain ⟨⟨d, h⟩, hfil⟩ := serialInv_of_reachable hP hP' ht
    exact h.firstLive (fun hp => ⟨hfil hp, fillerHeld_of_reachable hP hP' hp ht⟩)
      (Sys.held_of_reachable ht) hs
  obtain ⟨hiff, hfresh⟩ := Sys.allLive_iff hstep hr
  refine ⟨hiff, hfresh, fun hrun => ⟨fun hlive => ?_, fun hN w hw' => ?_⟩⟩
  · by_contra hN
    obtain ⟨⟨d, h⟩, -⟩ := serialInv_of_reachable hP hP' hr
    obtain ⟨-, hres, -⟩ := h.all_resumed hrun
    exact Sys.not_allLive_of_done hP hr hiff h.follows (by omega) hlive
  · obtain ⟨hnil, -⟩ := Sys.swaps_eq_nil (fun f a n m t x g hact => by
      obtain ⟨hlt, -⟩ := SerialLoop.executor_swap hact
      omega) hr
    simp [hnil] at hw'

end serial

/-! ## Every executor of requests that yield -/

/-- The targets of all swaps are live as long as no request and no filler makes a second swap, and
no longer.  A run to the end has at least one request that does, unless there are no requests. -/
theorem swaps_live_iff (N k samples idx : ℕ) (hw : Hardware M)
    (request : ℕ → List (Instr L M)) (locals : ℕ → L) {m₀ : M} :
    (∀ e ∈ [executeYieldingThreePhaseRequestThroughput N idx,
        executeThreePhaseYieldingRequestsClosedSystemRequestBreakdown N,
        executeYieldingRequestsClosedSystemWithSampling k N samples idx,
        executeYieldingRequestsClosedSystemRequestBreakdownSampling k N samples,
        executeYieldingRequestsClosedSystemRequestBreakdown N],
      ∀ submitted, TwoSwaps (e.program hw request locals) →
      RecordContract (e.program hw request locals) submitted m₀ →
      (e.onCompleted = true → CompletesOnce (e.program hw request locals)) →
      ∀ s, Sys.Reachable (e.program hw request locals) m₀ s →
      s.LiveUntilSecond (e.program hw request locals) m₀ N) ∧
    (∀ e ∈ [executeYieldingRequestsBestCase N, executeYieldingRequestsMultipleFillerRequests N,
        executeYieldingRequestsInterleaved N],
      TwoSwaps (e.program hw request locals) → CompletesOnce (e.program hw request locals) →
      ∀ s, Sys.Reachable (e.program hw request locals) m₀ s →
      s.LiveUntilSecond (e.program hw request locals) m₀ N) := by
  refine ⟨fun e he submitted hP hc hon s hr => ?_, fun e he hP hP' s hr => ?_⟩
  · obtain ⟨rfl, hpend⟩ : e.totalRequests = N ∧ e.ready compStatusPending = false := by
      simp only [List.mem_cons, List.not_mem_nil, or_false] at he
      rcases he with rfl | rfl | rfl | rfl | rfl <;> exact ⟨rfl, rfl⟩
    exact ClosedLoop.liveUntilSecond hP hc hon hpend hr
  · obtain rfl : e.totalRequests = N := by
      simp only [List.mem_cons, List.not_mem_nil, or_false] at he
      rcases he with rfl | rfl | rfl <;> rfl
    exact SerialLoop.liveUntilSecond hP hP' hr

/-- One three-phase request, up to its second swap. -/
def oneThreePhase : List (Option BoardMove) :=
  List.replicate 9 none ++ [some (.ends 0 1)] ++ List.replicate 4 none

theorem swaps_live_iff_one :
    ∃ s, Board.schedule ((executeYieldingThreePhaseRequestThroughput 1 0).yieldingThreePhase
        Board.hardware Board.fns Board.args false) oneThreePhase = some s ∧
      s.LiveUntilSecond ((executeYieldingThreePhaseRequestThroughput 1 0).yieldingThreePhase
        Board.hardware Board.fns Board.args false) Board.blank 1 :=
  ⟨_, rfl, (swaps_live_iff 1 1 1 0 Board.hardware _ _).1 _ List.mem_cons_self _
    (twoSwaps_yieldingThreePhase _ _ _ _ _) (Board.recordContract_threePhase _ _ _)
    (fun h => by cases h) _ (Board.reachable_of_schedule (l := oneThreePhase) rfl rfl)⟩

/-- The second swap of the request goes to the context that its first swap consumed. -/
theorem swaps_not_live :
    ∃ s, Board.schedule ((executeYieldingThreePhaseRequestThroughput 1 0).yieldingThreePhase
        Board.hardware Board.fns Board.args false) oneThreePhase = some s ∧
      s.swaps = [⟨.executor, ⟨.request 0, 0⟩, true, 0⟩, ⟨.request 0, ⟨.executor, 1⟩, true, 0⟩,
        ⟨.executor, ⟨.request 0, 2⟩, true, 0⟩, ⟨.request 0, ⟨.executor, 1⟩, false, 0⟩] ∧
      ¬ s.AllLive := by
  refine ⟨_, rfl, rfl, fun hlive => ?_⟩
  have := hlive ⟨.request 0, ⟨.executor, 1⟩, false, 0⟩ (by decide)
  cases this

end XMPGym
