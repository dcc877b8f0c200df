import XMPGym.GatherScatter
import XMPGym.TwoPhase

/-!
# Results of two-phase requests

The phases of a two-phase request as a proof outline.  From it follows what its buffers hold when
the executor returns, for the closed loops, for the loops that wait for one request at a time and
for the loops that count, and so that all of them leave the same in the buffers.  Each request has
buffers of its own, as the allocators make them.
-/

open Relation Transition

namespace XMPGym.TwoPhase

variable {B F : Type*}

/-! ## What a body computes -/

/-- A phase that changes the buffers. -/
inductive Effect where
  | pre
  | ax
  | axFunc
  | work
  deriving DecidableEq, Repr

/-- What a phase makes of the buffers. -/
def Effect.apply (k : Kernels B) : Effect → B → B
  | pre => k.pre
  | ax => k.ax
  | axFunc => k.axFunc
  | work => k.work

/-- The phase that a statement stands for. -/
def Stmt.effect : Stmt → Option Effect
  | pre => some .pre
  | submit => some .ax
  | blockingSubmit => some .ax
  | axFunc => some .axFunc
  | work => some .work
  | _ => none

/-- The phases of a body, in order. -/
def effects (t : List Stmt) : List Effect := t.filterMap Stmt.effect

/-- What phases make of the buffers `b`, one after the other. -/
def run (k : Kernels B) (es : List Effect) (b : B) : B := es.foldl (fun b e => e.apply k b) b

@[simp] theorem run_nil (k : Kernels B) (b : B) : run k [] b = b := rfl

@[simp] theorem run_append_singleton (k : Kernels B) (es : List Effect) (e : Effect) (b : B) :
    run k (es ++ [e]) b = e.apply k (run k es b) := by
  simp [run, List.foldl_append]

/-! ## Phases -/

/-- Whose the buffers of a request are. -/
inductive Mode where
  /-- the request's; its record is pending -/
  | clear
  /-- the device's, until the job has ended -/
  | offloaded
  /-- the request's; its job has ended -/
  | settled
  /-- nobody's; control has been handed back for good -/
  | finished
  deriving DecidableEq, Repr

/-- How far a request has got.  When the job has ended, the request may be sure that the device has
done it, or know so from the record only. -/
structure Phase where
  mode : Mode
  sure : Bool
  effects : List Effect
  deriving DecidableEq, Repr

namespace Phase

/-- Before the first statement. -/
def start : Phase := ⟨.clear, true, []⟩

/-- The job of a request that has offloaded has ended. -/
def settle (p : Phase) (sure : Bool) : Phase := ⟨.settled, sure, p.effects ++ [.ax]⟩

/-- The phase after a statement.  The request must leave the buffers alone while the device has
them. -/
def next (p : Phase) : Stmt → Option Phase
  | .prep => if p.mode = .clear then some p else none
  | .submit => if p.mode = .clear then some { p with mode := .offloaded } else none
  | .blockingSubmit => if p.mode = .clear then some { p with mode := .offloaded } else none
  | .swap =>
      if p.mode = .offloaded then some (p.settle true) else some { p with mode := .finished }
  | .spin => if p.mode = .offloaded then some (p.settle false) else none
  | .check => if p.mode = .settled then some { p with sure := true } else none
  | .pre => if p.mode = .offloaded then none else some { p with effects := p.effects ++ [.pre] }
  | .axFunc =>
      if p.mode = .offloaded then none else some { p with effects := p.effects ++ [.axFunc] }
  | .work => if p.mode = .offloaded then none else some { p with effects := p.effects ++ [.work] }
  | _ => some p

/-- The body `t` leads through all of its phases and ends with a swap. -/
def Whole (t : List Stmt) (sure : Bool) : Prop :=
  Phases.Leads next start t ⟨.finished, sure, TwoPhase.effects t⟩ ∧ t.getLast? = some .swap

instance (t : List Stmt) (sure : Bool) : Decidable (Whole t sure) :=
  inferInstanceAs (Decidable (_ ∧ _))

/-! ## What holds in a phase -/

/-- The buffers, the record and the job of request `i`, whose buffers were `b` at first. -/
def Holds (k : Kernels B) (i : ℕ) (b : B) (m : Mem B) (p : Phase) : Prop :=
  match p.mode with
  | .clear => m.jobs i = .idle ∧ m.status i = compStatusPending ∧ m.buffers i = run k p.effects b
  | .offloaded =>
      m.jobs i = .queued ∧ m.status i = compStatusPending ∧ m.buffers i = run k p.effects b ∨
        m.jobs i = .written ∧ m.status i = compStatusPending ∧
          m.buffers i = k.ax (run k p.effects b) ∨
        m.jobs i = .idle ∧ m.status i ≠ compStatusPending ∧
          (m.status i = compStatusCompleted → m.buffers i = k.ax (run k p.effects b))
  | .settled | .finished => m.jobs i = .idle ∧
      (p.sure = true ∨ m.status i = compStatusCompleted → m.buffers i = run k p.effects b)

/-- Nothing of request `i` differs. -/
structure Same (i : ℕ) (m m' : Mem B) : Prop where
  buffers : m'.buffers i = m.buffers i
  status : m'.status i = m.status i
  job : m'.jobs i = m.jobs i

variable {k : Kernels B} {i j : ℕ} {b : B} {m m' : Mem B} {p q : Phase} {l : ℕ → ℕ} {o : Stmt}
  {f : (ℕ → ℕ) → Mem B → (ℕ → ℕ) × Mem B × Next}

theorem Holds.congr (h : p.Holds k i b m) (hs : Same i m m') : p.Holds k i b m' := by
  obtain ⟨hb, hst, hj⟩ := hs
  unfold Holds at h ⊢
  rwa [hb, hst, hj]

theorem holds_offloaded (hp : p.mode = .offloaded) : p.Holds k i b m ↔
    m.jobs i = .queued ∧ m.status i = compStatusPending ∧ m.buffers i = run k p.effects b ∨
      m.jobs i = .written ∧ m.status i = compStatusPending ∧
        m.buffers i = k.ax (run k p.effects b) ∨
      m.jobs i = .idle ∧ m.status i ≠ compStatusPending ∧
        (m.status i = compStatusCompleted → m.buffers i = k.ax (run k p.effects b)) := by
  simp only [Holds, hp]

/-- A job that has ended has written the buffers, if it has not failed. -/
theorem Holds.settle (h : p.Holds k i b m) (hp : p.mode = .offloaded)
    (hst : m.status i ≠ compStatusPending) : (p.settle false).Holds k i b m := by
  obtain ⟨-, hpend, -⟩ | ⟨-, hpend, -⟩ | ⟨hj, -, hb⟩ := (holds_offloaded hp).1 h
  · exact absurd hpend hst
  · exact absurd hpend hst
  · refine ⟨hj, fun hc => (hb (hc.resolve_left Bool.false_ne_true)).trans ?_⟩
    exact (run_append_singleton k p.effects .ax b).symm

/-- A completed record tells that the device has done its job. -/
theorem Holds.sure (h : p.Holds k i b m) (hp : p.mode = .settled)
    (hst : m.status i = compStatusCompleted) : ({ p with sure := true } : Phase).Holds k i b m := by
  simp only [Holds, hp] at h ⊢
  exact ⟨h.1, fun _ => h.2 (.inr hst)⟩

/-- A request has a job between its submission and the end of the job only. -/
theorem Holds.job (h : p.Holds k i b m) (hj : m.jobs i ≠ .idle) :
    p.mode = .offloaded ∧ m.status i = compStatusPending ∧
      (m.jobs i = .queued ∧ m.buffers i = run k p.effects b ∨
        m.jobs i = .written ∧ m.buffers i = k.ax (run k p.effects b)) := by
  cases hp : p.mode with
  | clear =>
      simp only [Holds, hp] at h
      exact absurd h.1 hj
  | offloaded =>
      obtain ⟨hj', hst, hb⟩ | ⟨hj', hst, hb⟩ | ⟨hj', -⟩ := (holds_offloaded hp).1 h
      · exact ⟨rfl, hst, .inl ⟨hj', hb⟩⟩
      · exact ⟨rfl, hst, .inr ⟨hj', hb⟩⟩
      · exact absurd hj' hj
  | settled =>
      simp only [Holds, hp] at h
      exact absurd h.1 hj
  | finished =>
      simp only [Holds, hp] at h
      exact absurd h.1 hj

/-- The core computes a phase on buffers that are the request's. -/
theorem Holds.compute (h : p.Holds k i b m) (hp : p.mode ≠ .offloaded) (e : Effect) :
    ({ p with effects := p.effects ++ [e] } : Phase).Holds k i b (m.compute (e.apply k) i) := by
  cases hmode : p.mode with
  | clear =>
      simp only [Holds, hmode] at h ⊢
      refine ⟨h.1, h.2.1, ?_⟩
      rw [run_append_singleton, ← h.2.2]
      exact Function.update_self _ _ _
  | offloaded => exact absurd hmode hp
  | settled | finished =>
      simp only [Holds, hmode] at h ⊢
      refine ⟨h.1, fun hc => ?_⟩
      rw [run_append_singleton, ← h.2 hc]
      exact Function.update_self _ _ _

/-- A request that has its buffers hands control back for good. -/
theorem Holds.finish (h : p.Holds k i b m) (hp : p.mode ≠ .offloaded) :
    ({ p with mode := .finished } : Phase).Holds k i b m := by
  cases hmode : p.mode with
  | clear =>
      simp only [Holds, hmode] at h ⊢
      exact ⟨h.1, fun _ => h.2.2⟩
  | offloaded => exact absurd hmode hp
  | settled | finished => simpa only [Holds, hmode] using h

/-- A job is submitted. -/
theorem Holds.submit (h : p.Holds k i b m) (hp : p.mode = .clear) :
    ({ p with mode := .offloaded } : Phase).Holds k i b
      { m with jobs := Function.update m.jobs i .queued } := by
  simp only [Holds, hp] at h
  exact .inl ⟨Function.update_self _ _ _, h.2⟩

/-- A statement takes its request to the next phase, unless it waits or gives up. -/
theorem Holds.op (h : p.Holds k i b m) (hn : p.next o = some q) (ho : o.instr k i = .op f) :
    ((f l m).2.2 = .next → q.Holds k i b (f l m).2.1) ∧
      ((f l m).2.2 = .stay → p.Holds k i b (f l m).2.1) := by
  cases o <;> simp only [Stmt.instr, Instr.op.injEq, reduceCtorEq] at ho <;> subst ho <;>
    simp only [next, Option.ite_none_left_eq_some, Option.ite_none_right_eq_some,
      Option.some.injEq] at hn
  case stamp | read | store | visit =>
    subst hn
    exact ⟨fun _ => h.congr ⟨rfl, rfl, rfl⟩, by simp⟩
  all_goals obtain ⟨hp, rfl⟩ := hn
  case prep =>
    simp only [Holds, hp] at h ⊢
    exact ⟨fun _ => ⟨h.1, Function.update_self _ _ _, h.2.2⟩, by simp⟩
  case submit | blockingSubmit =>
    dsimp only
    split
    · exact ⟨fun _ => h.submit hp, by simp⟩
    · exact ⟨by simp, fun _ => h⟩
  case spin =>
    dsimp only
    split_ifs with hst
    · exact ⟨by simp, fun _ => h⟩
    · exact ⟨fun _ => h.settle hp hst, by simp⟩
  case check =>
    dsimp only
    split_ifs with hst
    · exact ⟨fun _ => h.sure hp hst, by simp⟩
    · simp
  case pre => exact ⟨fun _ => h.compute hp .pre, by simp⟩
  case axFunc => exact ⟨fun _ => h.compute hp .axFunc, by simp⟩
  case work => exact ⟨fun _ => h.compute hp .work, by simp⟩

/-- The statements of a request change nothing of another one. -/
theorem same_of_op (ho : o.instr k i = .op f) (hne : j ≠ i) : Same j m (f l m).2.1 := by
  cases o <;> simp only [Stmt.instr, Instr.op.injEq, reduceCtorEq] at ho <;> subst ho
  case submit | blockingSubmit =>
    dsimp only
    split
    · exact ⟨rfl, rfl, Function.update_of_ne hne _ _⟩
    · exact ⟨rfl, rfl, rfl⟩
  case prep => exact ⟨rfl, Function.update_of_ne hne _ _, rfl⟩
  case pre | axFunc | work => exact ⟨Function.update_of_ne hne _ _, rfl, rfl⟩
  all_goals exact ⟨rfl, rfl, rfl⟩

/-- A move of the device that concerns another request. -/
theorem same_of_move {x : DeviceMove B} (hx : m.move k x = some m') (hj : m.jobs i = .idle) :
    Same i m m' := by
  cases x <;> simp only [Mem.move, Option.ite_none_right_eq_some, Option.some.injEq] at hx
  case writes c =>
    obtain ⟨hc, rfl⟩ := hx
    have hne : i ≠ c := by
      rintro rfl
      simp [hj] at hc
    exact ⟨Function.update_of_ne hne _ _, rfl, Function.update_of_ne hne _ _⟩
  case completes c =>
    obtain ⟨hc, rfl⟩ := hx
    have hne : i ≠ c := by
      rintro rfl
      simp [hj] at hc
    exact ⟨rfl, Function.update_of_ne hne _ _, Function.update_of_ne hne _ _⟩
  case fails c st b' =>
    obtain ⟨⟨hc, -⟩, rfl⟩ := hx
    have hne : i ≠ c := by
      rintro rfl
      exact hc hj
    exact ⟨Function.update_of_ne hne _ _, Function.update_of_ne hne _ _,
      Function.update_of_ne hne _ _⟩
  all_goals
    subst hx
    exact ⟨rfl, rfl, rfl⟩

/-- The device leaves a request in its phase. -/
theorem Holds.move (h : p.Holds k i b m) {x : DeviceMove B} (hx : m.move k x = some m') :
    p.Holds k i b m' := by
  by_cases hidle : m.jobs i = .idle
  · exact h.congr (same_of_move hx hidle)
  obtain ⟨hp, hst, hjob⟩ := h.job hidle
  cases x <;> simp only [Mem.move, Option.ite_none_right_eq_some, Option.some.injEq] at hx
  case writes c =>
    obtain ⟨hc, rfl⟩ := hx
    rcases eq_or_ne i c with rfl | hne
    · obtain ⟨-, hb⟩ := hjob.resolve_right fun h => by simp [hc] at h
      refine (holds_offloaded hp).2 (.inr (.inl ⟨Function.update_self _ _ _, hst, ?_⟩))
      simp [Mem.compute, hb]
    · exact h.congr ⟨Function.update_of_ne hne _ _, rfl, Function.update_of_ne hne _ _⟩
  case completes c =>
    obtain ⟨hc, rfl⟩ := hx
    rcases eq_or_ne i c with rfl | hne
    · obtain ⟨-, hb⟩ := hjob.resolve_left fun h => by simp [hc] at h
      refine (holds_offloaded hp).2 (.inr (.inr ⟨Function.update_self _ _ _, ?_, fun _ => hb⟩))
      simp only [Function.update_self]
      decide
    · exact h.congr ⟨rfl, Function.update_of_ne hne _ _, Function.update_of_ne hne _ _⟩
  case fails c st b' =>
    obtain ⟨⟨-, hpend, hcomp⟩, rfl⟩ := hx
    rcases eq_or_ne i c with rfl | hne
    · refine (holds_offloaded hp).2
        (.inr (.inr ⟨Function.update_self _ _ _, by simpa using hpend, fun hc => ?_⟩))
      exact absurd (by simpa using hc) hcomp
    · exact h.congr ⟨Function.update_of_ne hne _ _, Function.update_of_ne hne _ _,
        Function.update_of_ne hne _ _⟩
  all_goals
    subst hx
    exact h.congr ⟨rfl, rfl, rfl⟩

end Phase

/-! ## Swaps and counts of the bodies -/

theorem swapsLeft_map_instr (k : Kernels B) (i : ℕ) (t : List Stmt) :
    swapsLeft (t.map (Stmt.instr k i)) = t.count .swap := by
  rw [swapsLeft, List.countP_map, List.count]
  refine List.countP_congr fun o _ => ?_
  cases o <;> simp [Stmt.instr, Instr.isSwap]

theorem completesLeft_map_instr (k : Kernels B) (i : ℕ) (t : List Stmt) :
    completesLeft (t.map (Stmt.instr k i)) = t.count .completed := by
  rw [completesLeft, List.countP_map, List.count]
  refine List.countP_congr fun o _ => ?_
  cases o <;> simp [Stmt.instr, Instr.isCompleted]

/-- The request swaps twice and counts itself in between. -/
def CountsBetween (t : List Stmt) : Prop :=
  t.count .swap = 2 ∧ ∀ rest ∈ t.tails,
    (rest.count .swap = 2 → rest.count .completed = 1) ∧
      (rest.count .swap = 0 → rest.count .completed = 0)

/-- The request counts itself and swaps. -/
def CountsAtEnd (t : List Stmt) : Prop :=
  t.count .swap = 1 ∧ t.count .completed = 1 ∧
    ∀ rest ∈ t.tails, rest.head? = some .swap → rest.count .completed = 0

instance (t : List Stmt) : Decidable (CountsBetween t) := inferInstanceAs (Decidable (_ ∧ _))

instance (t : List Stmt) : Decidable (CountsAtEnd t) := inferInstanceAs (Decidable (_ ∧ _))

section bodies

variable {k : Kernels B} {t : List Stmt} {P : Program F (ℕ → ℕ) (Mem B)}

theorem CountsBetween.twoSwaps (h : CountsBetween t)
    (hP : P.request = fun i => t.map (Stmt.instr k i)) : TwoSwaps P := by
  intro i
  rw [hP, swapsLeft_map_instr]
  exact h.1

theorem CountsBetween.completesOnce (h : CountsBetween t)
    (hP : P.request = fun i => t.map (Stmt.instr k i)) : CompletesOnce P := by
  intro i c hc
  rw [hP] at hc
  obtain ⟨rest, hrest, rfl⟩ := List.suffix_map_iff.1 hc
  rw [swapsLeft_map_instr, completesLeft_map_instr]
  exact h.2 rest ((List.mem_tails _ _).2 hrest)

theorem CountsAtEnd.oneSwap (h : CountsAtEnd t)
    (hP : P.request = fun i => t.map (Stmt.instr k i)) : OneSwap P := by
  intro i
  rw [hP, swapsLeft_map_instr]
  exact h.1

theorem CountsAtEnd.countsFirst (h : CountsAtEnd t)
    (hP : P.request = fun i => t.map (Stmt.instr k i)) : CountsFirst P := by
  intro i
  rw [hP, completesLeft_map_instr]
  refine ⟨h.2.1, fun c hc => ?_⟩
  obtain ⟨rest, hrest, heq⟩ := List.suffix_map_iff.1 hc
  cases rest with
  | nil => cases heq
  | cons o rest =>
      obtain ⟨ho, rfl⟩ := List.cons.inj heq
      have hswap : o = .swap := by
        cases o <;> simp only [Stmt.instr, reduceCtorEq] at ho
        rfl
      subst hswap
      rw [completesLeft_map_instr]
      simpa using h.2.2 _ ((List.mem_tails _ _).2 hrest) rfl

/-- The requests and the device keep to the rules of records. -/
theorem recordContract (hhw : P.hw = Mem.hardware k)
    (hP : P.request = fun i => t.map (Stmt.instr k i)) {m₀ : Mem B} (hm : m₀.Quiet) :
    RecordContract P (fun m i => m.jobs i ≠ .idle) m₀ := by
  refine recordContract_of_ops P _ _ (fun i => by rw [hhw]; exact hm.pending i)
    (fun i => not_not_intro (hm.idle i)) (fun i f hf l m j => ?_) fun m m' h j => ?_
  · rw [hP] at hf
    rw [hhw]
    obtain ⟨o, -, ho⟩ := List.mem_map.1 hf
    by_cases hne : j = i
    · refine ⟨fun _ => .inr hne, ?_⟩
      subst hne
      cases o <;> simp only [Stmt.instr, Instr.op.injEq, reduceCtorEq] at ho <;> subst ho
      case prep => exact .inr ⟨rfl, Function.update_self _ _ _⟩
      case submit | blockingSubmit =>
        dsimp only
        split <;> exact .inl rfl
      all_goals exact .inl rfl
    · have hs : Phase.Same j m (f l m).2.1 := Phase.same_of_op ho hne
      exact ⟨fun h => .inl (hs.job ▸ h), .inl hs.status⟩
  · rw [hhw] at h ⊢
    obtain ⟨x, hx⟩ := h
    by_cases hj : m.jobs j = .idle
    · have hs : Phase.Same j m m' := Phase.same_of_move hx hj
      exact ⟨fun h => hs.job ▸ h, .inl hs.status⟩
    · exact ⟨fun _ => hj, .inr hj⟩

end bodies

/-! ## The outline -/

/-- The phases of a request as an outline.  A request that waits for the device has left its swap
behind, and its job may still be under way. -/
def phases (k : Kernels B) (N : ℕ) (t : List Stmt) (b : ℕ → B) :
    Phases (Mem.hardware k) N (ℕ → ℕ) Stmt Phase where
  body := t
  instr := Stmt.instr k
  next := Phase.next
  holds i w p _ m :=
    p.Holds k i (b i) m ∨
      w = true ∧ ∃ r : Phase, p = r.settle true ∧ r.mode = .offloaded ∧ r.Holds k i (b i) m
  op i _ o _ p q hq f hins l m h := by
    have hholds := h.resolve_right fun h => Bool.false_ne_true h.1
    obtain ⟨hnext, hstay⟩ := hholds.op (l := l) hq hins
    exact ⟨fun hn => .inl (hnext hn), fun hn => .inl (hstay hn)⟩
  completed i _ o p q hq hins l m h := by
    cases o <;> simp only [Stmt.instr, reduceCtorEq] at hins
    obtain rfl := Option.some.inj hq
    exact h
  swap i _ o p q hq hins l m h := by
    have hholds := h.resolve_right fun h => Bool.false_ne_true h.1
    cases o <;> simp only [Stmt.instr, reduceCtorEq] at hins
    simp only [Phase.next] at hq
    split_ifs at hq with hp
    · exact .inr ⟨rfl, p, (Option.some.inj hq).symm, hp, hholds⟩
    · obtain rfl := Option.some.inj hq
      exact .inl (hholds.finish hp)
  resume i _ p l m h hst := by
    rcases h with hholds | ⟨-, r, rfl, hr, hholds⟩
    · exact .inl hholds
    · replace hst : m.status i = compStatusCompleted := hst
      exact .inl ((hholds.settle hr (by rw [hst]; decide)).sure rfl hst)
  op_frame i _ o f hins l m j _ hne w p l' h := by
    have hs : Phase.Same j m (f l m).2.1 := Phase.same_of_op hins hne
    exact h.imp (·.congr hs) fun ⟨hw, r, hp, hr, hholds⟩ => ⟨hw, r, hp, hr, hholds.congr hs⟩
  hw_frame m m' hm j _ w p l h := by
    obtain ⟨x, hx⟩ := hm
    exact h.imp (·.move hx) fun ⟨hw, r, hp, hr, hholds⟩ => ⟨hw, r, hp, hr, hholds.move hx⟩

/-! ## The executors -/

section executors

variable {k : Kernels B} {t : List Stmt} {sure : Bool} {N i : ℕ} {m₀ : Mem B}
  {locals : ℕ → ℕ → ℕ}

/-- What the requests leave in their buffers, under any executor that keeps its guarantees. -/
theorem results {x : Executor F (Mem B)} {f : F}
    (hS : Schedules ⟨Mem.hardware k, x, f, fun i => t.map (Stmt.instr k i), locals⟩ N m₀)
    (hwhole : Phase.Whole t sure) (hm : m₀.Quiet) {s : Sys F (ℕ → ℕ) (Mem B)}
    (hr : Sys.Reachable ⟨Mem.hardware k, x, f, fun i => t.map (Stmt.instr k i), locals⟩ m₀ s)
    (hexit : s.running = .exited) (hi : i < N)
    (hsure : sure = true ∨ s.mem.status i = compStatusCompleted) :
    s.mem.buffers i = run k (effects t) (m₀.buffers i) := by
  have hinit (i : ℕ) (_ : i < N) :
      (phases k N t m₀.buffers).holds i false .start (locals i) m₀ :=
    .inl ⟨hm.idle i, hm.pending i, rfl⟩
  rcases (phases k N t m₀.buffers).exited hS (fun _ => rfl) hwhole.1 hwhole.2 (fun _ => rfl)
    hinit hr hexit hi with hholds | ⟨-, r, hp, -⟩
  · exact hholds.2 hsure
  · cases congrArg Phase.mode hp

end executors

/-- When the executor of `P` returns, each request below `N` of which the memory tells that its job
has been done has left in its buffers what its phases make of them. -/
def Leaves (k : Kernels B) (t : List Stmt) (N : ℕ) (m₀ : Mem B) (P : Program F (ℕ → ℕ) (Mem B))
    (tells : Mem B → ℕ → Prop) : Prop :=
  ∀ s, Sys.Reachable P m₀ s → s.running = .exited → ∀ i < N, tells s.mem i →
    s.mem.buffers i = run k (effects t) (m₀.buffers i)

/-- The closed loops for two-phase requests. -/
def closedLoops (interval N timestamps idx : ℕ) : List ClosedLoop :=
  [yieldingRequestOfferedLoad interval N idx,
    executeYieldingRequestsClosedSystemWithSampling interval N timestamps idx,
    executeYieldingRequestsClosedSystemRequestBreakdownSampling interval N timestamps,
    executeYieldingRequestsClosedSystemRequestBreakdown N]

/-- The loops that wait for one request at a time. -/
def serialLoops (N : ℕ) : List SerialLoop :=
  [executeYieldingRequestsBestCase N, executeYieldingRequestsMultipleFillerRequests N,
    executeYieldingRequestsInterleaved N]

/-- Requests with the body `t` under a closed loop. -/
def closed (k : Kernels B) (t : List Stmt) (locals : ℕ → ℕ → ℕ) (e : ClosedLoop) :
    Program ClosedFrame (ℕ → ℕ) (Mem B) :=
  e.program (Mem.hardware k) (fun i => t.map (Stmt.instr k i)) locals

/-- The same under a loop that waits for one request at a time. -/
def serial (k : Kernels B) (t : List Stmt) (locals : ℕ → ℕ → ℕ) (e : SerialLoop) :
    Program SerialFrame (ℕ → ℕ) (Mem B) :=
  e.program (Mem.hardware k) (fun i => t.map (Stmt.instr k i)) locals

/-- The same under a loop that counts. -/
def core (k : Kernels B) (t : List Stmt) (locals : ℕ → ℕ → ℕ) (e : CoreLoop) :
    Program CoreFrame (ℕ → ℕ) (Mem B) :=
  e.program (Mem.hardware k) (fun i => t.map (Stmt.instr k i)) locals

theorem yieldingRequests_spec : ∀ t ∈ yieldingRequests,
    Phase.Whole t true ∧ CountsBetween t := by decide

theorem checkedRequests_spec : ∀ t ∈ checkedRequests,
    Phase.Whole t true ∧ CountsAtEnd t := by decide

theorem uncheckedRequests_spec : ∀ t ∈ uncheckedRequests,
    Phase.Whole t false ∧ CountsAtEnd t := by decide

theorem cpuRequests_spec : ∀ t ∈ cpuRequests, Phase.Whole t true ∧ CountsAtEnd t := by
  decide

section loops

variable {k : Kernels B} {N interval timestamps idx : ℕ} {t : List Stmt} {sure : Bool}
  {locals : ℕ → ℕ → ℕ} {m₀ : Mem B}

theorem schedules_closedLoops {e : ClosedLoop} (he : e ∈ closedLoops interval N timestamps idx)
    (hcounts : CountsBetween t) (hm : m₀.Quiet) : Schedules (closed k t locals e) N m₀ := by
  obtain ⟨rfl, hready⟩ : e.totalRequests = N ∧ e.ready = isCompleted := by
    simp only [closedLoops, List.mem_cons, List.not_mem_nil, or_false] at he
    rcases he with rfl | rfl | rfl | rfl <;> exact ⟨rfl, rfl⟩
  exact schedules_closed hready (hcounts.twoSwaps rfl) (hcounts.completesOnce rfl)
    (recordContract rfl rfl hm)

theorem schedules_serialLoops {e : SerialLoop} (he : e ∈ serialLoops N)
    (hcounts : CountsBetween t) : Schedules (serial k t locals e) N m₀ := by
  obtain rfl : e.totalRequests = N := by
    simp only [serialLoops, List.mem_cons, List.not_mem_nil, or_false] at he
    rcases he with rfl | rfl | rfl <;> rfl
  exact schedules_serial (hcounts.twoSwaps rfl) (hcounts.completesOnce rfl)

theorem schedules_coreLoops (hroom : 2 ≤ timestamps) {e : CoreLoop}
    (he : e ∈ coreLoops N timestamps idx) (hcounts : CountsAtEnd t) :
    Schedules (core k t locals e) N m₀ := by
  obtain ⟨rfl, hfits⟩ := fits_of_mem_coreLoops hroom he
  exact schedules_core hfits (hcounts.oneSwap rfl) (hcounts.countsFirst rfl)

theorem leaves_closed {e : ClosedLoop} (he : e ∈ closedLoops interval N timestamps idx)
    (ht : t ∈ yieldingRequests) (hm : m₀.Quiet) :
    Leaves k t N m₀ (closed k t locals e) fun _ _ => True := by
  intro s hr hexit i hi _
  obtain ⟨hwhole, hcounts⟩ := yieldingRequests_spec t ht
  exact results (schedules_closedLoops he hcounts hm) hwhole hm hr hexit hi (.inl rfl)

theorem leaves_serial {e : SerialLoop} (he : e ∈ serialLoops N) (ht : t ∈ yieldingRequests)
    (hm : m₀.Quiet) : Leaves k t N m₀ (serial k t locals e) fun _ _ => True := by
  intro s hr hexit i hi _
  obtain ⟨hwhole, hcounts⟩ := yieldingRequests_spec t ht
  exact results (schedules_serialLoops he hcounts) hwhole hm hr hexit hi (.inl rfl)

theorem leaves_core (hroom : 2 ≤ timestamps) {e : CoreLoop} (he : e ∈ coreLoops N timestamps idx)
    (hwhole : Phase.Whole t sure) (hcounts : CountsAtEnd t) (hm : m₀.Quiet) :
    Leaves k t N m₀ (core k t locals e)
      fun m i => sure = true ∨ m.status i = compStatusCompleted := by
  intro s hr hexit i hi hsure
  exact results (schedules_coreLoops hroom he hcounts) hwhole hm hr hexit hi hsure

end loops

/-! ## The same results -/

/-- The requests of one kind: those that yield, those that wait and those that the core serves. -/
def kinds : List (List (List Stmt)) :=
  [[yieldingDecompressAndHashRequestStamped, yieldingDecompressAndHashRequest,
      blockingDecompressAndHashRequestStamped, blockingDecompressAndHashRequest,
      cpuDecompressAndHashStamped, cpuDecompressAndHash],
    [yieldingDecompAndScatterStamped, yieldingDecompAndScatter, blockingDecompAndScatterRequest,
      blockingDecompAndScatterRequestStamped, cpuDecompAndScatter, cpuDecompAndScatterStamped],
    [yieldingMemcpyAndComputeStamped, yieldingMemcpyAndCompute, blockingMemcpyAndComputeStamped,
      blockingMemcpyAndCompute, cpuMemcpyAndComputeStamped, cpuMemcpyAndCompute],
    [yieldingMemfillAndCompute, blockingMemfillAndComputeStamped, blockingMemfillAndCompute,
      cpuMemfillAndComputeStamped, cpuMemfillAndCompute],
    [yieldingRouterRequestStamp, yieldingRouterRequest, blockingRouterRequestStamp,
      blockingRouterRequest, cpuRouterRequestStamp, cpuRouterRequest],
    [yieldingSimpleRankerRequestStamped, yieldingSimpleRankerRequest,
      blockingSimpleRankerRequestStamped, blockingSimpleRankerRequest,
      cpuSimpleRankerRequestStamped, cpuSimpleRankerRequest],
    [yieldingOffloadAndLinearAccessStamped, blockingOffloadAndLinearAccessStamped],
    [yieldingOffloadAndSerialAccessStamped, blockingOffloadAndSerialAccessStamped],
    [yieldingTraverseAndOffloadStamped, blockingTraverseAndOffloadStamped]]

/-- The device's phase, wherever it is computed. -/
def Effect.onDevice : Effect → Effect
  | axFunc => ax
  | e => e

theorem run_onDevice {k : Kernels B} (hfun : k.axFunc = k.ax) (es : List Effect) (b : B) :
    run k (es.map Effect.onDevice) b = run k es b := by
  have happly (e : Effect) : e.onDevice.apply k = e.apply k := by
    cases e <;> simp [Effect.onDevice, Effect.apply, hfun]
  simp [run, List.foldl_map, happly]

theorem kinds_spec : ∀ ts ∈ kinds, ∀ t ∈ ts, ∀ t' ∈ ts,
    (effects t).map Effect.onDevice = (effects t').map Effect.onDevice := by decide

/-- Requests of one kind compute the same, when the core's function is the device's. -/
theorem run_eq_of_kind {k : Kernels B} (hfun : k.axFunc = k.ax) {ts : List (List Stmt)}
    (hts : ts ∈ kinds) {t t' : List Stmt} (ht : t ∈ ts) (ht' : t' ∈ ts) (b : B) :
    run k (effects t) b = run k (effects t') b := by
  rw [← run_onDevice hfun, kinds_spec ts hts t ht t' ht', run_onDevice hfun]

/-- Under every executor, and whatever the device does when, a request leaves in its buffers what
its phases make of them one after the other, as if it ran alone and the device were a function:
those that yield, those that wait and test the record, those that wait and do not, where the record
is completed, and those that the core serves by itself.  So requests of one kind leave the same,
when the core's function is the device's. -/
theorem twoPhase_results (k : Kernels B) (N interval timestamps idx : ℕ) (hroom : 2 ≤ timestamps)
    (locals : ℕ → ℕ → ℕ) {m₀ : Mem B} (hm : m₀.Quiet) :
    (∀ t ∈ yieldingRequests,
      (∀ e ∈ closedLoops interval N timestamps idx,
        Leaves k t N m₀ (closed k t locals e) fun _ _ => True) ∧
      ∀ e ∈ serialLoops N, Leaves k t N m₀ (serial k t locals e) fun _ _ => True) ∧
    (∀ e ∈ coreLoops N timestamps idx,
      (∀ t ∈ checkedRequests ++ cpuRequests,
        Leaves k t N m₀ (core k t locals e) fun _ _ => True) ∧
      ∀ t ∈ uncheckedRequests, Leaves k t N m₀ (core k t locals e)
        fun m i => m.status i = compStatusCompleted) ∧
    (k.axFunc = k.ax → ∀ ts ∈ kinds, ∀ t ∈ ts, ∀ t' ∈ ts, ∀ b,
      run k (effects t) b = run k (effects t') b) := by
  refine ⟨fun t ht => ⟨fun e he => leaves_closed he ht hm, fun e he => leaves_serial he ht hm⟩,
    fun e he => ⟨fun t ht s hr hexit i hi _ => ?_, fun t ht s hr hexit i hi hst => ?_⟩,
    fun hfun ts hts t ht t' ht' b => run_eq_of_kind hfun hts ht ht' b⟩
  · obtain ⟨hwhole, hcounts⟩ := (List.mem_append.1 ht).elim (checkedRequests_spec t)
      (cpuRequests_spec t)
    exact leaves_core hroom he hwhole hcounts hm s hr hexit i hi (.inl rfl)
  · obtain ⟨hwhole, hcounts⟩ := uncheckedRequests_spec t ht
    exact leaves_core hroom he hwhole hcounts hm s hr hexit i hi (.inr hst)

/-- The device reverses a list and the core doubles its entries. -/
def doubling : Kernels (List ℕ) := ⟨id, List.reverse, List.reverse, List.map (2 * ·)⟩

/-- Nothing has been submitted, and request `i` has `i, i + 1, i + 2` in its buffer. -/
def threeEach : Mem (List ℕ) :=
  ⟨fun i => [i, i + 1, i + 2], fun _ => compStatusPending, fun _ => .idle, true, 0, fun _ _ => 0⟩

/-- Both requests are started before the second one's job is served, and then the first one's. -/
def twoYielding : List (Option (DeviceMove (List ℕ))) :=
  List.replicate 13 none ++
    [some (.writes 1), some (.writes 0), some (.completes 1), none, some (.completes 0)] ++
    List.replicate 14 none

/-- Each job is served while its request waits for it. -/
def twoBlocking : List (Option (DeviceMove (List ℕ))) :=
  let wait (i : ℕ) : List (Option (DeviceMove (List ℕ))) :=
    List.replicate 5 none ++ [some (.writes i), none, some (.completes i)]
  wait 0 ++ List.replicate 6 none ++ wait 1 ++ List.replicate 8 none

theorem twoPhase_results_two :
    ∃ s s' s'',
      Sys.schedule (Mem.move doubling)
        (closed doubling yieldingMemfillAndCompute (fun _ _ => 0)
          (executeYieldingRequestsClosedSystemRequestBreakdown 2))
        threeEach twoYielding = some s ∧
      Sys.schedule (Mem.move doubling)
        (core doubling blockingMemfillAndCompute (fun _ _ => 0)
          (executeBlockingRequestsClosedSystemRequestBreakdown 2))
        threeEach twoBlocking = some s' ∧
      Sys.schedule (Mem.move doubling)
        (core doubling cpuMemfillAndCompute (fun _ _ => 0)
          (executeBlockingRequestsClosedSystemRequestBreakdown 2))
        threeEach (List.replicate 15 none) = some s'' ∧
      s.mem.buffers 1 = [6, 4, 2] ∧ s'.mem.buffers 1 = s.mem.buffers 1 ∧
      s''.mem.buffers 1 = s.mem.buffers 1 := by
  have hmove : ∀ m a m', Mem.move doubling m a = some m' → (Mem.hardware doubling).Moves m m' :=
    fun _ a _ h => ⟨a, h⟩
  have hquiet : threeEach.Quiet := ⟨fun _ => rfl, fun _ => rfl⟩
  obtain ⟨hyield, hcore, -⟩ := twoPhase_results doubling 2 1 2 0 le_rfl (fun _ _ => 0) hquiet
  obtain ⟨hchecked, -⟩ := hcore (executeBlockingRequestsClosedSystemRequestBreakdown 2)
    (by simp [coreLoops])
  refine ⟨_, _, _, rfl, rfl, rfl, ?_, ?_, ?_⟩
  · exact (hyield yieldingMemfillAndCompute (by decide)).1
      (executeYieldingRequestsClosedSystemRequestBreakdown 2) (by simp [closedLoops]) _
      (Sys.reachable_of_schedule hmove (l := twoYielding) rfl) rfl 1 Nat.one_lt_two trivial
  · exact hchecked blockingMemfillAndCompute (by decide) _
      (Sys.reachable_of_schedule hmove (l := twoBlocking) rfl) rfl 1 Nat.one_lt_two trivial
  · exact hchecked cpuMemfillAndCompute (by decide) _
      (Sys.reachable_of_schedule hmove (l := List.replicate 15 none) rfl) rfl 1 Nat.one_lt_two
      trivial

end XMPGym.TwoPhase
