import XMPGym.Scheduling

/-!
# Proof outlines

The bodies of the requests, with an assertion in front of what is left of each.  An assertion speaks
of one request's locals and of the memory.  When neither the operations of another request nor the
hardware can make it false, the requests can be looked at one by one, whichever executor interleaves
them.
-/

open Relation Transition

namespace XMPGym

variable {F L M : Type*}

/-- The request has been entered and does not have control. -/
def Sys.waits (s : Sys F L M) (i : ℕ) : Bool :=
  !decide (s.running = .at (.request i)) && (s.request i).arg.isSome

/-- Assertions about the requests below `N`.  `holds i w c l m` is the one in front of the code `c`
of request `i`, where `w` tells whether the request waits in the swap before `c`. -/
structure Outline (hw : Hardware M) (N : ℕ) (L : Type*) where
  holds : ℕ → Bool → List (Instr L M) → L → M → Prop
  op : ∀ i < N, ∀ f c l m, holds i false (.op f :: c) l m →
    ((f l m).2.2 = .next → holds i false c (f l m).1 (f l m).2.1) ∧
      ((f l m).2.2 = .stay → holds i false (.op f :: c) (f l m).1 (f l m).2.1)
  completed : ∀ i < N, ∀ c l m, holds i false (.completed :: c) l m → holds i false c l m
  swap : ∀ i < N, ∀ c l m, holds i false (.swap :: c) l m → holds i true c l m
  /-- a request goes on when its record is completed -/
  resume : ∀ i < N, ∀ c l m, holds i true c l m → hw.status m i = compStatusCompleted →
    holds i false c l m
  /-- operations do not interfere with the assertions about other requests -/
  op_frame : ∀ i < N, ∀ f c l m, holds i false (.op f :: c) l m → ∀ j < N, j ≠ i → ∀ w c' l',
    holds j w c' l' m → holds j w c' l' (f l m).2.1
  hw_frame : ∀ m m', hw.Moves m m' → ∀ j < N, ∀ w c l, holds j w c l m → holds j w c l m'

namespace Outline

variable {P : Program F L M} {N i : ℕ} {m₀ : M} {s s' : Sys F L M}

/-- The assertions hold. -/
def Kept (O : Outline P.hw N L) (s : Sys F L M) : Prop :=
  ∀ i < N, O.holds i (s.waits i) (s.request i).code (s.request i).locals s.mem

variable {O : Outline P.hw N L}

/-- Steps that leave the requests and the memory alone, from one context without a request to
another one. -/
theorem Kept.congr (h : O.Kept s) (hrun : s.running.request = none)
    (hrun' : s'.running.request = none) (hr : s'.request = s.request) (hm : s'.mem = s.mem) :
    O.Kept s' := by
  intro i hi
  have hne : s.running ≠ .at (.request i) := fun e => by simp [e, Running.request] at hrun
  have hne' : s'.running ≠ .at (.request i) := fun e => by simp [e, Running.request] at hrun'
  have hw : s'.waits i = s.waits i := by simp [Sys.waits, hne, hne', hr]
  rw [hw, hr, hm]
  exact h i hi

/-- The executor enters a request, or resumes one whose record is completed. -/
theorem Kept.swap (h : O.Kept s) (hrun : s.running = .at .executor) {t : Handle Ctx} {x : Data}
    {f : F} (hresume : ∀ i, t.owner = .request i →
      (s.request i).arg = none ∨ P.hw.status s.mem i = compStatusCompleted) :
    O.Kept (Sys.fcontextSwap { s with frame := f } .executor t x) := by
  obtain ⟨o, n⟩ := t
  intro i hi
  have hi' := h i hi
  by_cases ho : o = .request i
  · subst ho
    suffices O.holds i false (s.request i).code (s.request i).locals s.mem by
      simpa [Sys.waits] using this
    rcases hresume i rfl with harg | hst
    · simpa [Sys.waits, harg] using hi'
    · cases hw : s.waits i with
      | false => rwa [hw] at hi'
      | true =>
          rw [hw] at hi'
          exact O.resume i hi _ _ _ hi' hst
  · have hw : (Sys.fcontextSwap { s with frame := f } .executor ⟨o, n⟩ x).waits i = s.waits i := by
      cases o with
      | request j =>
          have hne : i ≠ j := fun e => ho (by rw [e])
          simp [Sys.waits, hrun, Function.update_of_ne hne, hne.symm]
      | _ => simp [Sys.waits, hrun]
    rw [hw]
    simpa using hi'

/-- The request that runs performs an operation and stays in its body. -/
theorem Kept.op (h : O.Kept s) (hi : i < N) {f : L → M → L × M × Next} {c : List (Instr L M)}
    (hrun : s.running = .at (.request i)) (hc : (s.request i).code = .op f :: c)
    (hret : (f (s.request i).locals s.mem).2.2 ≠ .ret) : O.Kept (s.instr i c (.op f)) := by
  have hself := h i hi
  have hw : s.waits i = false := by simp [Sys.waits, hrun]
  rw [hw, hc] at hself
  intro j hj
  rcases eq_or_ne j i with rfl | hne
  · obtain ⟨hnext, hstay⟩ := O.op j hj f c _ _ hself
    cases hn : (f (s.request j).locals s.mem).2.2 with
    | next => simpa [Sys.instr, Sys.waits, hrun, hn] using hnext hn
    | stay => simpa [Sys.instr, Sys.waits, hrun, hn] using hstay hn
    | ret => exact absurd hn hret
  · have := O.op_frame i hi f c _ _ hself j hj hne _ _ _ (h j hj)
    simpa [Sys.instr, Sys.waits, hret, Function.update_of_ne hne] using this

/-- The request that runs counts itself. -/
theorem Kept.completed (h : O.Kept s) (hi : i < N) {c : List (Instr L M)}
    (hrun : s.running = .at (.request i)) (hc : (s.request i).code = .completed :: c) :
    O.Kept { s.setCode i c with requestsCompleted := s.requestsCompleted + 1 } := by
  intro j hj
  have hj' := h j hj
  rcases eq_or_ne j i with rfl | hne
  · have hw : s.waits j = false := by simp [Sys.waits, hrun]
    rw [hw, hc] at hj'
    simpa [Sys.setCode, Sys.waits, hrun] using O.completed j hj _ _ _ hj'
  · have hreq : (s.setCode i c).request j = s.request j := Function.update_of_ne hne _ _
    have hw : (s.setCode i c).waits j = s.waits j := by rw [Sys.waits, hreq]; rfl
    change O.holds j ((s.setCode i c).waits j) ((s.setCode i c).request j).code
      ((s.setCode i c).request j).locals s.mem
    rwa [hw, hreq]

/-- The request that runs hands control back. -/
theorem Kept.back (h : O.Kept s) (hi : i < N) {c : List (Instr L M)} {n : ℕ} {x y : Data}
    (hrun : s.running = .at (.request i)) (hc : (s.request i).code = .swap :: c)
    (harg : (s.request i).arg = some ⟨⟨.executor, n⟩, x⟩) :
    O.Kept ((s.setCode i c).fcontextSwap (.request i) ⟨.executor, n⟩ y) := by
  intro j hj
  have hj' := h j hj
  rcases eq_or_ne j i with rfl | hne
  · have hw : s.waits j = false := by simp [Sys.waits, hrun]
    rw [hw, hc] at hj'
    simpa [Sys.setCode, Sys.waits, harg] using O.swap j hj _ _ _ hj'
  · simpa [Sys.setCode, Sys.waits, hrun, Function.update_of_ne hne, hne.symm] using hj'

/-- A step keeps the assertions, or ends the process. -/
theorem Kept.move (h : O.Kept s) (hS : Schedules P N m₀) (hr : Sys.Reachable P m₀ s)
    (hm : Move P s s') : (∃ j, s'.running = .returned j) ∨ O.Kept s' := by
  have hlt := hS.request_lt s
  cases hm with
  | hw m hm => exact .inr fun i hi => O.hw_frame _ _ hm i hi _ _ _ (h i hi)
  | goto f hrun => exact .inr (h.congr (by rw [hrun]; rfl) (by rw [hrun]; rfl) rfl rfl)
  | exit f hrun => exact .inr (h.congr (by rw [hrun]; rfl) rfl rfl rfl)
  | fault hrun => exact .inr (h.congr (by rw [hrun]; rfl) rfl rfl rfl)
  | swap t x f hrun hact => exact .inr (h.swap hrun (hS.resume s t x f hr hrun hact))
  | op i f c hrun hc =>
      by_cases hret : (f (s.request i).locals s.mem).2.2 = .ret
      · exact .inl ⟨i, by simp [Sys.instr, hret]⟩
      · exact .inr (h.op (hlt i hr hrun) hrun hc hret)
  | completed i c hrun hc => exact .inr (h.completed (hlt i hr hrun) hrun hc)
  | back i n c x hrun hc harg => exact .inr (h.back (hlt i hr hrun) hrun hc harg)
  | filler i hrun =>
      obtain ⟨hreq, hmem, hrun'⟩ := hS.filler s i hr hrun
      exact .inr (h.congr (by rw [hrun]; rfl) hrun' hreq hmem)

/-- The assertions hold in every reachable state of an executor that keeps its guarantees, until a
request returns from its entry function. -/
theorem kept_of_reachable (hS : Schedules P N m₀)
    (hinit : ∀ i < N, O.holds i false (P.request i) (P.locals i) m₀)
    (hr : Sys.Reachable P m₀ s) : (∃ j, s.running = .returned j) ∨ O.Kept s := by
  induction hr with
  | refl => exact .inr fun i hi => by simpa [Sys.init, Sys.waits] using hinit i hi
  | @tail s s' hr hs ih =>
      rcases ih with ⟨j, hj⟩ | h
      · refine .inl ⟨j, ?_⟩
        cases hs with
        | hw => exact hj
        | thread _ hs => simp [Sys.thread, hj] at hs
      · exact h.move hS hr (hS.move s s' hr hs)

/-- When the executor returns, the assertions at the ends of the bodies hold. -/
theorem exited (hS : Schedules P N m₀)
    (hinit : ∀ i < N, O.holds i false (P.request i) (P.locals i) m₀)
    (hr : Sys.Reachable P m₀ s) (hexit : s.running = .exited) (hi : i < N) :
    swapsLeft (s.request i).code = 0 ∧
      O.holds i (s.waits i) (s.request i).code (s.request i).locals s.mem := by
  refine ⟨hS.exited s hr hexit i hi, ?_⟩
  rcases kept_of_reachable hS hinit hr with ⟨j, hj⟩ | h
  · rw [hexit] at hj
    cases hj
  · exact h i hi

end Outline

/-! ## Phases -/

/-- A body made of statements, and the phases through which the statements lead.  `holds i w p l m`
says what holds of request `i` in the phase `p`, where `w` tells whether it waits in a swap. -/
structure Phases (hw : Hardware M) (N : ℕ) (L O Q : Type*) where
  body : List O
  instr : ℕ → O → Instr L M
  next : Q → O → Option Q
  holds : ℕ → Bool → Q → L → M → Prop
  op : ∀ i < N, ∀ o ∈ body, ∀ p q, next p o = some q → ∀ f, instr i o = .op f → ∀ l m,
    holds i false p l m →
      ((f l m).2.2 = .next → holds i false q (f l m).1 (f l m).2.1) ∧
        ((f l m).2.2 = .stay → holds i false p (f l m).1 (f l m).2.1)
  completed : ∀ i < N, ∀ o p q, next p o = some q → instr i o = .completed → ∀ l m,
    holds i false p l m → holds i false q l m
  swap : ∀ i < N, ∀ o p q, next p o = some q → instr i o = .swap → ∀ l m,
    holds i false p l m → holds i true q l m
  resume : ∀ i < N, ∀ p l m, holds i true p l m → hw.status m i = compStatusCompleted →
    holds i false p l m
  op_frame : ∀ i < N, ∀ o f, instr i o = .op f → ∀ l m, ∀ j < N, j ≠ i → ∀ w p l',
    holds j w p l' m → holds j w p l' (f l m).2.1
  hw_frame : ∀ m m', hw.Moves m m' → ∀ j < N, ∀ w p l, holds j w p l m → holds j w p l m'

namespace Phases

variable {O Q : Type*} {P : Program F L M} {N i : ℕ} {m₀ : M} {s : Sys F L M}

/-- The statements `t` lead from one phase to another one. -/
def Leads (next : Q → O → Option Q) (p : Q) (t : List O) (q : Q) : Prop :=
  t.foldlM next p = some q

instance [DecidableEq Q] (next : Q → O → Option Q) (p : Q) (t : List O) (q : Q) :
    Decidable (Leads next p t q) :=
  inferInstanceAs (Decidable (_ = _))

theorem leads_cons {next : Q → O → Option Q} {p r : Q} {o : O} {t : List O} :
    Leads next p (o :: t) r ↔ ∃ q, next p o = some q ∧ Leads next q t r := by
  simp only [Leads, List.foldlM_cons]
  exact Option.bind_eq_some_iff

variable (D : Phases P.hw N L O Q) {last : Q}

/-- In front of `c`, the request is in a phase from which `c` leads to the last one. -/
def Assertion (last : Q) (i : ℕ) (w : Bool) (c : List (Instr L M)) (l : L) (m : M) : Prop :=
  ∃ rest p, rest <:+ D.body ∧ c = rest.map (D.instr i) ∧ Leads D.next p rest last ∧
    D.holds i w p l m

variable {D}

/-- A request in front of a statement. -/
theorem Assertion.next {w : Bool} {ins : Instr L M} {c : List (Instr L M)} {l : L} {m : M}
    (h : D.Assertion last i w (ins :: c) l m) :
    ∃ o rest p q, o :: rest <:+ D.body ∧ D.instr i o = ins ∧ c = rest.map (D.instr i) ∧
      D.next p o = some q ∧ Leads D.next q rest last ∧ D.holds i w p l m := by
  obtain ⟨rest, p, hsuf, hc, hl, hholds⟩ := h
  cases rest with
  | nil => cases hc
  | cons o rest =>
      obtain ⟨q, hq, hl⟩ := leads_cons.1 hl
      obtain ⟨rfl, rfl⟩ := List.cons.inj hc
      exact ⟨o, rest, p, q, hsuf, rfl, rfl, hq, hl, hholds⟩

variable (D)

/-- The phases as a proof outline. -/
def outline (last : Q) : Outline P.hw N L where
  holds := D.Assertion last
  op i hi f c l m h := by
    obtain ⟨o, rest, p, q, hsuf, hins, rfl, hq, hl, hholds⟩ := h.next
    have ho : o ∈ D.body := hsuf.subset List.mem_cons_self
    obtain ⟨hnext, hstay⟩ := D.op i hi o ho p q hq f hins l m hholds
    refine ⟨fun hn => ⟨rest, q, (List.suffix_cons _ _).trans hsuf, rfl, hl, hnext hn⟩,
      fun hn => ⟨o :: rest, p, hsuf, ?_, leads_cons.2 ⟨q, hq, hl⟩, hstay hn⟩⟩
    rw [List.map_cons, hins]
  completed i hi c l m h := by
    obtain ⟨o, rest, p, q, hsuf, hins, rfl, hq, hl, hholds⟩ := h.next
    exact ⟨rest, q, (List.suffix_cons _ _).trans hsuf, rfl, hl,
      D.completed i hi o p q hq hins l m hholds⟩
  swap i hi c l m h := by
    obtain ⟨o, rest, p, q, hsuf, hins, rfl, hq, hl, hholds⟩ := h.next
    exact ⟨rest, q, (List.suffix_cons _ _).trans hsuf, rfl, hl,
      D.swap i hi o p q hq hins l m hholds⟩
  resume i hi c l m h hst := by
    obtain ⟨rest, p, hsuf, hc, hl, hholds⟩ := h
    exact ⟨rest, p, hsuf, hc, hl, D.resume i hi p l m hholds hst⟩
  op_frame i hi f c l m h j hj hne w c' l' h' := by
    obtain ⟨o, -, -, -, -, hins, -⟩ := h.next
    obtain ⟨rest, p, hsuf, hc, hl, hholds⟩ := h'
    exact ⟨rest, p, hsuf, hc, hl, D.op_frame i hi o f hins l m j hj hne w p l' hholds⟩
  hw_frame m m' hm j hj w c l h := by
    obtain ⟨rest, p, hsuf, hc, hl, hholds⟩ := h
    exact ⟨rest, p, hsuf, hc, hl, D.hw_frame m m' hm j hj w p l hholds⟩

/-- When the executor returns, the last phase holds of each request, if the body ends with a
swap. -/
theorem exited {first last : Q} (hS : Schedules P N m₀)
    (hreq : ∀ i, P.request i = D.body.map (D.instr i)) (hl : Leads D.next first D.body last)
    {o : O} (hend : D.body.getLast? = some o) (ho : ∀ i, D.instr i o = .swap)
    (hinit : ∀ i < N, D.holds i false first (P.locals i) m₀) (hr : Sys.Reachable P m₀ s)
    (hexit : s.running = .exited) (hi : i < N) :
    D.holds i (s.waits i) last (s.request i).locals s.mem := by
  obtain ⟨hsw, rest, p, hsuf, hc, hleads, hholds⟩ :=
    (D.outline last).exited hS
      (fun i hi => ⟨D.body, first, List.suffix_rfl, hreq i, hl, hinit i hi⟩) hr hexit hi
  -- what is left of the body would end with the same swap
  have hrest : rest = [] := by
    by_contra hne
    have hlast : o ∈ rest := by
      have hbody : D.body ≠ [] := fun e => hne (List.suffix_nil.1 (e ▸ hsuf))
      rw [List.getLast?_eq_some_getLast hbody, ← hsuf.getLast hne, Option.some.injEq] at hend
      exact hend ▸ List.getLast_mem hne
    have hpos : 0 < swapsLeft (rest.map (D.instr i)) :=
      List.countP_pos_iff.2 ⟨_, List.mem_map_of_mem hlast, by rw [ho]; rfl⟩
    rw [← hc, hsw] at hpos
    exact absurd hpos (Nat.lt_irrefl 0)
  subst hrest
  obtain rfl := Option.some.inj hleads
  exact hholds

end Phases

end XMPGym
