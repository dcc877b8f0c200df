import Mathlib.Logic.Function.Iterate
import Mathlib.Order.Nat
import Mathlib.Tactic.Choose
import Mathlib.Tactic.Push
import XMPGym.Lib.Transition

/-!
# Fair runs

What must happen, as opposed to what may: infinite runs of processes that share a state with an
environment.  A process that can move from some point on does move, and nothing else is assumed of
the order.  `LeadsTo` says that a state with one property is followed by one with another; its
rules take a proof of it apart into facts about single steps.
-/

open Relation

namespace Transition

variable {ι σ α : Type*}

/-- Processes, each with at most one next step, and what happens around them. -/
structure Processes (ι σ : Type*) where
  act : ι → σ → Option σ
  env : σ → σ → Prop

/-- A process moves, or the environment does. -/
inductive Processes.Step (S : Processes ι σ) : σ → σ → Prop where
  | act (i : ι) {s t : σ} (h : S.act i s = some t) : Step S s t
  | env {s t : σ} (h : S.env s t) : Step S s t

/-- An infinite run, in which nothing may happen for a while. -/
structure FairRun (S : Processes ι σ) where
  state : ℕ → σ
  step : ∀ n, S.Step (state n) (state (n + 1)) ∨ state (n + 1) = state n
  fair : ∀ i n, (∀ k, n ≤ k → S.act i (state k) ≠ none) →
    ∃ k, n ≤ k ∧ S.act i (state k) = some (state (k + 1))

namespace FairRun

variable {S : Processes ι σ} (r : FairRun S) {P Q R B I : σ → Prop}

/-- What every step keeps holds for ever. -/
theorem always (h : Preserved S.Step I) {n : ℕ} (hn : I (r.state n)) :
    ∀ k, n ≤ k → I (r.state k) := by
  intro k hk
  induction k, hk using Nat.le_induction with
  | base => exact hn
  | succ k _ ih =>
      rcases r.step k with hs | hs
      · exact h hs ih
      · rwa [hs]

theorem reachable (n : ℕ) : ReflTransGen S.Step (r.state 0) (r.state n) :=
  r.always (fun _ _ hs (h : ReflTransGen S.Step (r.state 0) _) => h.tail hs) .refl n
    (Nat.zero_le n)

/-- A run seen through a function `f` of the states, under which the processes move as they do
there. -/
def map {τ : Type*} {T : Processes ι τ} (f : σ → τ)
    (hact : ∀ i n, T.act i (f (r.state n)) = (S.act i (r.state n)).map f)
    (henv : ∀ s t, S.env s t → T.env (f s) (f t)) : FairRun T where
  state n := f (r.state n)
  step n := by
    rcases r.step n with hs | hs
    · left
      generalize hs' : r.state (n + 1) = t at hs
      generalize hn : r.state n = s at hs
      cases hs with
      | act i h => exact .act i (by rw [← hn, hact, hn, h, Option.map_some])
      | env h => exact .env (henv _ _ h)
    · exact .inr (congrArg f hs)
  fair i n h := by
    obtain ⟨k, hk, hs⟩ := r.fair i n fun k hk hnone => h k hk (by rw [hact, hnone, Option.map_none])
    exact ⟨k, hk, by rw [hact, hs, Option.map_some]⟩

/-- Whenever `P` holds, `Q` holds then or later. -/
def LeadsTo (P Q : σ → Prop) : Prop := ∀ n, P (r.state n) → ∃ k, n ≤ k ∧ Q (r.state k)

variable {r}

theorem LeadsTo.mono {P' Q' : σ → Prop} (h : r.LeadsTo P Q) (hP : ∀ s, P' s → P s)
    (hQ : ∀ s, Q s → Q' s) : r.LeadsTo P' Q' := by
  intro n hn
  obtain ⟨k, hk, hq⟩ := h n (hP _ hn)
  exact ⟨k, hk, hQ _ hq⟩

theorem LeadsTo.trans (h : r.LeadsTo P Q) (h' : r.LeadsTo Q R) : r.LeadsTo P R := by
  intro n hn
  obtain ⟨k, hk, hq⟩ := h n hn
  obtain ⟨l, hl, hr⟩ := h' k hq
  exact ⟨l, hk.trans hl, hr⟩

/-- A process that can move in every state with `P`, and whose move brings about `Q`, while the
other steps keep `P` or bring about `Q` themselves. -/
theorem LeadsTo.of_process (i : ι) (hkeep : ∀ s t, S.Step s t → P s → P t ∨ Q t)
    (hact : ∀ s, P s → S.act i s ≠ none) (hhelp : ∀ s t, P s → S.act i s = some t → Q t) :
    r.LeadsTo P Q := by
  intro n hn
  by_contra hnever
  push Not at hnever
  have hP : ∀ k, n ≤ k → P (r.state k) := by
    intro k hk
    induction k, hk using Nat.le_induction with
    | base => exact hn
    | succ k hk ih =>
        rcases r.step k with hs | hs
        · exact (hkeep _ _ hs ih).resolve_right (hnever (k + 1) (Nat.le_succ_of_le hk))
        · rwa [hs]
  obtain ⟨k, hk, hs⟩ := r.fair i n fun k hk => hact _ (hP k hk)
  exact hnever (k + 1) (Nat.le_succ_of_le hk) (hhelp _ _ (hP k hk) hs)

/-- While `Q` is on its way, `R` stays unless `B` comes about. -/
theorem LeadsTo.unless (h : r.LeadsTo P Q) (hkeep : ∀ s t, S.Step s t → R s → R t ∨ B t) :
    r.LeadsTo (fun s => P s ∧ R s) fun s => Q s ∧ R s ∨ B s := by
  rintro n ⟨hP, hR⟩
  obtain ⟨m, hm, hQ⟩ := h n hP
  by_contra hnever
  push Not at hnever
  have hkeep' : ∀ k, n ≤ k → R (r.state k) := by
    intro k hk
    induction k, hk using Nat.le_induction with
    | base => exact hR
    | succ k hk ih =>
        rcases r.step k with hs | hs
        · exact (hkeep _ _ hs ih).resolve_right (hnever (k + 1) (Nat.le_succ_of_le hk)).2
        · rwa [hs]
  exact (hnever m hm).1 hQ (hkeep' m hm)

/-- The rule of descent. -/
theorem LeadsTo.of_measure (μ : σ → ℕ)
    (h : ∀ m, r.LeadsTo (fun s => P s ∧ μ s = m) fun s => Q s ∨ P s ∧ μ s < m) :
    r.LeadsTo P Q := by
  have key : ∀ m, r.LeadsTo (fun s => P s ∧ μ s = m) Q := by
    intro m
    induction m using Nat.strong_induction_on with
    | _ m ih =>
        refine (h m).trans fun n hn => ?_
        rcases hn with hq | ⟨hp, hlt⟩
        · exact ⟨n, le_rfl, hq⟩
        · exact ih _ hlt n ⟨hp, rfl⟩
  exact fun n hn => key _ n ⟨hn, rfl⟩

/-- Nothing holds the processes up. -/
def Free {κ : Type*} (stall : κ → σ → Prop) (s : σ) : Prop := ∀ k, ¬ stall k s

/-- The rule of descent with stalls.  Until the goal is reached no step leads away from it, and one
process gets nearer to it with each of its steps, unless something holds it up: then nothing else
can hold it up before that has come to its end. -/
theorem LeadsTo.of_stalls {κ : Type*} (i : ι) (μ : σ → ℕ) (stall : κ → σ → Prop)
    (hstep : ∀ s t, S.Step s t → P s → Q t ∨ P t ∧ (μ t < μ s ∨ μ t = μ s ∧
      (Free stall s → Free stall t) ∧ ∀ k, stall k s → stall k t ∨ Free stall t))
    (hact : ∀ s, P s → Free stall s → Q s ∨
      S.act i s ≠ none ∧ ∀ t, S.act i s = some t → Q t ∨ μ t < μ s)
    (hend : ∀ k, r.LeadsTo (fun s => P s ∧ stall k s) fun s => Q s ∨ ¬ stall k s) :
    r.LeadsTo P Q := by
  refine .of_measure μ fun m => ?_
  have hfree : r.LeadsTo (fun s => P s ∧ μ s = m ∧ Free stall s) fun s =>
      Q s ∨ P s ∧ μ s < m := by
    have hmove : r.LeadsTo (fun s => (P s ∧ μ s = m ∧ Free stall s) ∧ ¬ Q s) fun s =>
        Q s ∨ P s ∧ μ s < m := by
      refine .of_process i ?_ ?_ ?_
      · rintro s t hs ⟨⟨hp, hm, hf⟩, -⟩
        rcases hstep s t hs hp with hq | ⟨hp', hlt | ⟨heq, hf', -⟩⟩
        · exact .inr (.inl hq)
        · exact .inr (.inr ⟨hp', hm ▸ hlt⟩)
        · by_cases hq : Q t
          · exact .inr (.inl hq)
          · exact .inl ⟨⟨hp', heq.trans hm, hf' hf⟩, hq⟩
      · rintro s ⟨⟨hp, -, hf⟩, hq⟩
        exact ((hact s hp hf).resolve_left hq).1
      · rintro s t ⟨⟨hp, hm, hf⟩, hq⟩ hs
        rcases ((hact s hp hf).resolve_left hq).2 t hs with hq' | hlt
        · exact .inl hq'
        · exact (hstep s t (.act i hs) hp).imp_right fun h => ⟨h.1, hm ▸ hlt⟩
    intro n hn
    by_cases hq : Q (r.state n)
    · exact ⟨n, le_rfl, .inl hq⟩
    · exact hmove n ⟨hn, hq⟩
  rintro n ⟨hp, hm⟩
  by_cases hf : Free stall (r.state n)
  · exact hfree n ⟨hp, hm, hf⟩
  · obtain ⟨k, hk⟩ : ∃ k, stall k (r.state n) := by simpa [Free] using hf
    have hstall : ∀ s t, S.Step s t → (P s ∧ μ s = m ∧ stall k s) →
        (P t ∧ μ t = m ∧ stall k t) ∨ (Q t ∨ P t ∧ (μ t < m ∨ μ t = m ∧ Free stall t)) := by
      rintro s t hs ⟨hp, hm, hk⟩
      rcases hstep s t hs hp with hq | ⟨hp', hlt | ⟨heq, -, hk'⟩⟩
      · exact .inr (.inl hq)
      · exact .inr (.inr ⟨hp', .inl (hm ▸ hlt)⟩)
      · rcases hk' k hk with hk' | hf
        · exact .inl ⟨hp', heq.trans hm, hk'⟩
        · exact .inr (.inr ⟨hp', .inr ⟨heq.trans hm, hf⟩⟩)
    obtain ⟨l, hl, ⟨hq | hnot, -, -, hk'⟩ | hq | ⟨hp', hlt | ⟨hm', hf'⟩⟩⟩ :=
      (hend k).unless hstall n ⟨⟨hp, hk⟩, hp, hm, hk⟩
    · exact ⟨l, hl, .inl hq⟩
    · exact absurd hk' hnot
    · exact ⟨l, hl, .inl hq⟩
    · exact ⟨l, hl, .inr ⟨hp', hlt⟩⟩
    · obtain ⟨l', hl', hgoal⟩ := hfree l ⟨hp', hm', hf'⟩
      exact ⟨l', hl.trans hl', hgoal⟩

/-- The rule of descent where nothing holds the process up. -/
theorem LeadsTo.of_descent (i : ι) (μ : σ → ℕ)
    (hstep : ∀ s t, S.Step s t → P s → Q t ∨ P t ∧ μ t ≤ μ s)
    (hact : ∀ s, P s → S.act i s ≠ none)
    (hlt : ∀ s t, P s → S.act i s = some t → Q t ∨ μ t < μ s) : r.LeadsTo P Q := by
  refine .of_stalls i μ (fun (_ : Empty) _ => False) (fun s t hs hp => ?_)
    (fun s hp _ => .inr ⟨hact s hp, fun t => hlt s t hp⟩) fun k => k.elim
  refine (hstep s t hs hp).imp_right fun h => ⟨h.1, ?_⟩
  exact (Nat.lt_or_eq_of_le h.2).imp_right fun heq =>
    ⟨heq, fun _ k => k.elim, fun k => k.elim⟩

end FairRun

/-! ## Runs that are built -/

/-- The state after a step of process `i`, if it has one. -/
def Processes.next (S : Processes ι σ) (i : ι) (s : σ) : σ := (S.act i s).getD s

/-- A list of choices, after which only process `i` can ever move, makes a fair run in which it
does. -/
theorem exists_fairRun {S : Processes ι σ} (perform : σ → α → Option σ)
    (hperform : ∀ s c t, perform s c = some t → S.Step s t) {l : List α} {s t : σ}
    (h : l.foldlM perform s = some t) (i : ι)
    (hother : ∀ j, j ≠ i → ∀ n, S.act j ((S.next i)^[n] t) = none) :
    ∃ r : FairRun S, (∀ n ≤ l.length, (l.take n).foldlM perform s = some (r.state n)) ∧
      ∀ n, r.state (l.length + n) = (S.next i)^[n] t := by
  -- the state after the first `n` choices
  have hstate : ∀ n, ∃ u, (l.take n).foldlM perform s = some u := by
    intro n
    rw [← List.take_append_drop n l, List.foldlM_append] at h
    obtain ⟨u, hu, -⟩ := Option.bind_eq_some_iff.1 h
    exact ⟨u, hu⟩
  choose first hfirst using hstate
  have hlast : first l.length = t := by
    have := hfirst l.length
    rw [List.take_length, h] at this
    exact (Option.some.inj this).symm
  let state (n : ℕ) : σ := if n < l.length then first n else (S.next i)^[n - l.length] t
  have hend (n : ℕ) : state (l.length + n) = (S.next i)^[n] t := by
    simp only [state, if_neg (show ¬ l.length + n < l.length by omega), Nat.add_sub_cancel_left]
  have hnext (n : ℕ) : state (l.length + n + 1) = S.next i (state (l.length + n)) := by
    rw [Nat.add_assoc, hend, hend, Function.iterate_succ_apply']
  have hfirst' (n : ℕ) (hn : n ≤ l.length) : state n = first n := by
    rcases Nat.lt_or_eq_of_le hn with hlt | rfl
    · exact if_pos hlt
    · rw [show state l.length = t from hend 0, hlast]
  refine ⟨⟨state, fun n => ?_, fun j n hn => ?_⟩, fun n hn => ?_, hend⟩
  · rcases Nat.lt_or_ge n l.length with hlt | hge
    · have hstep := hfirst (n + 1)
      rw [List.take_succ_eq_append_getElem hlt, List.foldlM_append, hfirst n] at hstep
      rw [hfirst' n hlt.le, hfirst' (n + 1) hlt]
      exact .inl (hperform _ _ _ (by simpa using hstep))
    · obtain ⟨k, rfl⟩ := Nat.exists_eq_add_of_le hge
      rw [hnext]
      cases hact : S.act i (state (l.length + k)) with
      | none => exact .inr (by simp [Processes.next, hact])
      | some u => exact .inl (.act i (by simp [Processes.next, hact]))
  · have hk := hn (l.length + n) (Nat.le_add_left n _)
    rcases eq_or_ne j i with rfl | hne
    · refine ⟨l.length + n, Nat.le_add_left n _, ?_⟩
      rw [hnext]
      obtain ⟨u, hu⟩ := Option.ne_none_iff_exists'.1 hk
      simp [Processes.next, hu]
    · rw [hend] at hk
      exact absurd (hother j hne n) hk
  · rw [hfirst n]
    exact congrArg some (hfirst' n hn).symm

end Transition
