import Mathlib.Data.Nat.Notation
import Mathlib.Logic.Relation

/-!
# Transition systems

Generic rules for a step relation: properties preserved by every step hold along every run, and
a stuttering simulation transports runs of one system to runs of another.  A partial function
`f : σ → Option σ` is read as the deterministic system that performs it (`StepsTo f`), and
`iter f n` performs `n` of its steps.
-/

open Relation

namespace Transition

variable {σ τ : Type*} {step : σ → σ → Prop} {step' : τ → τ → Prop} {I J : σ → Prop}

/-- Every step keeps `I`. -/
def Preserved (step : σ → σ → Prop) (I : σ → Prop) : Prop :=
  ∀ ⦃s t⦄, step s t → I s → I t

/-- The invariant rule. -/
theorem Preserved.run (h : Preserved step I) {s t : σ} (hr : ReflTransGen step s t) (hs : I s) :
    I t := by
  induction hr with
  | refl => exact hs
  | tail _ hst ih => exact h hst ih

/-- An invariant may be used to prove another one. -/
theorem Preserved.and_of (hI : Preserved step I)
    (hJ : ∀ ⦃s t⦄, step s t → I s → J s → J t) : Preserved step fun s => I s ∧ J s :=
  fun _ _ hst h => ⟨hI hst h.1, hJ hst h.1 h.2⟩

/-- `R` is a forward simulation: a step on the left is matched by finitely many steps (possibly
none) on the right. -/
def Simulates (step : σ → σ → Prop) (step' : τ → τ → Prop) (R : σ → τ → Prop) : Prop :=
  ∀ ⦃s s' t⦄, step s s' → R s t → ∃ t', ReflTransGen step' t t' ∧ R s' t'

theorem Simulates.run {R : σ → τ → Prop} (h : Simulates step step' R) {s s' : σ} {t : τ}
    (hr : ReflTransGen step s s') (hst : R s t) : ∃ t', ReflTransGen step' t t' ∧ R s' t' := by
  induction hr with
  | refl => exact ⟨t, .refl, hst⟩
  | tail _ hss ih =>
      obtain ⟨t₁, ht₁, hR₁⟩ := ih
      obtain ⟨t₂, ht₂, hR₂⟩ := h hss hR₁
      exact ⟨t₂, ht₁.trans ht₂, hR₂⟩

/-! ## Deterministic systems -/

/-- One step of the partial function `f`. -/
def StepsTo (f : σ → Option σ) (s t : σ) : Prop := f s = some t

/-- `n` steps of the partial function `f`. -/
def iter (f : σ → Option σ) : ℕ → σ → Option σ
  | 0, s => some s
  | n + 1, s => (f s).bind (iter f n)

@[simp] theorem iter_zero (f : σ → Option σ) (s : σ) : iter f 0 s = some s := rfl

theorem iter_succ_of_eq {f : σ → Option σ} {s t : σ} (h : f s = some t) (n : ℕ) :
    iter f (n + 1) s = iter f n t := by
  simp [iter, h]

theorem iter_preserved {f : σ → Option σ} (h : Preserved (StepsTo f) I) :
    ∀ {n : ℕ} {s t : σ}, iter f n s = some t → I s → I t
  | 0, s, t, e, hs => by
      obtain rfl := Option.some.inj e
      exact hs
  | n + 1, s, t, e, hs => by
      rw [iter, Option.bind_eq_some_iff] at e
      obtain ⟨u, hu, e⟩ := e
      exact iter_preserved h e (h hu hs)

/-! ## Schedules -/

/-- A system whose steps are chosen from outside: a list of choices that can all be performed, one
after the other, makes a run. -/
theorem run_of_choices {α : Type*} (perform : σ → α → Option σ)
    (h : ∀ s c t, perform s c = some t → step s t) {l : List α} {s t : σ}
    (e : l.foldlM perform s = some t) : ReflTransGen step s t := by
  induction l generalizing s with
  | nil =>
      obtain rfl := Option.some.inj e
      exact .refl
  | cons c l ih =>
      rw [List.foldlM_cons] at e
      obtain ⟨u, hu, e⟩ := Option.bind_eq_some_iff.1 e
      exact .head (h s c u hu) (ih e)

end Transition
