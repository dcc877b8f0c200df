import Mathlib.Data.Nat.Notation
import Mathlib.Logic.Relation

/-!
# Loops

A loop of which it is not known whether it ends.  A round gives the result of the loop or the state
for the next round.  Where every round that goes on makes a measure smaller or changes nothing, the
loop ends exactly when no round that is reached changes nothing (`exists_ends_iff`).
-/

open Relation

namespace DoWhile

variable {σ ρ : Type*}

/-- At most `n` rounds; `none` when the loop has not ended by then. -/
def run (body : σ → ρ ⊕ σ) : ℕ → σ → Option ρ
  | 0, _ => none
  | n + 1, s =>
      match body s with
      | .inl r => some r
      | .inr t => run body n t

/-- The loop ends, with the result `r`. -/
def Ends (body : σ → ρ ⊕ σ) (s : σ) (r : ρ) : Prop := ∃ n, run body n s = some r

/-- The loop goes on, from one state to the next. -/
def Continues (body : σ → ρ ⊕ σ) (s t : σ) : Prop := body s = .inr t

variable {body : σ → ρ ⊕ σ} {s t : σ} {r r' : ρ}

theorem ends_of_inl (h : body s = .inl r) : Ends body s r := ⟨1, by simp [run, h]⟩

theorem Ends.head (h : body s = .inr t) (ht : Ends body t r) : Ends body s r := by
  obtain ⟨n, hn⟩ := ht
  exact ⟨n + 1, by simp [run, h, hn]⟩

/-- More rounds than are needed change nothing. -/
theorem run_mono {n m : ℕ} (h : run body n s = some r) (hle : n ≤ m) : run body m s = some r := by
  induction n generalizing s m with
  | zero => cases h
  | succ n ih =>
      obtain ⟨m, rfl⟩ : ∃ k, m = k + 1 := ⟨m - 1, by omega⟩
      unfold run at h ⊢
      cases hbody : body s with
      | inl r' => rwa [hbody] at h
      | inr t =>
          simp only [hbody] at h
          exact ih h (by omega)

/-- The round that ends a loop is reached. -/
theorem exists_last {n : ℕ} (h : run body n s = some r) :
    ∃ t, ReflTransGen (Continues body) s t ∧ body t = .inl r := by
  induction n generalizing s with
  | zero => cases h
  | succ n ih =>
      unfold run at h
      cases hbody : body s with
      | inl r' =>
          simp only [hbody, Option.some.injEq] at h
          exact ⟨s, .refl, h ▸ hbody⟩
      | inr t =>
          simp only [hbody] at h
          obtain ⟨u, hu, hlast⟩ := ih h
          exact ⟨u, .head hbody hu, hlast⟩

/-- What has been reached is on the way of every run that ends. -/
theorem Ends.of_reaches (h : Ends body s r) (hr : ReflTransGen (Continues body) s t) :
    Ends body t r := by
  induction hr using ReflTransGen.head_induction_on with
  | refl => exact h
  | head hstep _ ih =>
      obtain ⟨n, hn⟩ := h
      cases n with
      | zero => cases hn
      | succ n =>
          unfold run at hn
          rw [hstep] at hn
          exact ih ⟨n, hn⟩

/-- A loop ends in one way. -/
theorem Ends.unique (h : Ends body s r) (h' : Ends body s r') : r = r' := by
  obtain ⟨n, hn⟩ := h
  obtain ⟨m, hm⟩ := h'
  have hmax := (run_mono hn (Nat.le_max_left n m)).symm.trans (run_mono hm (Nat.le_max_right n m))
  exact Option.some.inj hmax

/-- A round that changes nothing is repeated for ever. -/
theorem not_ends_of_eq (h : body t = .inr t) : ¬ Ends body t r := by
  rintro ⟨n, hn⟩
  induction n with
  | zero => cases hn
  | succ n ih =>
      unfold run at hn
      rw [h] at hn
      exact ih hn

theorem exists_ends_iff (μ : σ → ℕ) (hμ : ∀ s t, body s = .inr t → μ t < μ s ∨ t = s) :
    (∃ r, Ends body s r) ↔ ¬ ∃ t, ReflTransGen (Continues body) s t ∧ body t = .inr t := by
  constructor
  · rintro ⟨r, h⟩ ⟨t, hr, hstuck⟩
    exact not_ends_of_eq hstuck (h.of_reaches hr)
  · intro h
    -- by induction on the measure, which only a round that changes nothing leaves as it is
    generalize hn : μ s = n
    induction n using Nat.strongRecOn generalizing s with
    | _ n ih =>
        cases hbody : body s with
        | inl r => exact ⟨r, ends_of_inl hbody⟩
        | inr t =>
            rcases hμ s t hbody with hlt | rfl
            · have hnext : ¬ ∃ u, ReflTransGen (Continues body) t u ∧ body u = .inr u :=
                fun ⟨u, hu, hstuck⟩ => h ⟨u, .head hbody hu, hstuck⟩
              obtain ⟨r, hr⟩ := ih (μ t) (hn ▸ hlt) hnext rfl
              exact ⟨r, hr.head hbody⟩
            · exact absurd ⟨t, .refl, hbody⟩ h

/-- A loop each of whose rounds keeps `I` and makes a measure smaller ends. -/
theorem exists_ends (I : σ → Prop) (μ : σ → ℕ)
    (h : ∀ s t, I s → body s = .inr t → I t ∧ μ t < μ s) (hs : I s) : ∃ r, Ends body s r := by
  generalize hn : μ s = n
  induction n using Nat.strongRecOn generalizing s with
  | _ n ih =>
      cases hbody : body s with
      | inl r => exact ⟨r, ends_of_inl hbody⟩
      | inr t =>
          obtain ⟨ht, hlt⟩ := h s t hs hbody
          obtain ⟨r, hr⟩ := ih (μ t) (hn ▸ hlt) ht rfl
          exact ⟨r, hr.head hbody⟩

/-- It ends with `Q`, where the round that ends it gives `Q`. -/
theorem exists_ends_with (I : σ → Prop) (Q : ρ → Prop) (μ : σ → ℕ)
    (hlast : ∀ s r, I s → body s = .inl r → Q r)
    (h : ∀ s t, I s → body s = .inr t → I t ∧ μ t < μ s) (hs : I s) :
    ∃ r, Ends body s r ∧ Q r := by
  obtain ⟨r, n, hn⟩ := exists_ends I μ h hs
  obtain ⟨t, hreach, hend⟩ := exists_last hn
  have ht : I t := by
    clear hend
    induction hreach with
    | refl => exact hs
    | tail _ hstep ih => exact (h _ _ ih hstep).1
  exact ⟨r, ⟨n, hn⟩, hlast t r ht hend⟩

end DoWhile
