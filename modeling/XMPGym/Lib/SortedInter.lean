import Mathlib.Data.Multiset.UnionInter
import Mathlib.Order.Defs.LinearOrder

/-!
# Intersection of sorted lists

Two lists are gone through side by side, and what both have is kept.  On sorted lists this is their
intersection as multisets (`coe_inter`), and as a sublist of the first one it is as sorted as that
(`inter_sublist`).
-/

namespace SortedInter

variable {α : Type*} [LinearOrder α]

/-- The elements that both lists have at their heads, as the smaller heads are dropped. -/
def inter : List α → List α → List α
  | x :: xs, y :: ys =>
      if x = y then x :: inter xs ys
      else if x < y then inter xs (y :: ys)
      else inter (x :: xs) ys
  | [], _ => []
  | _, [] => []
termination_by l m => l.length + m.length

variable {l m xs ys : List α} {x y : α}

@[simp] theorem nil_inter (m : List α) : inter [] m = [] := by
  unfold inter
  rfl

@[simp] theorem inter_nil (l : List α) : inter l [] = [] := by
  cases l <;> simp [inter]

theorem cons_inter_cons_self (x : α) (xs ys : List α) :
    inter (x :: xs) (x :: ys) = x :: inter xs ys := by
  rw [inter, if_pos rfl]

theorem cons_inter_cons_of_lt (h : x < y) : inter (x :: xs) (y :: ys) = inter xs (y :: ys) := by
  rw [inter, if_neg h.ne, if_pos h]

theorem cons_inter_cons_of_gt (h : y < x) : inter (x :: xs) (y :: ys) = inter (x :: xs) ys := by
  rw [inter, if_neg h.ne', if_neg h.not_gt]

theorem inter_sublist (l m : List α) : (inter l m).Sublist l := by
  fun_induction inter l m with
  | case1 xs y ys ih => exact ih.cons_cons y
  | case2 x xs y ys _ _ ih => exact ih.cons x
  | case3 x xs y ys _ _ ih => exact ih
  | case4 m => exact .slnil
  | case5 l => exact List.nil_sublist l

/-- What is below the head of a sorted list is not in it. -/
theorem notMem_of_lt (hs : (y :: ys).Pairwise (· ≤ ·)) (h : x < y) : x ∉ y :: ys := by
  rw [List.mem_cons, not_or]
  refine ⟨h.ne, fun hx => ?_⟩
  exact ((List.pairwise_cons.1 hs).1 x hx).not_gt h

theorem coe_inter (hl : l.Pairwise (· ≤ ·)) (hm : m.Pairwise (· ≤ ·)) :
    (inter l m : Multiset α) = (l : Multiset α) ∩ (m : Multiset α) := by
  fun_induction inter l m with
  | case1 xs y ys ih =>
      rw [← Multiset.cons_coe, ih hl.of_cons hm.of_cons, Multiset.cons_inter_distrib,
        Multiset.cons_coe, Multiset.cons_coe]
  | case2 x xs y ys _ hlt ih =>
      rw [ih hl.of_cons hm, ← Multiset.cons_coe x xs, Multiset.cons_inter_of_neg]
      exact notMem_of_lt hm hlt
  | case3 x xs y ys hne hlt ih =>
      rw [ih hl hm.of_cons, ← Multiset.cons_coe y ys, Multiset.inter_comm _ (y ::ₘ _),
        Multiset.cons_inter_of_neg, Multiset.inter_comm]
      exact notMem_of_lt hl (lt_of_le_of_ne (not_lt.1 hlt) (Ne.symm hne))
  | case4 m => exact (Multiset.zero_inter _).symm
  | case5 l => exact (Multiset.inter_zero _).symm

end SortedInter
