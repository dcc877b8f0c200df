import Mathlib.Data.List.Nodup
import Mathlib.Data.Nat.Notation

/-!
# Linked lists

Cells at addresses, each with a link to the next one.  A list in memory is given by the addresses of
its cells: the first one and the links determine them (`IsList.unique`), so that they are distinct
(`IsList.nodup`), and the list stays while the links of its cells do (`IsList.congr`).
-/

/-- The link of the cell at each address, `some none` in a last cell and `none` where there is no
cell. -/
abbrev Links (ι : Type*) := ι → Option (Option ι)

namespace Links

variable {ι : Type*} {links links' : Links ι} {p q : Option ι} {a : ι} {l l' : List ι}

/-- From `p` the links lead through the cells of `l` and end there. -/
def IsList (links : Links ι) : Option ι → List ι → Prop
  | p, [] => p = none
  | p, a :: l => p = some a ∧ ∃ q, links a = some q ∧ IsList links q l

theorem isList_none_iff : IsList links none l ↔ l = [] := by
  cases l <;> simp [IsList]

theorem IsList.cons (hq : links a = some q) (h : IsList links q l) :
    IsList links (some a) (a :: l) := ⟨rfl, q, hq, h⟩

theorem isList_some_iff :
    IsList links (some a) l ↔ ∃ q t, l = a :: t ∧ links a = some q ∧ IsList links q t := by
  cases l with
  | nil => simp [IsList]
  | cons b t =>
      constructor
      · rintro ⟨hb, q, hq, ht⟩
        obtain rfl := Option.some.inj hb
        exact ⟨q, t, rfl, hq, ht⟩
      · rintro ⟨q, t', heq, hq, ht⟩
        obtain ⟨rfl, rfl⟩ := List.cons.inj heq
        exact .cons hq ht

/-- A list is determined by its first address. -/
theorem IsList.unique (h : IsList links p l) (h' : IsList links p l') : l = l' := by
  induction l generalizing p l' with
  | nil =>
      obtain rfl := h
      exact (isList_none_iff.1 h').symm
  | cons a l ih =>
      obtain ⟨rfl, q, hq, ht⟩ := h
      obtain ⟨q', t', rfl, hq', ht'⟩ := isList_some_iff.1 h'
      obtain rfl := Option.some.inj (hq.symm.trans hq')
      rw [ih ht ht']

/-- From each of its cells on, a list is a list. -/
theorem IsList.of_mem (h : IsList links p l) (ha : a ∈ l) :
    ∃ l₁ l₂, l = l₁ ++ a :: l₂ ∧ IsList links (some a) (a :: l₂) := by
  induction l generalizing p with
  | nil => cases ha
  | cons b l ih =>
      obtain ⟨rfl, q, hq, ht⟩ := h
      rcases List.mem_cons.1 ha with rfl | ha
      · exact ⟨[], l, rfl, .cons hq ht⟩
      · obtain ⟨l₁, l₂, rfl, hl⟩ := ih ht ha
        exact ⟨b :: l₁, l₂, rfl, hl⟩

/-- A list does not come back to a cell. -/
theorem IsList.nodup (h : IsList links p l) : l.Nodup := by
  induction l generalizing p with
  | nil => exact List.nodup_nil
  | cons a l ih =>
      obtain ⟨rfl, q, hq, ht⟩ := h
      refine List.nodup_cons.2 ⟨fun ha => ?_, ih ht⟩
      -- from `a` on there would be two lists
      obtain ⟨l₁, l₂, rfl, hl⟩ := ht.of_mem ha
      have heq := congrArg List.length ((IsList.cons hq ht).unique hl)
      simp at heq
      omega

theorem IsList.congr (h : IsList links p l) (heq : ∀ a ∈ l, links' a = links a) :
    IsList links' p l := by
  induction l generalizing p with
  | nil => exact h
  | cons a l ih =>
      obtain ⟨rfl, q, hq, ht⟩ := h
      obtain ⟨ha, hl⟩ := List.forall_mem_cons.1 heq
      exact .cons (ha.trans hq) (ih ht hl)

end Links
