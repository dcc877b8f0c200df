import Mathlib.Data.List.ReduceOption
import Mathlib.Tactic.Abel
import XMPGym.RequestArgs

/-!
# The life of request arguments

What an allocator of request arguments gives the requests, and what is left of it when they have
been freed: `Lifecycle`.  There is one for each pair of an allocator and a free function that the
programs use together.
-/

open Ownership

namespace XMPGym.HeapUse

variable {v v' : Known Globals} {fs gone kept : List Field} {mallocs : List (Option Field)}
  {shared field : Field → Option ℕ} {T : Table} {a : Args} {N : ℕ}

/-- The block of the arguments and those that the fields `fs` point to. -/
def Args.blocks (fs : List Field) (a : Args) : Multiset ℕ := {a.block} + ↑(fs.filterMap a.field)

/-- The fields `fs` have been set. -/
def Args.Has (fs : List Field) (a : Args) : Prop := ∀ f ∈ fs, (a.field f).isSome

theorem length_filterMap (h : ∀ f ∈ fs, (field f).isSome) :
    (fs.filterMap field).length = fs.length := by
  induction fs with
  | nil => rfl
  | cons f fs ih =>
      obtain ⟨b, hb⟩ := Option.isSome_iff_exists.1 (h f List.mem_cons_self)
      rw [List.filterMap_cons_some hb, List.length_cons, List.length_cons,
        ih fun g hg => h g (List.mem_cons_of_mem _ hg)]

/-! ## Allocation -/

theorem runs_mallocField (dst : Option Field) :
    Runs (mallocField field dst) v fun field' v' => ∃ b,
      v' = { v with owned := {b} + v.owned } ∧
      field' = dst.elim field fun f => Function.update field f (some b) :=
  runs_malloc.bind fun b _ hv => .pure ⟨b, hv, by cases dst <;> rfl⟩

theorem runs_mallocFields (hnd : mallocs.reduceOption.Nodup) :
    Runs (mallocs.foldlM mallocField field) v fun field' v' =>
      v'.globals = v.globals ∧ (∀ f ∈ mallocs.reduceOption, (field' f).isSome) ∧
      (∀ f ∉ mallocs.reduceOption, field' f = field f) ∧
      ∃ L : Multiset ℕ, L.card = mallocs.count none ∧
        v'.owned = ↑(mallocs.reduceOption.filterMap field') + L + v.owned := by
  induction mallocs generalizing field v with
  | nil => exact .pure ⟨rfl, by simp, fun _ _ => rfl, 0, rfl, by simp⟩
  | cons o mallocs ih =>
      rw [List.foldlM_cons]
      refine (runs_mallocField o).bind ?_
      rintro _ _ ⟨b, rfl, rfl⟩
      cases o with
      | none =>
          rw [List.reduceOption_cons_of_none] at hnd ⊢
          refine (ih hnd).mono ?_
          rintro field' v' - ⟨hs, hset, hsame, L, hL, hown⟩
          refine ⟨hs, hset, hsame, {b} + L, ?_, ?_⟩
          · rw [Multiset.card_add, Multiset.card_singleton, hL, List.count_cons_self, add_comm]
          · rw [hown]
            dsimp only
            abel
      | some f =>
          rw [List.reduceOption_cons_of_some] at hnd ⊢
          obtain ⟨hf, hnd⟩ := List.nodup_cons.1 hnd
          refine (ih hnd).mono ?_
          rintro field' v' - ⟨hs, hset, hsame, L, hL, hown⟩
          -- later rounds leave the field alone
          have hfb : field' f = some b := (hsame f hf).trans (Function.update_self ..)
          refine ⟨hs, fun g hg => ?_, fun g hg => ?_, L, ?_, ?_⟩
          · obtain rfl | hg := List.mem_cons.1 hg
            · rw [hfb]
              rfl
            · exact hset g hg
          · obtain ⟨hne, hg⟩ := not_or.1 (mt List.mem_cons.2 hg)
            exact (hsame g hg).trans (Function.update_of_ne hne ..)
          · rw [hL, List.count_cons_of_ne (by simp)]
          · rw [hown, List.filterMap_cons_some hfb, ← Multiset.cons_coe, ← Multiset.singleton_add]
            dsimp only
            abel

/-- What an allocator has given `N` requests: the table `T` and the blocks `S`, `lost` of which for
each request nobody has the address of. -/
structure Given (mallocs : List (Option Field)) (shared : Field → Option ℕ) (N : ℕ) (T : Table)
    (S : Multiset ℕ) : Prop where
  length : T.args.length = N
  has : ∀ a ∈ T.args, a.Has mallocs.reduceOption
  shared : ∀ a ∈ T.args, ∀ f ∉ mallocs.reduceOption, a.field f = shared f
  blocks : ∃ L : Multiset ℕ, L.card = N * mallocs.count none ∧
    S = {T.block} + ((T.args.map (Args.blocks mallocs.reduceOption)).sum + L)

theorem runs_mallocArgs (hnd : mallocs.reduceOption.Nodup) :
    Runs (mallocArgs shared mallocs) v fun a v' =>
      v'.globals = v.globals ∧ a.Has mallocs.reduceOption ∧
      (∀ f ∉ mallocs.reduceOption, a.field f = shared f) ∧
      ∃ L : Multiset ℕ, L.card = mallocs.count none ∧
        v'.owned = a.blocks mallocs.reduceOption + L + v.owned := by
  refine runs_malloc.bind ?_
  rintro b _ rfl
  refine (runs_mallocFields hnd).bind ?_
  rintro field v' ⟨hs, hset, hsame, L, hL, hown⟩
  refine .pure ⟨hs, hset, hsame, L, hL, ?_⟩
  rw [hown, Args.blocks]
  dsimp only
  abel

/-- The rounds of an allocator, after the table. -/
theorem runs_collectArgs (hnd : mallocs.reduceOption.Nodup) (block : ℕ) (N : ℕ) :
    Runs (collect (mallocArgs shared mallocs) N) v fun as v' => v'.globals = v.globals ∧
      ∃ S, Given mallocs shared N ⟨block, as⟩ ({block} + S) ∧ v'.owned = S + v.owned := by
  have hrounds := Runs.collect (v := v) (p := mallocArgs shared mallocs)
    (I := fun as v' => v'.globals = v.globals ∧ (∀ a ∈ as, a.Has mallocs.reduceOption) ∧
      (∀ a ∈ as, ∀ f ∉ mallocs.reduceOption, a.field f = shared f) ∧
      ∃ L : Multiset ℕ, L.card = as.length * mallocs.count none ∧
        v'.owned = (as.map (Args.blocks mallocs.reduceOption)).sum + L + v.owned)
    ⟨rfl, by simp, by simp, 0, by simp, by simp⟩ ?_ N
  · refine hrounds.mono ?_
    rintro as v' - ⟨hlen, hs, hhas, hshared, L, hL, hown⟩
    exact ⟨hs, _, ⟨hlen, hhas, hshared, L, hlen ▸ hL, rfl⟩, hown⟩
  · rintro as v₁ ⟨hs, hhas, hshared, L, hL, hown⟩
    refine (runs_mallocArgs hnd).mono ?_
    rintro a v₂ - ⟨hs₂, hhas₂, hshared₂, L₂, hL₂, hown₂⟩
    refine ⟨hs₂.trans hs, fun c hc => ?_, fun c hc => ?_, L₂ + L, ?_, ?_⟩
    · obtain hc | hc := List.mem_append.1 hc
      · exact hhas c hc
      · exact List.mem_singleton.1 hc ▸ hhas₂
    · obtain hc | hc := List.mem_append.1 hc
      · exact hshared c hc
      · exact List.mem_singleton.1 hc ▸ hshared₂
    · rw [Multiset.card_add, hL, hL₂, List.length_append, List.length_singleton, Nat.succ_mul,
        add_comm]
    · rw [hown₂, hown, List.map_append, List.sum_append, List.map_singleton, List.sum_singleton]
      abel

/-- What the requests share has the blocks `E`. -/
theorem runs_allocArgs (hnd : mallocs.reduceOption.Nodup) {setUp : Prog Globals (Field → Option ℕ)}
    {Q : (Field → Option ℕ) → Globals → Multiset ℕ → Prop}
    (hset : ∀ v' : Known Globals, v'.globals = v.globals → Runs setUp v' fun shared v'' =>
      ∃ E, Q shared v''.globals E ∧ v''.owned = E + v'.owned) :
    Runs (allocArgs setUp mallocs N) v fun T v' => ∃ shared E S, Q shared v'.globals E ∧
      Given mallocs shared N T S ∧ v'.owned = S + E + v.owned := by
  refine runs_malloc.bind ?_
  rintro block _ rfl
  refine (hset { v with owned := {block} + v.owned } rfl).bind ?_
  rintro shared v₁ ⟨E, hQ, hown₁⟩
  refine (runs_collectArgs hnd block N).bind ?_
  rintro as v₂ ⟨hs, S, hS, hown₂⟩
  refine .pure ⟨shared, E, _, hs ▸ hQ, hS, ?_⟩
  rw [hown₂, hown₁]
  dsimp only
  abel

/-! ## Freeing -/

theorem runs_loadField {f : Field} {b : ℕ} (hb : a.field f = some b) (ha : a.block ∈ v.owned) :
    Runs (loadField a f) v fun c v' => c = b ∧ v' = v := by
  refine (runs_access ha).bind ?_
  rintro - v₀ h₀
  subst v₀
  rw [hb]
  exact .pure ⟨rfl, rfl⟩

/-- One round of a free function leaves what the fields `kept` point to. -/
theorem runs_freeRequest (hperm : fs.Perm (gone ++ kept)) (hhas : a.Has fs) {R : Multiset ℕ}
    (hT : T.block ∈ R) (hown : v.owned = a.blocks fs + R) :
    Runs (freeRequest gone T a) v fun _ v' => v'.globals = v.globals ∧
      ∃ K : Multiset ℕ, K.card = kept.length ∧ v'.owned = K + R := by
  have hkept : ∀ f ∈ kept, (a.field f).isSome := fun f hf =>
    hhas f (hperm.mem_iff.2 (List.mem_append_right _ hf))
  have hblocks : v.owned =
      {a.block} + (↑(gone.filterMap a.field) + (↑(kept.filterMap a.field) + R)) := by
    rw [hown, Args.blocks, Multiset.coe_eq_coe.2 (hperm.filterMap _), List.filterMap_append,
      ← Multiset.coe_add]
    abel
  refine (runs_access (by rw [hown]; exact Multiset.mem_add.2 (.inr hT))).bind ?_
  rintro - v₀ h₀
  subst v₀
  -- what the loop still has to free
  refine (Runs.forM (I := fun l v' => v'.globals = v.globals ∧ l ⊆ gone ∧
    v'.owned = {a.block} + (↑(l.filterMap a.field) + (↑(kept.filterMap a.field) + R)))
    ?_ ⟨rfl, List.Subset.refl _, hblocks⟩).bind ?_
  · rintro f l v₁ ⟨hs, hsub, hown₁⟩
    obtain ⟨b, hb⟩ := Option.isSome_iff_exists.1
      (hhas f (hperm.mem_iff.2 (List.mem_append_left _ (hsub List.mem_cons_self))))
    refine (runs_loadField hb (by rw [hown₁]; simp)).bind ?_
    rintro c v₀ ⟨hc, h₀⟩
    subst c v₀
    rw [List.filterMap_cons_some hb, ← Multiset.cons_coe, ← Multiset.singleton_add, add_assoc,
      add_left_comm] at hown₁
    refine (runs_free hown₁).mono ?_
    rintro - _ - rfl
    exact ⟨hs, (List.cons_subset.1 hsub).2, rfl⟩
  · rintro - v₁ ⟨hs, -, hown₁⟩
    refine (runs_free hown₁).mono ?_
    rintro - _ - rfl
    refine ⟨hs, _, ?_, by rw [List.filterMap_nil, Multiset.coe_nil, zero_add]⟩
    rw [Multiset.coe_card, length_filterMap hkept]

/-- The loop of a free function. -/
theorem runs_freeRequests (hperm : fs.Perm (gone ++ kept)) (hhas : ∀ a ∈ T.args, a.Has fs)
    {R : Multiset ℕ} (hT : T.block ∈ R)
    (hown : v.owned = (T.args.map (Args.blocks fs)).sum + R) :
    Runs (freeRequests gone T) v fun _ v' => v'.globals = v.globals ∧
      ∃ K : Multiset ℕ, K.card = T.args.length * kept.length ∧ v'.owned = K + R := by
  refine (Runs.forM (I := fun l v' => v'.globals = v.globals ∧ (∀ a ∈ l, a.Has fs) ∧
    ∃ K : Multiset ℕ, K.card + l.length * kept.length = T.args.length * kept.length ∧
      v'.owned = (l.map (Args.blocks fs)).sum + (K + R))
    ?_ ⟨rfl, hhas, 0, by simp, by rw [zero_add, hown]⟩).mono ?_
  · rintro a l v₁ ⟨hs, hhas, K, hK, hown₁⟩
    rw [List.map_cons, List.sum_cons, add_assoc] at hown₁
    refine (runs_freeRequest hperm (hhas a List.mem_cons_self)
      (Multiset.mem_add.2 (.inr (Multiset.mem_add.2 (.inr hT)))) hown₁).mono ?_
    rintro - v₂ - ⟨hs₂, K₂, hK₂, hown₂⟩
    refine ⟨hs₂.trans hs, fun c hc => hhas c (List.mem_cons_of_mem _ hc), K₂ + K, ?_, ?_⟩
    · rw [Multiset.card_add, hK₂, ← hK, List.length_cons, Nat.succ_mul]
      omega
    · rw [hown₂]
      abel
  · rintro - v₁ - ⟨hs, -, K, hK, hown₁⟩
    exact ⟨hs, K, by simpa using hK, by simpa using hown₁⟩

theorem Given.released {S R : Multiset ℕ} (h : Given mallocs shared N T S)
    (hperm : mallocs.reduceOption.Perm (gone ++ kept)) (hown : v.owned = S + R) :
    Runs (freeRequests gone T) v fun _ v' => v'.globals = v.globals ∧
      ∃ K : Multiset ℕ, K.card = N * (kept.length + mallocs.count none) ∧
        v'.owned = {T.block} + (K + R) := by
  obtain ⟨hlen, hhas, -, L, hL, rfl⟩ := h
  refine (runs_freeRequests (R := {T.block} + (L + R)) hperm hhas (by simp) ?_).mono ?_
  · rw [hown]
    abel
  · rintro - v' - ⟨hs, K, hK, hown'⟩
    refine ⟨hs, K + L, ?_, ?_⟩
    · rw [Multiset.card_add, hK, hL, hlen, Nat.mul_add]
    · rw [hown']
      abel

theorem Given.runs_freeArgs {S R : Multiset ℕ} (h : Given mallocs shared N T S)
    (hperm : mallocs.reduceOption.Perm (gone ++ kept)) (hown : v.owned = S + R) :
    Runs (freeArgs gone T) v fun _ v' => v'.globals = v.globals ∧
      ∃ K : Multiset ℕ, K.card = N * (kept.length + mallocs.count none) ∧ v'.owned = K + R := by
  refine (h.released hperm hown).bind ?_
  rintro - v₁ ⟨hs, K, hK, hown₁⟩
  refine (runs_free hown₁).mono ?_
  rintro - _ - rfl
  exact ⟨hs, K, hK, rfl⟩

/-! ## What requests may touch -/

/-- An access to a request below `N`, to one of the fields `fs`, or to one of the pointers `gs`. -/
def Access.Within (N : ℕ) (fs : List Field) (gs : List Global) : Access → Prop
  | .args i => i < N
  | .field i f => i < N ∧ f ∈ fs
  | .global g => g ∈ gs

instance (N : ℕ) (fs : List Field) (gs : List Global) (c : Access) : Decidable (c.Within N fs gs) :=
  match c with
  | .args i => inferInstanceAs (Decidable (i < N))
  | .field i f => inferInstanceAs (Decidable (i < N ∧ f ∈ fs))
  | .global g => inferInstanceAs (Decidable (g ∈ gs))

/-- The access is to one of the blocks `S`. -/
def Access.Reads (T : Table) (s : Globals) (S : Multiset ℕ) : Access → Prop
  | .args i => T.block ∈ S ∧ ∃ a, T.args[i]? = some a ∧ a.block ∈ S
  | .field i f => T.block ∈ S ∧
      ∃ a b, T.args[i]? = some a ∧ a.block ∈ S ∧ a.field f = some b ∧ b ∈ S
  | .global g => ∃ b, s g = some b ∧ b ∈ S

theorem Access.Reads.mono {s : Globals} {S S' : Multiset ℕ} {c : Access} (h : c.Reads T s S)
    (hle : S ≤ S') : c.Reads T s S' := by
  have hmem : ∀ b ∈ S, b ∈ S' := fun _ => Multiset.mem_of_le hle
  cases c with
  | args i =>
      obtain ⟨hT, a, ha, hb⟩ := h
      exact ⟨hmem _ hT, a, ha, hmem _ hb⟩
  | field i f =>
      obtain ⟨hT, a, b, ha, hab, hb, hbS⟩ := h
      exact ⟨hmem _ hT, a, b, ha, hmem _ hab, hb, hmem _ hbS⟩
  | global g =>
      obtain ⟨b, hb, hbS⟩ := h
      exact ⟨b, hb, hmem _ hbS⟩

theorem Access.Reads.runs {c : Access} (h : c.Reads T v.globals v.owned) :
    Runs (c.perform T) v fun _ v' => v' = v := by
  cases c with
  | args i =>
      obtain ⟨hT, a, ha, hb⟩ := h
      refine (runs_access hT).bind ?_
      rintro - v₀ h₀
      subst v₀
      rw [ha]
      exact runs_access hb
  | field i f =>
      obtain ⟨hT, a, b, ha, hab, hb, hbS⟩ := h
      refine (runs_access hT).bind ?_
      rintro - v₀ h₀
      subst v₀
      rw [ha]
      refine (runs_loadField hb hab).bind ?_
      rintro c v₀ ⟨hc, h₀⟩
      subst c v₀
      exact runs_access hbS
  | global g =>
      obtain ⟨b, hb, hbS⟩ := h
      refine runs_globals.bind ?_
      rintro s v₀ ⟨hs, h₀⟩
      subst v₀ s
      rw [hb]
      exact runs_access hbS

section reads

variable {s : Globals} {S : Multiset ℕ} {i : ℕ}

theorem Given.mem_block (h : Given mallocs shared N T S) : T.block ∈ S := by
  obtain ⟨-, -, -, L, -, rfl⟩ := h
  simp

theorem blocks_le_sum {l : List Args} (ha : a ∈ l) :
    a.blocks fs ≤ (l.map (Args.blocks fs)).sum := by
  obtain ⟨l₁, l₂, rfl⟩ := List.append_of_mem ha
  rw [List.map_append, List.map_cons, List.sum_append, List.sum_cons, add_left_comm]
  exact Multiset.le_add_right _ _

/-- The arguments of request `i` are there, with their blocks. -/
theorem Given.exists_args (h : Given mallocs shared N T S) (hi : i < N) :
    ∃ a ∈ T.args, T.args[i]? = some a ∧ a.blocks mallocs.reduceOption ≤ S := by
  obtain ⟨hlen, -, -, L, -, rfl⟩ := h
  have hi' : i < T.args.length := hlen ▸ hi
  have hmem : T.args[i] ∈ T.args := List.getElem_mem hi'
  refine ⟨_, hmem, List.getElem?_eq_getElem hi', ?_⟩
  calc Args.blocks mallocs.reduceOption T.args[i]
      ≤ (T.args.map (Args.blocks mallocs.reduceOption)).sum :=
        blocks_le_sum hmem
    _ ≤ (T.args.map (Args.blocks mallocs.reduceOption)).sum + L := Multiset.le_add_right _ _
    _ ≤ _ := Multiset.le_add_left _ _

theorem Given.reads_args (h : Given mallocs shared N T S) (hi : i < N) :
    (Access.args i).Reads T s S := by
  obtain ⟨a, -, ha, hle⟩ := h.exists_args hi
  exact ⟨h.mem_block, a, ha, Multiset.mem_of_le hle (by simp [Args.blocks])⟩

theorem Given.reads_field {f : Field} (h : Given mallocs shared N T S) (hi : i < N)
    (hf : f ∈ mallocs.reduceOption) : (Access.field i f).Reads T s S := by
  obtain ⟨a, hmem, ha, hle⟩ := h.exists_args hi
  obtain ⟨b, hb⟩ := Option.isSome_iff_exists.1 (h.has a hmem f hf)
  refine ⟨h.mem_block, a, b, ha, Multiset.mem_of_le hle (by simp [Args.blocks]), hb,
    Multiset.mem_of_le hle (Multiset.mem_add.2 (.inr ?_))⟩
  exact Multiset.mem_coe.2 (List.mem_filterMap.2 ⟨f, hf, hb⟩)

end reads

/-! ## Lifecycles -/

/-- The life of the arguments that `alloc` makes and `release` frees.  `pre` holds of the globals
between two lives, where the dead blocks matter to a pointer that dangles; other globals than those
in `changed` are left alone.  While they live the requests may read `fields` and `globals`, and
after it `leak` blocks for each request are left that nobody frees. -/
structure Lifecycle (pre : Globals → Set ℕ → Prop) (changed : Set Global)
    (alloc : ℕ → Prog Globals Table) (release : Table → Prog Globals Unit) where
  fields : List Field
  globals : List Global
  leak : ℕ
  Held : ℕ → Table → Globals → Multiset ℕ → Prop
  mono : ∀ {s : Globals} {D D' : Set ℕ}, D ⊆ D' → pre s D → pre s D'
  runs_alloc : ∀ {N : ℕ} {v : Known Globals}, pre v.globals v.dead →
    Runs (alloc N) v fun T v' => (∀ g ∉ changed, v'.globals g = v.globals g) ∧
      ∃ S, Held N T v'.globals S ∧ v'.owned = S + v.owned
  runs_release : ∀ {N : ℕ} {T : Table} {v : Known Globals} {S R : Multiset ℕ},
    Held N T v.globals S → v.owned = S + R →
    Runs (release T) v fun _ v' => pre v'.globals v'.dead ∧
      (∀ g ∉ changed, v'.globals g = v.globals g) ∧
      ∃ K : Multiset ℕ, K.card = N * leak ∧ v'.owned = K + R
  reads : ∀ {N : ℕ} {T : Table} {s : Globals} {S : Multiset ℕ} {c : Access},
    Held N T s S → c.Within N fields globals → c.Reads T s S

theorem runs_setGlobal (g : Global) (p : Option ℕ) :
    Runs (setGlobal g p) v fun _ v' => v' = { v with globals := Function.update v.globals g p } :=
  runs_setGlobals _

theorem runs_freeGlobal {g : Global} {b : ℕ} {R : Multiset ℕ} (hg : v.globals g = some b)
    (hown : v.owned = {b} + R) :
    Runs (freeGlobal g) v fun _ v' => v' = ⟨v.globals, R, insert b v.dead⟩ := by
  refine runs_globals.bind ?_
  rintro s v₀ ⟨hs, h₀⟩
  subst v₀ s
  rw [hg]
  exact runs_free hown

section lifecycles

variable (mallocs gone kept)

/-- Arguments that share nothing. -/
def Lifecycle.plain (hnd : mallocs.reduceOption.Nodup)
    (hperm : mallocs.reduceOption.Perm (gone ++ kept)) :
    Lifecycle (fun _ _ => True) ∅ (allocArgs (pure unset) mallocs) (freeArgs gone) where
  fields := mallocs.reduceOption
  globals := []
  leak := kept.length + mallocs.count none
  Held N T _ S := Given mallocs unset N T S
  mono _ h := h
  runs_alloc {N v} _ := by
    refine (runs_allocArgs (Q := fun shared s E => shared = unset ∧ s = v.globals ∧ E = 0) hnd
      fun v' hv => .pure ⟨0, ⟨rfl, hv, rfl⟩, (zero_add _).symm⟩).mono ?_
    rintro T v' - ⟨_, _, S, ⟨rfl, hs, rfl⟩, hS, hown⟩
    exact ⟨fun _ _ => by rw [hs], S, hS, by rw [hown, add_zero]⟩
  runs_release hS hown := by
    refine (hS.runs_freeArgs hperm hown).mono ?_
    rintro - v₁ - ⟨hs, hK⟩
    exact ⟨trivial, fun _ _ => by rw [hs], hK⟩
  reads {N T s S c} hS hc := by
    cases c with
    | args i => exact hS.reads_args hc
    | field i f => exact hS.reads_field hc.1 hc.2
    | global g => cases hc

/-- With the arguments `S` there is a block that the pointer `g` points to. -/
def HeldWith (g : Global) (shared : ℕ → Field → Option ℕ) (N : ℕ) (T : Table) (s : Globals)
    (S : Multiset ℕ) : Prop :=
  ∃ b S₀, s g = some b ∧ Given mallocs (shared b) N T S₀ ∧ S = {b} + S₀

variable {mallocs gone kept}

theorem HeldWith.reads {g : Global} {sh : ℕ → Field → Option ℕ} {s : Globals} {S : Multiset ℕ}
    {c : Access} (h : HeldWith mallocs g sh N T s S)
    (hc : c.Within N mallocs.reduceOption [g]) : c.Reads T s S := by
  obtain ⟨b, S₀, hg, hS, rfl⟩ := h
  cases c with
  | args i => exact (hS.reads_args hc).mono (Multiset.le_add_left _ _)
  | field i f => exact (hS.reads_field hc.1 hc.2).mono (Multiset.le_add_left _ _)
  | global g' =>
      obtain rfl := List.mem_singleton.1 hc
      exact ⟨b, hg, by simp⟩

/-! ### `glob_indir_arr` -/

/-- No index is drawn, or there is an entry to draw. -/
theorem runs_indirectArrayGen {inputSize numAccesses : ℕ}
    (hdraw : numAccesses = 0 ∨ 4 ≤ inputSize) :
    Runs (indirectArrayGen inputSize numAccesses) v fun b v' =>
      v' = ⟨Function.update v.globals .globIndirArr (some b), {b} + v.owned, v.dead⟩ := by
  have hent : ¬ (numAccesses ≠ 0 ∧ numFeatureEnt inputSize = 0) := by
    unfold numFeatureEnt
    omega
  rw [indirectArrayGen]
  simp only [hent, if_false]
  refine runs_malloc.bind ?_
  rintro b _ rfl
  refine (runs_setGlobal _ _).bind ?_
  rintro - _ rfl
  exact .pure rfl

section scatter

variable {inputSize numAccesses : ℕ} (hdraw : numAccesses = 0 ∨ 4 ≤ inputSize)
include hdraw

theorem runs_shareGlobIndirArr {f : Field} (hnull : v.globals .globIndirArr = none) :
    Runs (shareGlobIndirArr inputSize numAccesses f) v fun shared v' =>
      ∃ b, shared = Function.update unset f (some b) ∧
        v'.globals = Function.update v.globals .globIndirArr (some b) ∧
        v'.owned = {b} + v.owned := by
  have hgen : Runs (genGlobIndirArr inputSize numAccesses) v fun p v' => ∃ b, p = some b ∧
      v'.globals = Function.update v.globals .globIndirArr (some b) ∧
      v'.owned = {b} + v.owned := by
    refine runs_globals.bind ?_
    rintro s v₀ ⟨hs, h₀⟩
    subst v₀ s
    rw [hnull]
    refine (runs_indirectArrayGen hdraw).bind ?_
    rintro b _ rfl
    exact .pure ⟨b, rfl, rfl, rfl⟩
  refine hgen.bind ?_
  rintro _ v' ⟨b, rfl, hs, hown⟩
  exact .pure ⟨b, rfl, hs, hown⟩

end scatter

theorem runs_freeGlobIndirArr {b : ℕ} {R : Multiset ℕ} (hg : v.globals .globIndirArr = some b)
    (hown : v.owned = {b} + R) :
    Runs freeGlobIndirArr v fun _ v' =>
      v'.globals = Function.update v.globals .globIndirArr none ∧ v'.owned = R := by
  refine (runs_freeGlobal hg hown).bind ?_
  rintro - _ rfl
  refine (runs_setGlobal _ _).mono ?_
  rintro - _ - rfl
  exact ⟨rfl, rfl⟩

/-- `release` frees arguments `S` and the index array `b`. -/
def ReleasesIndir (mallocs : List (Option Field)) (leak : ℕ)
    (release : Table → Prog Globals Unit) : Prop :=
  ∀ {shared : Field → Option ℕ} {N : ℕ} {T : Table} {v : Known Globals} {b : ℕ} {S R : Multiset ℕ},
    Given mallocs shared N T S → v.globals .globIndirArr = some b → v.owned = {b} + S + R →
    Runs (release T) v fun _ v' =>
      v'.globals = Function.update v.globals .globIndirArr none ∧
      ∃ K : Multiset ℕ, K.card = N * leak ∧ v'.owned = K + R

variable (kept) in
/-- The index array is freed after the table. -/
theorem releasesIndir_after (hperm : mallocs.reduceOption.Perm (gone ++ kept)) :
    ReleasesIndir mallocs (kept.length + mallocs.count none) (fun T => do
      freeArgs gone T
      freeGlobIndirArr) := by
  intro shared N T v b S R hS hg hown
  rw [add_assoc, add_left_comm] at hown
  refine (hS.runs_freeArgs hperm hown).bind ?_
  rintro - v₁ ⟨hs, K, hK, hown₁⟩
  rw [add_left_comm] at hown₁
  refine (runs_freeGlobIndirArr (hs ▸ hg) hown₁).mono ?_
  rintro - v₂ - ⟨hs₂, hown₂⟩
  exact ⟨hs ▸ hs₂, K, hK, hown₂⟩

variable (kept) in
/-- The index array is freed before the table. -/
theorem releasesIndir_before (hperm : mallocs.reduceOption.Perm (gone ++ kept)) :
    ReleasesIndir mallocs (kept.length + mallocs.count none) (fun T => do
      freeRequests gone T
      freeGlobIndirArr
      free T.block) := by
  intro shared N T v b S R hS hg hown
  rw [add_assoc, add_left_comm] at hown
  refine (hS.released hperm hown).bind ?_
  rintro - v₁ ⟨hs, K, hK, hown₁⟩
  refine (runs_freeGlobIndirArr (R := {T.block} + (K + R)) (hs ▸ hg) ?_).bind ?_
  · rw [hown₁]
    abel
  · rintro - v₂ ⟨hs₂, hown₂⟩
    refine (runs_free hown₂).mono ?_
    rintro - _ - rfl
    exact ⟨hs ▸ hs₂, K, hK, rfl⟩

/-- The arguments of requests that all point to `glob_indir_arr`, with the field `f`. -/
def Lifecycle.indir {inputSize numAccesses : ℕ} (hdraw : numAccesses = 0 ∨ 4 ≤ inputSize)
    {f : Field} (hf : f ∉ mallocs.reduceOption)
    (hnd : mallocs.reduceOption.Nodup) {leak : ℕ} {release : Table → Prog Globals Unit}
    (hrelease : ReleasesIndir mallocs leak release) :
    Lifecycle (fun s _ => s .globIndirArr = none) {.globIndirArr}
      (allocArgs (shareGlobIndirArr inputSize numAccesses f) mallocs) release where
  fields := f :: mallocs.reduceOption
  globals := [.globIndirArr]
  leak := leak
  Held := HeldWith mallocs .globIndirArr fun b => Function.update unset f (some b)
  mono _ h := h
  runs_alloc {N v} hpre := by
    refine (runs_allocArgs (Q := fun shared s E => ∃ b, shared = Function.update unset f (some b) ∧
      s = Function.update v.globals .globIndirArr (some b) ∧ E = {b}) hnd fun v' hv => ?_).mono ?_
    · refine (runs_shareGlobIndirArr hdraw (hv ▸ hpre)).mono ?_
      rintro shared v₁ - ⟨b, hsh, hs, hown⟩
      exact ⟨{b}, ⟨b, hsh, hv ▸ hs, rfl⟩, hown⟩
    · rintro T v' - ⟨_, _, S, ⟨b, rfl, hs, rfl⟩, hS, hown⟩
      refine ⟨fun g hg => ?_, _, ⟨b, S, by rw [hs, Function.update_self], hS, rfl⟩, ?_⟩
      · rw [hs, Function.update_of_ne hg]
      · rw [hown, add_comm S]
  runs_release := by
    rintro N T v _ R ⟨b, S₀, hg, hS, rfl⟩ hown
    refine (hrelease hS hg hown).mono ?_
    rintro - v' - ⟨hs, hK⟩
    exact ⟨by rw [hs, Function.update_self], fun g hg => by rw [hs, Function.update_of_ne hg], hK⟩
  reads {N T s S c} hS hc := by
    cases c with
    | args i => exact hS.reads hc
    | global g => exact hS.reads hc
    | field i g =>
        obtain hg | hg := List.mem_cons.1 hc.2
        · subst g
          obtain ⟨b, S₀, hg, hS, rfl⟩ := hS
          obtain ⟨a, hmem, ha, hle⟩ := hS.exists_args hc.1
          refine ⟨by simp [hS.mem_block], a, b, ha, ?_, ?_, by simp⟩
          · exact Multiset.mem_add.2 (.inr (Multiset.mem_of_le hle (by simp [Args.blocks])))
          · exact (hS.shared a hmem f hf).trans (Function.update_self ..)
        · exact hS.reads ⟨hc.1, hg⟩

/-! ### `item_buf` -/

/-- `item_buf` is `NULL` or dangles. -/
def NoItem (s : Globals) (dead : Set ℕ) : Prop := ∀ b, s .itemBuf = some b → b ∈ dead

theorem runs_populateItemBuf :
    Runs populateItemBuf v fun _ v' => ∃ b,
      v'.globals = Function.update v.globals .itemBuf (some b) ∧ v'.owned = {b} + v.owned := by
  refine runs_malloc.bind ?_
  rintro b _ rfl
  refine (runs_setGlobal _ _).mono ?_
  rintro - _ - rfl
  exact ⟨b, rfl, rfl⟩

theorem HeldWith.released_item {S R : Multiset ℕ}
    (h : HeldWith mallocs .itemBuf (fun _ => unset) N T v.globals S)
    (hperm : mallocs.reduceOption.Perm (gone ++ kept)) (hown : v.owned = S + R) :
    Runs (do freeArgs gone T; freeGlobal .itemBuf) v fun _ v' => NoItem v'.globals v'.dead ∧
      v'.globals = v.globals ∧
      ∃ K : Multiset ℕ, K.card = N * (kept.length + mallocs.count none) ∧ v'.owned = K + R := by
  obtain ⟨b, S, hg, hS, rfl⟩ := h
  rw [add_assoc, add_left_comm] at hown
  refine (hS.runs_freeArgs hperm hown).bind ?_
  rintro - v₁ ⟨hs, K, hK, hown₁⟩
  rw [add_left_comm] at hown₁
  refine (runs_freeGlobal (hs ▸ hg) hown₁).mono ?_
  rintro - _ - rfl
  refine ⟨fun c hc => ?_, hs, K, hK, rfl⟩
  obtain rfl := Option.some.inj (hc.symm.trans (hs ▸ hg))
  exact Set.mem_insert _ _

variable (kept) in
/-- The arguments of requests that use `item_buf`, where `alloc` populates it. -/
def Lifecycle.item (hperm : mallocs.reduceOption.Perm (gone ++ kept))
    {alloc : ℕ → Prog Globals Table}
    (halloc : ∀ {N : ℕ} {v : Known Globals}, Runs (alloc N) v fun T v' => ∃ b S,
      v'.globals = Function.update v.globals .itemBuf (some b) ∧ Given mallocs unset N T S ∧
        v'.owned = {b} + S + v.owned) :
    Lifecycle NoItem {.itemBuf} alloc (fun T => do freeArgs gone T; freeGlobal .itemBuf) where
  fields := mallocs.reduceOption
  globals := [.itemBuf]
  leak := kept.length + mallocs.count none
  Held := HeldWith mallocs .itemBuf fun _ => unset
  mono hD h b hb := hD (h b hb)
  runs_alloc _ := by
    refine halloc.mono ?_
    rintro T v' - ⟨b, S, hs, hS, hown⟩
    refine ⟨fun g hg => ?_, _, ⟨b, S, by rw [hs, Function.update_self], hS, rfl⟩, hown⟩
    rw [hs, Function.update_of_ne hg]
  runs_release hS hown := by
    refine (hS.released_item hperm hown).mono ?_
    rintro - v' - ⟨hno, hs, hK⟩
    exact ⟨hno, fun g _ => by rw [hs], hK⟩
  reads hS hc := hS.reads hc

/-- `alloc_cpu_memcpy_and_compute_args` populates `item_buf` first. -/
theorem runs_allocCpuMemcpyAndComputeArgs :
    Runs (allocCpuMemcpyAndComputeArgs N) v fun T v' => ∃ b S,
      v'.globals = Function.update v.globals .itemBuf (some b) ∧
      Given [some (.input 0), some (.input 1), some (.input 2)] unset N T S ∧
        v'.owned = {b} + S + v.owned := by
  refine runs_populateItemBuf.bind ?_
  rintro - v₁ ⟨b, hs, hown⟩
  refine (runs_allocArgs (Q := fun sh s E => sh = unset ∧ s = v₁.globals ∧ E = 0) (by decide)
    fun v' hv => .pure ⟨0, ⟨rfl, hv, rfl⟩, (zero_add _).symm⟩).mono ?_
  rintro T v' - ⟨_, _, S, ⟨rfl, hs', rfl⟩, hS, hown'⟩
  exact ⟨b, S, hs' ▸ hs, hS, by rw [hown', hown]; abel⟩

/-- The allocator with stamps populates it after the table. -/
theorem runs_allocOffloadMemcpyAndComputeArgsTimed :
    Runs (allocOffloadMemcpyAndComputeArgsTimed N) v fun T v' => ∃ b S,
      v'.globals = Function.update v.globals .itemBuf (some b) ∧
      Given [some .srcPayload, some .dstPayload, some .desc] unset N T S ∧
        v'.owned = {b} + S + v.owned := by
  refine (runs_allocArgs (Q := fun sh s E => sh = unset ∧
    ∃ b, s = Function.update v.globals .itemBuf (some b) ∧ E = {b}) (by decide)
    fun v' hv => ?_).mono ?_
  · refine runs_populateItemBuf.bind ?_
    rintro - v₁ ⟨b, hs, hown⟩
    exact .pure ⟨{b}, ⟨rfl, b, hv ▸ hs, rfl⟩, hown⟩
  · rintro T v' - ⟨_, _, S, ⟨rfl, b, hs, rfl⟩, hS, hown⟩
    exact ⟨b, S, hs, hS, by rw [hown, add_comm S]⟩

/-- A pointer that is not changed stays `NULL`. -/
def Lifecycle.null {pre : Globals → Set ℕ → Prop} {changed : Set Global}
    {alloc : ℕ → Prog Globals Table} {release : Table → Prog Globals Unit}
    (L : Lifecycle pre changed alloc release) {g : Global} (hg : g ∉ changed) :
    Lifecycle (fun s D => pre s D ∧ s g = none) changed alloc release where
  fields := L.fields
  globals := L.globals
  leak := L.leak
  Held N T s S := L.Held N T s S ∧ s g = none
  mono hD h := ⟨L.mono hD h.1, h.2⟩
  runs_alloc hpre := by
    refine (L.runs_alloc hpre.1).mono ?_
    rintro T v' - ⟨hs, S, hS, hown⟩
    exact ⟨hs, S, ⟨hS, (hs g hg).trans hpre.2⟩, hown⟩
  runs_release hS hown := by
    refine (L.runs_release hS.1 hown).mono ?_
    rintro - v' - ⟨hpre, hs, hK⟩
    exact ⟨⟨hpre, (hs g hg).trans hS.2⟩, hs, hK⟩
  reads hS hc := L.reads hS.1 hc

end lifecycles

/-! ## Faults -/

theorem checks_perform (T : Table) (c : Access) : Checks (c.perform T) := by
  cases c with
  | args i =>
      refine (checks_access _).bind fun _ => ?_
      cases T.args[i]? with
      | none => exact checks_fault
      | some a => exact checks_access _
  | field i f =>
      refine (checks_access _).bind fun _ => ?_
      cases T.args[i]? with
      | none => exact checks_fault
      | some a =>
          refine Checks.bind ((checks_access _).bind fun _ => ?_) fun b => checks_access b
          cases a.field f with
          | none => exact checks_fault
          | some b => exact checks_pure b
  | global g =>
      refine checks_globals.bind fun s => ?_
      cases s g with
      | none => exact checks_fault
      | some b => exact checks_access b

/-- An access through a pointer that is `NULL` or dangles. -/
theorem faults_global {g : Global} (h : ∀ b, v.globals g = some b → b ∈ v.dead) :
    Faults (Access.perform T (.global g)) v := by
  refine runs_globals.faults ?_
  rintro s v₀ - ⟨hs, h₀⟩
  subst v₀ s
  cases hg : v.globals g with
  | none => exact faults_fault
  | some b => exact faults_access (h b hg)

end XMPGym.HeapUse
