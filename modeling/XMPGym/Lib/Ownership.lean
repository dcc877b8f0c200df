import Mathlib.Algebra.Order.Group.Multiset
import Mathlib.Data.Multiset.Filter
import Mathlib.Data.Set.Insert

/-!
# Ownership of heap blocks

Programs over a heap that hands out fresh blocks and takes them back.  To touch or free a block that
is not live is a fault.  `Runs p v Q` says what `p` does to the part of the heap that it knows,
whatever else is live; `Faults p v` that it touches a dead block.
-/

namespace Ownership

/-- The live blocks, none twice, and the first block that has not been handed out. -/
structure Blocks where
  live : Multiset ℕ
  next : ℕ
  nodup : live.Nodup
  lt_next : ∀ b ∈ live, b < next

namespace Blocks

/-- No block has been handed out. -/
def empty : Blocks := ⟨0, 0, Multiset.nodup_zero, fun _ h => absurd h (Multiset.notMem_zero _)⟩

/-- The next block becomes live. -/
def malloc (h : Blocks) : Blocks where
  live := h.next ::ₘ h.live
  next := h.next + 1
  nodup := Multiset.nodup_cons.2 ⟨fun hb => (h.lt_next _ hb).false, h.nodup⟩
  lt_next b hb := by
    obtain rfl | hb := Multiset.mem_cons.1 hb
    · exact Nat.lt_succ_self _
    · exact (h.lt_next b hb).trans (Nat.lt_succ_self _)

/-- The block `b` is live no longer. -/
def free (h : Blocks) (b : ℕ) : Blocks where
  live := h.live.erase b
  next := h.next
  nodup := h.nodup.erase b
  lt_next c hc := h.lt_next c (Multiset.mem_of_mem_erase hc)

@[simp] theorem live_malloc (h : Blocks) : h.malloc.live = h.next ::ₘ h.live := rfl

@[simp] theorem live_free (h : Blocks) (b : ℕ) : (h.free b).live = h.live.erase b := rfl

/-- `b` has been handed out and is live no longer. -/
def Dead (h : Blocks) (b : ℕ) : Prop := b < h.next ∧ b ∉ h.live

end Blocks

/-- A program with globals `σ` on a heap; `none` is a fault. -/
abbrev Prog (σ : Type) := StateT (σ × Blocks) Option

section programs

variable {σ α : Type}

def fault : Prog σ α := fun _ => none

def malloc : Prog σ ℕ := fun (s, h) => some (h.next, s, h.malloc)

def free (b : ℕ) : Prog σ Unit := fun (s, h) => if b ∈ h.live then some ((), s, h.free b) else none

/-- A read or a write of the block `b`. -/
def access (b : ℕ) : Prog σ Unit := fun (s, h) => if b ∈ h.live then some ((), s, h) else none

def globals : Prog σ σ := fun (s, h) => some (s, s, h)

def setGlobals (f : σ → σ) : Prog σ Unit := fun (s, h) => some ((), f s, h)

/-- The results of `n` runs of `p`. -/
def collect (p : Prog σ α) : ℕ → Prog σ (List α)
  | 0 => pure []
  | n + 1 => do
    let as ← collect p n
    let a ← p
    pure (as ++ [a])

end programs

/-- What a program knows: the globals, the blocks it owns, and blocks that are dead. -/
structure Known (σ : Type) where
  globals : σ
  owned : Multiset ℕ
  dead : Set ℕ

variable {σ α β : Type} {v v' : Known σ} {b : ℕ}

/-- The view `v` of the heap `h`, where others own the blocks `F`. -/
structure Known.Of (v : Known σ) (h : Blocks) (F : Multiset ℕ) : Prop where
  live : h.live = v.owned + F
  dead : ∀ b ∈ v.dead, h.Dead b

theorem Known.Of.mem {h : Blocks} {F : Multiset ℕ} (hv : v.Of h F) (hb : b ∈ v.owned) :
    b ∈ h.live :=
  hv.live ▸ Multiset.mem_add.2 (.inl hb)

/-- `p` does not fault, and its result and the view after it are in `Q`, whatever others own. -/
def Runs (p : Prog σ α) (v : Known σ) (Q : α → Known σ → Prop) : Prop :=
  ∀ h F, v.Of h F →
    ∃ a v' h', p (v.globals, h) = some (a, v'.globals, h') ∧ v'.Of h' F ∧ v.dead ⊆ v'.dead ∧ Q a v'

/-- `p` faults, whatever others own. -/
def Faults (p : Prog σ α) (v : Known σ) : Prop := ∀ h F, v.Of h F → p (v.globals, h) = none

/-! ## Rules for programs that do not fault -/

section rules

variable {p : Prog σ α} {f : α → Prog σ β} {Q R : α → Known σ → Prop} {P : β → Known σ → Prop}

theorem Runs.pure {a : α} (hQ : Q a v) : Runs (pure a) v Q :=
  fun h _ hv => ⟨a, v, h, rfl, hv, subset_rfl, hQ⟩

theorem Runs.mono (hp : Runs p v Q) (hQ : ∀ a v', v.dead ⊆ v'.dead → Q a v' → R a v') :
    Runs p v R := by
  intro h F hv
  obtain ⟨a, v', h', hrun, hv', hdead, hq⟩ := hp h F hv
  exact ⟨a, v', h', hrun, hv', hdead, hQ a v' hdead hq⟩

theorem Runs.bind (hp : Runs p v Q) (hf : ∀ a v', Q a v' → Runs (f a) v' P) :
    Runs (p >>= f) v P := by
  intro h F hv
  obtain ⟨a, v₁, h₁, hrun, hv₁, hdead₁, hq⟩ := hp h F hv
  obtain ⟨c, v₂, h₂, hrun₂, hv₂, hdead₂, hP⟩ := hf a v₁ hq h₁ F hv₁
  refine ⟨c, v₂, h₂, ?_, hv₂, hdead₁.trans hdead₂, hP⟩
  change (p (v.globals, h)).bind (fun x => f x.1 x.2) = _
  rw [hrun]
  exact hrun₂

theorem runs_malloc : Runs malloc v fun b v' => v' = { v with owned := {b} + v.owned } := by
  intro h F hv
  refine ⟨h.next, { v with owned := {h.next} + v.owned }, h.malloc, rfl, ⟨?_, fun b hb => ?_⟩,
    subset_rfl, rfl⟩
  · rw [Blocks.live_malloc, hv.live, add_assoc, Multiset.singleton_add]
  · obtain ⟨hlt, hnot⟩ := hv.dead b hb
    refine ⟨hlt.trans (Nat.lt_succ_self _), fun hmem => ?_⟩
    obtain rfl | hmem := Multiset.mem_cons.1 hmem
    · exact hlt.false
    · exact hnot hmem

theorem runs_free {S : Multiset ℕ} (hown : v.owned = {b} + S) :
    Runs (free b) v fun _ v' => v' = ⟨v.globals, S, insert b v.dead⟩ := by
  intro h F hv
  have hb : b ∈ v.owned := by rw [hown, Multiset.singleton_add]; exact Multiset.mem_cons_self b S
  refine ⟨(), ⟨v.globals, S, insert b v.dead⟩, h.free b, if_pos (hv.mem hb), ⟨?_, fun c hc => ?_⟩,
    Set.subset_insert _ _, rfl⟩
  · rw [Blocks.live_free, hv.live, hown, add_assoc, Multiset.singleton_add,
      Multiset.erase_cons_head]
  · obtain rfl | hc := hc
    · exact ⟨h.lt_next c (hv.mem hb), h.nodup.notMem_erase⟩
    · exact ⟨(hv.dead c hc).1, fun hmem => (hv.dead c hc).2 (Multiset.mem_of_mem_erase hmem)⟩

theorem runs_access (hb : b ∈ v.owned) : Runs (access b) v fun _ v' => v' = v :=
  fun h _ hv => ⟨(), v, h, if_pos (hv.mem hb), hv, subset_rfl, rfl⟩

theorem runs_globals : Runs globals v fun s v' => s = v.globals ∧ v' = v :=
  fun h _ hv => ⟨v.globals, v, h, rfl, hv, subset_rfl, rfl, rfl⟩

theorem runs_setGlobals (f : σ → σ) :
    Runs (setGlobals f) v fun _ v' => v' = { v with globals := f v.globals } :=
  fun h _ hv =>
    ⟨(), { v with globals := f v.globals }, h, rfl, ⟨hv.live, hv.dead⟩, subset_rfl, rfl⟩

/-- `I` is about the results so far. -/
theorem Runs.collect {I : List α → Known σ → Prop} (hstart : I [] v)
    (hp : ∀ as v, I as v → Runs p v fun a v' => I (as ++ [a]) v') (n : ℕ) :
    Runs (collect p n) v fun as v' => as.length = n ∧ I as v' := by
  induction n with
  | zero => exact .pure ⟨rfl, hstart⟩
  | succ n ih =>
      refine ih.bind fun as v₁ h₁ => (hp as v₁ h₁.2).bind fun a v₂ h₂ => .pure ⟨?_, h₂⟩
      rw [List.length_append, h₁.1, List.length_singleton]

/-- `I` is about what is left of the list. -/
theorem Runs.forM {g : α → Prog σ Unit} {I : List α → Known σ → Prop}
    (hg : ∀ a l v, I (a :: l) v → Runs (g a) v fun _ v' => I l v') {l : List α} (hstart : I l v) :
    Runs (l.forM g) v fun _ v' => I [] v' := by
  induction l generalizing v with
  | nil => exact .pure hstart
  | cons a l ih =>
      exact (hg a l v hstart).bind fun _ v₁ h₁ => ih h₁

/-- From a heap where the program owns nothing, whatever is live there. -/
theorem Runs.run {s : σ} (hp : Runs p ⟨s, 0, ∅⟩ Q) (h : Blocks) :
    ∃ a v' h', p (s, h) = some (a, v'.globals, h') ∧ h'.live = v'.owned + h.live ∧ Q a v' := by
  obtain ⟨a, v', h', hrun, hv', -, hQ⟩ := hp h h.live ⟨(zero_add _).symm, fun _ hb => hb.elim⟩
  exact ⟨a, v', h', hrun, hv'.live, hQ⟩

end rules

/-! ## Programs that leave blocks behind -/

/-- `p` keeps `I` and leaves `n` more blocks than it finds. -/
def Leaves (I : Known σ → Prop) (p : Prog σ α) (n : ℕ) : Prop :=
  ∀ v, I v → Runs p v fun _ v' => I v' ∧ ∃ K : Multiset ℕ, K.card = n ∧ v'.owned = K + v.owned

section leaves

variable {I : Known σ → Prop} {p : Prog σ α} {m n : ℕ}

theorem Leaves.pure (a : α) : Leaves I (pure a) 0 :=
  fun _ hv => .pure ⟨hv, 0, rfl, (zero_add _).symm⟩

theorem Leaves.of_eq (hp : Leaves I p m) (h : m = n) : Leaves I p n := h ▸ hp

theorem Leaves.bind {f : α → Prog σ β} (hp : Leaves I p m) (hf : ∀ a, Leaves I (f a) n) :
    Leaves I (p >>= f) (m + n) := by
  intro v hv
  refine (hp v hv).bind ?_
  rintro a v₁ ⟨hv₁, K₁, hK₁, hown₁⟩
  refine (hf a v₁ hv₁).mono ?_
  rintro c v₂ - ⟨hv₂, K₂, hK₂, hown₂⟩
  refine ⟨hv₂, K₂ + K₁, ?_, by rw [hown₂, hown₁, add_assoc]⟩
  rw [Multiset.card_add, hK₁, hK₂, add_comm]

theorem Leaves.forM {g : α → Prog σ Unit} {l : List α} (hg : ∀ a ∈ l, Leaves I (g a) n) :
    Leaves I (l.forM g) (l.length * n) := by
  induction l with
  | nil => exact (Nat.zero_mul n).symm ▸ .pure ()
  | cons a l ih =>
      rw [List.length_cons, Nat.succ_mul, add_comm]
      exact (hg a List.mem_cons_self).bind fun _ => ih fun b hb => hg b (List.mem_cons_of_mem _ hb)

end leaves

/-! ## Rules for faults -/

section faults

variable {p : Prog σ α} {f : α → Prog σ β} {Q : α → Known σ → Prop}

theorem Faults.run {s : σ} (hp : Faults p ⟨s, 0, ∅⟩) (h : Blocks) : p (s, h) = none :=
  hp h h.live ⟨(zero_add _).symm, fun _ hb => hb.elim⟩

theorem faults_fault : Faults (fault : Prog σ α) v := fun _ _ _ => rfl

theorem faults_access (hb : b ∈ v.dead) : Faults (access b) v :=
  fun _ _ hv => if_neg (hv.dead b hb).2

theorem Faults.bind (hp : Faults p v) : Faults (p >>= f) v := by
  intro h F hv
  change (p (v.globals, h)).bind (fun x => f x.1 x.2) = _
  rw [hp h F hv]
  rfl

theorem Runs.faults (hp : Runs p v Q) (hf : ∀ a v', v.dead ⊆ v'.dead → Q a v' → Faults (f a) v') :
    Faults (p >>= f) v := by
  intro h F hv
  obtain ⟨a, v', h', hrun, hv', hdead, hq⟩ := hp h F hv
  change (p (v.globals, h)).bind (fun x => f x.1 x.2) = _
  rw [hrun]
  exact hf a v' hdead hq h' F hv'

/-- `p` faults or changes nothing. -/
def Checks (p : Prog σ α) : Prop := ∀ s, p s = none ∨ ∃ a, p s = some (a, s)

theorem checks_fault : Checks (fault : Prog σ α) := fun _ => .inl rfl

theorem checks_pure (a : α) : Checks (pure a : Prog σ α) := fun _ => .inr ⟨a, rfl⟩

theorem checks_globals : Checks (globals : Prog σ σ) := fun (s, _) => .inr ⟨s, rfl⟩

theorem checks_access (b : ℕ) : Checks (access b : Prog σ Unit) := by
  rintro ⟨s, h⟩
  by_cases hb : b ∈ h.live
  · exact .inr ⟨(), if_pos hb⟩
  · exact .inl (if_neg hb)

theorem Checks.bind (hp : Checks p) (hf : ∀ a, Checks (f a)) : Checks (p >>= f) := by
  intro s
  change (p s).bind (fun x => f x.1 x.2) = none ∨ ∃ a, (p s).bind (fun x => f x.1 x.2) = some (a, s)
  obtain hp | ⟨a, hp⟩ := hp s
  · exact .inl (by rw [hp]; rfl)
  · rw [hp]
    exact hf a s

/-- A list of checks faults if one of them does. -/
theorem Faults.forM {g : α → Prog σ Unit} (hg : ∀ a, Checks (g a)) {l : List α} {a : α}
    (ha : a ∈ l) (hf : Faults (g a) v) : Faults (l.forM g) v := by
  intro h F hv
  induction l with
  | nil => cases ha
  | cons c l ih =>
      change (g c (v.globals, h)).bind (fun x => l.forM g x.2) = none
      obtain hc | ⟨u, hc⟩ := hg c (v.globals, h)
      · rw [hc]
        rfl
      · rw [hc]
        obtain rfl | ha := List.mem_cons.1 ha
        · cases (hf h F hv).symm.trans hc
        · exact ih ha

/-- After a program that keeps `I` there is one that faults wherever `I` holds. -/
theorem Leaves.faults {I : Known σ → Prop} {n : ℕ} (hp : Leaves I p n)
    (hf : ∀ a v, I v → Faults (f a) v) (hv : I v) : Faults (p >>= f) v :=
  (hp v hv).faults fun a v' _ h => hf a v' h.1

/-- A loop whose rounds keep `I` or fault, where one of them faults. -/
theorem faults_loop {I : Known σ → Prop} {n : ℕ} {g : α → Prog σ Unit} {l : List α}
    (hg : ∀ a ∈ l, Leaves I (g a) n ∨ ∀ v, I v → Faults (g a) v) {a : α} (ha : a ∈ l)
    (hf : ∀ v, I v → Faults (g a) v) (hv : I v) : Faults (l.forM g) v := by
  induction l generalizing v with
  | nil => cases ha
  | cons c l ih =>
      obtain hc | hc := hg c List.mem_cons_self
      · obtain rfl | ha := List.mem_cons.1 ha
        · exact (hf v hv).bind
        · exact hc.faults (fun _ v₁ hv₁ => ih (fun b hb => hg b (List.mem_cons_of_mem _ hb)) ha hv₁)
            hv
      · exact (hc v hv).bind

end faults

end Ownership
