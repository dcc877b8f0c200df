import Mathlib.Data.List.Range
import XMPGym.Lib.DoWhile
import XMPGym.Lib.Links

/-!
# Posting lists

`build_llc_ll`, `build_host_ll`, `free_ll` and `allocate_posting_lists` (`src/posting_list.cpp`)
with `dsa_llc_realloc` (`src/dsa_alloc.cpp`), on a heap of nodes.  `build_llc_ll` fills in one node
after the other in a scratch node and has it copied by the accelerator, whose jobs may fail; a job
that fails leaves anything in the destination.

A node that is handed out may have any contents.  The jobs of the accelerator are not kept in the
heap, and `dsa_llc_realloc` copies whole nodes, as its calls here do.
-/

namespace XMPGym

/-! ## Nodes -/

/-- `node` -/
structure Node where
  docID : ℤ
  next : Option ℕ
  padding : Vector UInt8 40
  deriving DecidableEq, Repr

/-- The nodes that are allocated.  Addresses from `fresh` on have not been handed out yet. -/
structure NodeHeap where
  node : ℕ → Option Node
  fresh : ℕ
  unused : ∀ a, fresh ≤ a → node a = none

namespace NodeHeap

/-- `malloc(sizeof(node))`, with what is found there. -/
def malloc (garbage : ℕ → Node) (h : NodeHeap) : ℕ × NodeHeap :=
  (h.fresh,
    { node := Function.update h.node h.fresh (some (garbage h.fresh))
      fresh := h.fresh + 1
      unused := fun a ha => by
        rw [Function.update_of_ne (by omega)]
        exact h.unused a (by omega) })

/-- A node is changed, if it is there. -/
def modify (a : ℕ) (f : Node → Node) (h : NodeHeap) : NodeHeap where
  node := Function.update h.node a ((h.node a).map f)
  fresh := h.fresh
  unused x hx := by
    by_cases hxa : x = a
    · rw [hxa, Function.update_self, h.unused a (hxa ▸ hx)]
      rfl
    · rw [Function.update_of_ne hxa, h.unused x hx]

/-- `free(a)` -/
def free (a : ℕ) (h : NodeHeap) : NodeHeap where
  node := Function.update h.node a none
  fresh := h.fresh
  unused x hx := by
    by_cases hxa : x = a
    · rw [hxa, Function.update_self]
    · rw [Function.update_of_ne hxa, h.unused x hx]

/-- The bytes of one node go to another one. -/
def copy (dst src : ℕ) (h : NodeHeap) : NodeHeap :=
  match h.node src with
  | some n => h.modify dst fun _ => n
  | none => h

/-- The links between the nodes. -/
def links (h : NodeHeap) : Links ℕ := fun a => (h.node a).map Node.next

/-- The `docID` of a node. -/
def docID (h : NodeHeap) (a : ℕ) : ℤ := (h.node a).elim 0 Node.docID

end NodeHeap

/-! ## Lists on the host -/

section host

variable (garbage : ℕ → Node)

/-- The loop of `build_host_ll`, for `n` rounds from `i` on. -/
def buildHostLoop : ℕ → ℕ → ℕ → NodeHeap → ℕ × NodeHeap
  | 0, _, cur, h => (cur, h)
  | n + 1, i, cur, h =>
      let h := h.modify cur fun x => { x with docID := i }
      let (next, h) := h.malloc garbage
      let h := h.modify cur fun x => { x with next := some next }
      buildHostLoop n (i + 1) next h

/-- `build_host_ll` -/
def buildHostLl (length : ℤ) (h : NodeHeap) : ℕ × NodeHeap :=
  let (head, h) := h.malloc garbage
  let (cur, h) := buildHostLoop garbage (length - 1).toNat 0 head h
  let h := h.modify cur fun x => { x with docID := length - 1 }
  let h := h.modify cur fun x => { x with next := none }
  (head, h)

/-- `allocate_posting_lists`: `heads i j` is list `j` of request `i`. -/
def allocatePostingLists (plLen : ℤ) : ℕ → (ℕ → ℕ → ℕ) → NodeHeap → (ℕ → ℕ → ℕ) × NodeHeap
  | 0, heads, h => (heads, h)
  | n + 1, heads, h =>
      let (heads, h) := allocatePostingLists plLen n heads h
      let (head0, h) := buildHostLl garbage plLen h
      let (head1, h) := buildHostLl garbage plLen h
      let (head2, h) := buildHostLl garbage plLen h
      (Function.update heads n fun j => if j = 0 then head0 else if j = 1 then head1 else head2, h)

end host

/-- The state of the loop of `free_ll`, and the nodes that it has freed. -/
structure FreeState where
  cur : Option ℕ
  heap : NodeHeap
  freed : List ℕ

/-- A round of `free_ll`; `none` when there is no node at `cur`. -/
def freeRound (s : FreeState) : Option FreeState ⊕ FreeState :=
  match s.cur with
  | none => .inl (some s)
  | some a =>
      match s.heap.node a with
      | none => .inl none
      | some n => .inr ⟨n.next, s.heap.free a, s.freed ++ [a]⟩

/-- `free_ll`, with at most `n` rounds. -/
def freeLl (n : ℕ) (head : Option ℕ) (h : NodeHeap) : Option (Option FreeState) :=
  DoWhile.run freeRound n ⟨head, h, []⟩

/-! ## Lists in the cache -/

/-- What comes of a job of the accelerator. -/
inductive DmlOutcome where
  /-- `DML_STATUS_OK`: the bytes have been copied -/
  | ok
  /-- the destination has been left with any contents -/
  | failed (left : Node)
  deriving DecidableEq, Repr

/-- `dsa_llc_realloc`, from the label `retry` on. -/
def dsaLlcReallocFrom (outcome : ℕ → DmlOutcome) (dst src numRetries : ℕ) (h : NodeHeap) :
    NodeHeap :=
  match outcome numRetries with
  | .ok => h.copy dst src
  | .failed left =>
      let h := h.modify dst fun _ => left
      if 3 < numRetries then h.copy dst src
      else dsaLlcReallocFrom outcome dst src (numRetries + 1) h
termination_by 4 - numRetries

/-- `dsa_llc_realloc(dst, src, sizeof(node))` -/
def dsaLlcRealloc (outcome : ℕ → DmlOutcome) (dst src : ℕ) : NodeHeap → NodeHeap :=
  dsaLlcReallocFrom outcome dst src 0

section llc

variable (garbage : ℕ → Node) (outcome : ℕ → ℕ → DmlOutcome)

/-- The loop of `build_llc_ll`, for `n` rounds from `i` on: `cpy_dst` and the heap. -/
def buildLlcLoop (cpySrc : ℕ) : ℕ → ℕ → ℕ → ℕ → NodeHeap → ℕ × NodeHeap
  | 0, _, cpyDst, _, h => (cpyDst, h)
  | n + 1, i, cpyDst, tgt, h =>
      let h := h.modify cpySrc fun x => { x with docID := i }
      let h := h.modify cpySrc fun x => { x with next := some tgt }
      let h := dsaLlcRealloc (outcome i) cpyDst cpySrc h
      let (tgt', h) := h.malloc garbage
      buildLlcLoop cpySrc n (i + 1) tgt tgt' h

/-- `build_llc_ll`.  `outcome i` is what comes of the jobs for node `i`. -/
def buildLlcLl (length : ℤ) (h : NodeHeap) : ℕ × NodeHeap :=
  let (cpySrc, h) := h.malloc garbage
  let (cpyDst, h) := h.malloc garbage
  let (tgt, h) := h.malloc garbage
  let head := cpyDst
  let (cpyDst, h) := buildLlcLoop garbage outcome cpySrc (length - 1).toNat 0 cpyDst tgt h
  let h := h.modify cpySrc fun x => { x with docID := length - 1 }
  let h := h.modify cpySrc fun x => { x with next := none }
  let h := dsaLlcRealloc (outcome (length - 1).toNat) cpyDst cpySrc h
  (head, h.free cpySrc)

end llc

/-! ## The heap -/

namespace NodeHeap

variable {h : NodeHeap} {a b : ℕ} {n m : Node} {f g : Node → Node}

theorem lt_fresh (ha : h.node a = some n) : a < h.fresh := by
  by_contra hle
  rw [h.unused a (by omega)] at ha
  cases ha

@[simp] theorem fresh_malloc (garbage : ℕ → Node) :
    (h.malloc garbage).2.fresh = h.fresh + 1 := rfl

theorem node_malloc_self (garbage : ℕ → Node) :
    (h.malloc garbage).2.node h.fresh = some (garbage h.fresh) := Function.update_self _ _ _

theorem node_malloc_of_ne (garbage : ℕ → Node) (ha : a ≠ h.fresh) :
    (h.malloc garbage).2.node a = h.node a := Function.update_of_ne ha _ _

@[simp] theorem fresh_modify : (h.modify a f).fresh = h.fresh := rfl

theorem node_modify_self (ha : h.node a = some n) : (h.modify a f).node a = some (f n) := by
  unfold modify
  simp only [Function.update_self, ha, Option.map_some]

theorem node_modify_of_ne (hb : b ≠ a) : (h.modify a f).node b = h.node b :=
  Function.update_of_ne hb _ _

theorem modify_modify : (h.modify a f).modify a g = h.modify a (g ∘ f) := by
  unfold modify
  simp only [Function.update_self, Option.map_map, Function.update_idem]

theorem node_free_self : (h.free a).node a = none := Function.update_self _ _ _

theorem node_free_of_ne (hb : b ≠ a) : (h.free a).node b = h.node b := Function.update_of_ne hb _ _

theorem copy_eq (ha : h.node a = some n) : h.copy b a = h.modify b fun _ => n := by
  unfold copy
  rw [ha]

theorem docID_eq (ha : h.node a = some n) : h.docID a = n.docID := by
  unfold docID
  rw [ha]
  rfl

theorem links_eq (ha : h.node a = some n) : h.links a = some n.next := by
  unfold links
  rw [ha]
  rfl

/-- A list begins with a node, if there is anything in it. -/
theorem isList_cons {p : Option ℕ} {l : List ℕ} (hl : h.links.IsList p (a :: l)) :
    ∃ n, p = some a ∧ h.node a = some n ∧ h.links.IsList n.next l := by
  obtain ⟨rfl, q, hq, ht⟩ := hl
  obtain ⟨n, hn, rfl⟩ := Option.map_eq_some_iff.1 hq
  exact ⟨n, rfl, hn, ht⟩

theorem isSome_of_mem {p : Option ℕ} {l : List ℕ} (hl : h.links.IsList p l) (ha : a ∈ l) :
    (h.node a).isSome := by
  obtain ⟨l₁, l₂, rfl, ht⟩ := hl.of_mem ha
  obtain ⟨n, -, hn, -⟩ := isList_cons ht
  rw [hn]
  rfl

end NodeHeap

/-! ## What the loops build -/

/-- From `a` on there are the nodes of `l`, with the `docID`s `i`, `i + 1` and so on. -/
structure NodeHeap.Numbers (h : NodeHeap) (i : ℕ) (a : ℕ) (l : List ℕ) : Prop where
  isList : h.links.IsList (some a) l
  docIDs : l.map h.docID = (List.range' i l.length).map Nat.cast

theorem NodeHeap.Numbers.congr {h h' : NodeHeap} {i a : ℕ} {l : List ℕ} (hl : h.Numbers i a l)
    (heq : ∀ b ∈ l, h'.node b = h.node b) : h'.Numbers i a l where
  isList := hl.isList.congr fun b hb => by rw [NodeHeap.links, NodeHeap.links, heq b hb]
  docIDs := by
    rw [← hl.docIDs]
    exact List.map_congr_left fun b hb => by rw [NodeHeap.docID, NodeHeap.docID, heq b hb]

/-- One node before a list. -/
theorem NodeHeap.Numbers.cons {h : NodeHeap} {i a b : ℕ} {l : List ℕ} {n : Node}
    (hl : h.Numbers (i + 1) b l) (ha : h.node a = some n) (hid : n.docID = i)
    (hnext : n.next = some b) : h.Numbers i a (a :: l) where
  isList := .cons (by rw [NodeHeap.links_eq ha, hnext]) hl.isList
  docIDs := by
    rw [List.map_cons, List.length_cons, List.range'_succ, List.map_cons, hl.docIDs,
      NodeHeap.docID_eq ha, hid]

/-- The last node. -/
theorem NodeHeap.numbers_singleton {h : NodeHeap} {i a : ℕ} {n : Node} (ha : h.node a = some n)
    (hid : n.docID = i) (hnext : n.next = none) : h.Numbers i a [a] where
  isList := .cons (by rw [NodeHeap.links_eq ha, hnext]) rfl
  docIDs := by
    rw [List.map_singleton, NodeHeap.docID_eq ha, hid]
    rfl

/-- Between the heaps `h` and `h'` a list of `n` nodes has been built at `a`.  Of the nodes that
there were, the list consists of some of `mine`, and others than those of `changed` are as
before. -/
structure Built (mine changed : ℕ → Prop) (h h' : NodeHeap) (i n a : ℕ) : Prop where
  list : ∃ l, h'.Numbers i a l ∧ l.length = n ∧ ∀ b ∈ l, mine b ∨ h.fresh ≤ b
  frame : ∀ b < h.fresh, ¬ changed b → h'.node b = h.node b
  grows : h.fresh ≤ h'.fresh

section built

variable {mine changed mine₁ changed₁ : ℕ → Prop} {h h₁ h' : NodeHeap} {i n a b : ℕ} {x : Node}

/-- A node is filled in, and the list is built from the next one on. -/
theorem Built.cons (hb : Built mine₁ changed₁ h₁ h' (i + 1) n b) (hx : h₁.node a = some x)
    (hid : x.docID = i) (hnext : x.next = some b) (hfresh : h.fresh ≤ h₁.fresh)
    (hrest : ∀ c < h.fresh, ¬ changed c → h₁.node c = h.node c) (ha : mine a)
    (hmine : ∀ c, mine₁ c → mine c ∨ h.fresh ≤ c)
    (hchanged : ∀ c, changed₁ c → (changed c ∨ h.fresh ≤ c) ∧ c ≠ a) :
    Built mine changed h h' i (n + 1) a where
  list := by
    obtain ⟨l, hl, hlen, hin⟩ := hb.list
    have hkept : h'.node a = some x :=
      (hb.frame a (NodeHeap.lt_fresh hx) fun hc => (hchanged a hc).2 rfl).trans hx
    refine ⟨a :: l, hl.cons hkept hid hnext, by simp [hlen], ?_⟩
    refine List.forall_mem_cons.2 ⟨.inl ha, fun c hc => ?_⟩
    rcases hin c hc with hc | hc
    · exact hmine c hc
    · exact .inr (Nat.le_trans hfresh hc)
  frame c hc hcc := by
    rw [← hrest c hc hcc]
    refine hb.frame c (by omega) fun hc₁ => ?_
    rcases (hchanged c hc₁).1 with h | h
    · exact hcc h
    · omega
  grows := Nat.le_trans hfresh hb.grows

/-- The last node. -/
theorem Built.last (hx : h'.node a = some x) (hid : x.docID = i) (hnext : x.next = none)
    (hrest : ∀ c < h.fresh, ¬ changed c → h'.node c = h.node c) (ha : mine a)
    (hfresh : h.fresh ≤ h'.fresh) : Built mine changed h h' i 1 a where
  list := ⟨[a], NodeHeap.numbers_singleton hx hid hnext, rfl, by simpa using .inl ha⟩
  frame := hrest
  grows := hfresh

end built

section buildHost

variable (garbage : ℕ → Node)

/-- What `build_host_ll` does after its loop. -/
def closeHost (last : ℤ) (r : ℕ × NodeHeap) : NodeHeap :=
  (r.2.modify r.1 fun x => { x with docID := last }).modify r.1 fun x => { x with next := none }

/-- The loop and what follows fill in the node at `cur` and build the rest of the list behind it. -/
theorem buildHostLoop_built (n i cur : ℕ) (h : NodeHeap) {x : Node} (hcur : h.node cur = some x) :
    Built (· = cur) (· = cur) h (closeHost (i + n : ℕ) (buildHostLoop garbage n i cur h)) i (n + 1)
      cur := by
  induction n generalizing i cur h x with
  | zero =>
      unfold buildHostLoop closeHost
      rw [NodeHeap.modify_modify]
      refine .last (NodeHeap.node_modify_self hcur) rfl rfl (fun c _ hc => ?_) rfl (Nat.le_refl _)
      exact NodeHeap.node_modify_of_ne hc
  | succ n ih =>
      have hlt := NodeHeap.lt_fresh hcur
      simp only [buildHostLoop]
      have hid := NodeHeap.node_modify_self (f := fun x => { x with docID := (i : ℤ) }) hcur
      have hother {c : ℕ} (hc : c ≠ cur) : (h.modify cur fun x => { x with docID := i }).node c =
          h.node c := NodeHeap.node_modify_of_ne hc
      have hfresh : (h.modify cur fun x => { x with docID := i }).fresh = h.fresh := rfl
      generalize h.modify cur (fun x => { x with docID := i }) = h₁ at hid hother hfresh ⊢
      have hnode : (h₁.malloc garbage).2.node cur = _ :=
        (NodeHeap.node_malloc_of_ne garbage (by omega)).trans hid
      have htgt : ((h₁.malloc garbage).2.modify cur fun x => { x with next := some h₁.fresh }).node
          h₁.fresh = some (garbage h₁.fresh) := by
        rw [NodeHeap.node_modify_of_ne (by omega), NodeHeap.node_malloc_self]
      have hb := ih (i + 1) h₁.fresh _ htgt
      rw [show i + (n + 1) = i + 1 + n by omega]
      refine hb.cons (NodeHeap.node_modify_self hnode) rfl rfl ?_ (fun c hc hne => ?_) rfl
        (fun c hc => ?_) (fun c hc => ?_)
      · simp [hfresh]
      · rw [NodeHeap.node_modify_of_ne hne, NodeHeap.node_malloc_of_ne garbage (by omega),
          hother hne]
      · omega
      · omega

/-- `build_host_ll` builds a list of new nodes. -/
theorem buildHostLl_built (length : ℤ) (hlen : 1 ≤ length) (h : NodeHeap) :
    Built (fun _ => False) (fun _ => False) h (buildHostLl garbage length h).2 0 length.toNat
      (buildHostLl garbage length h).1 := by
  have hb := buildHostLoop_built garbage (length - 1).toNat 0 h.fresh (h.malloc garbage).2
    (NodeHeap.node_malloc_self garbage)
  rw [show ((0 + (length - 1).toNat : ℕ) : ℤ) = length - 1 by omega,
    show (length - 1).toNat + 1 = length.toNat by omega] at hb
  refine ⟨?_, fun b hb' _ => ?_, Nat.le_of_succ_le hb.grows⟩
  · obtain ⟨l, hl, hlen, hin⟩ := hb.list
    refine ⟨l, hl, hlen, fun b hb => .inr ?_⟩
    rcases hin b hb with rfl | hb
    · exact Nat.le_refl _
    · exact Nat.le_of_succ_le hb
  · have := hb.frame b (by simp; omega) (by omega)
    exact this.trans (NodeHeap.node_malloc_of_ne garbage (by omega))

/-- The nodes of a list that has been built from new ones. -/
theorem Built.exists_new {h h' : NodeHeap} {i n a : ℕ}
    (hb : Built (fun _ => False) (fun _ => False) h h' i n a) :
    ∃ l, h'.Numbers i a l ∧ l.length = n ∧ ∀ b ∈ l, h.fresh ≤ b ∧ b < h'.fresh := by
  obtain ⟨l, hl, hlen, hin⟩ := hb.list
  refine ⟨l, hl, hlen, fun b hb => ⟨(hin b hb).resolve_left id, ?_⟩⟩
  obtain ⟨x, hx⟩ := Option.isSome_iff_exists.1 (NodeHeap.isSome_of_mem hl.isList hb)
  exact NodeHeap.lt_fresh hx

/-- Three lists of `n` nodes that share none. -/
structure NodeHeap.Separate (h : NodeHeap) (n : ℕ) (heads : ℕ → ℕ) (l₀ l₁ l₂ : List ℕ) : Prop where
  numbers₀ : h.Numbers 0 (heads 0) l₀
  numbers₁ : h.Numbers 0 (heads 1) l₁
  numbers₂ : h.Numbers 0 (heads 2) l₂
  length : l₀.length = n ∧ l₁.length = n ∧ l₂.length = n
  disjoint : l₂.Disjoint l₀ ∧ l₂.Disjoint l₁

/-- `allocate_posting_lists` gives each request three lists, of which the last one, to which the
request writes, shares no node with the others. -/
theorem allocatePostingLists_separate (plLen : ℤ) (hlen : 1 ≤ plLen) (totalRequests : ℕ)
    (heads : ℕ → ℕ → ℕ) (h : NodeHeap) :
    let r := allocatePostingLists garbage plLen totalRequests heads h
    ∀ i < totalRequests, ∃ l₀ l₁ l₂, r.2.Separate plLen.toNat (r.1 i) l₀ l₁ l₂ ∧
      ∀ l ∈ [l₀, l₁, l₂], ∀ a ∈ l, a < r.2.fresh := by
  induction totalRequests with
  | zero => exact fun i hi => absurd hi (Nat.not_lt_zero i)
  | succ n ih =>
      simp only [allocatePostingLists] at ih ⊢
      generalize allocatePostingLists garbage plLen n heads h = r at ih
      have hb₀ := buildHostLl_built garbage plLen hlen r.2
      generalize buildHostLl garbage plLen r.2 = r₀ at hb₀ ⊢
      have hb₁ := buildHostLl_built garbage plLen hlen r₀.2
      generalize buildHostLl garbage plLen r₀.2 = r₁ at hb₁ ⊢
      have hb₂ := buildHostLl_built garbage plLen hlen r₁.2
      generalize buildHostLl garbage plLen r₁.2 = r₂ at hb₂ ⊢
      have hgrows₀ := hb₀.grows
      have hgrows₁ := hb₁.grows
      have hgrows₂ := hb₂.grows
      have kept₁ {a : ℕ} (ha : a < r₁.2.fresh) : r₂.2.node a = r₁.2.node a := hb₂.frame a ha id
      have kept₀ {a : ℕ} (ha : a < r₀.2.fresh) : r₂.2.node a = r₀.2.node a :=
        (kept₁ (by omega)).trans (hb₁.frame a ha id)
      have kept {a : ℕ} (ha : a < r.2.fresh) : r₂.2.node a = r.2.node a :=
        (kept₀ (by omega)).trans (hb₀.frame a ha id)
      intro i hi
      by_cases hlast : i = n
      · obtain ⟨l₀, hl₀, hlen₀, hin₀⟩ := hb₀.exists_new
        obtain ⟨l₁, hl₁, hlen₁, hin₁⟩ := hb₁.exists_new
        obtain ⟨l₂, hl₂, hlen₂, hin₂⟩ := hb₂.exists_new
        rw [hlast, Function.update_self]
        refine ⟨l₀, l₁, l₂, ⟨hl₀.congr fun a ha => kept₀ (hin₀ a ha).2,
          hl₁.congr fun a ha => kept₁ (hin₁ a ha).2, hl₂, ⟨hlen₀, hlen₁, hlen₂⟩,
          ⟨fun a ha ha' => ?_, fun a ha ha' => ?_⟩⟩, ?_⟩
        · have := hin₀ a ha'
          have := hin₂ a ha
          omega
        · have := hin₁ a ha'
          have := hin₂ a ha
          omega
        · simp only [List.forall_mem_cons]
          refine ⟨fun a ha => ?_, fun a ha => ?_, fun a ha => (hin₂ a ha).2, nofun⟩
          · have := hin₀ a ha
            omega
          · have := hin₁ a ha
            omega
      · obtain ⟨l₀, l₁, l₂, hsep, hlt⟩ := ih i (by omega)
        have hkept {l : List ℕ} (hl : l ∈ [l₀, l₁, l₂]) : ∀ a ∈ l, r₂.2.node a = r.2.node a :=
          fun a ha => kept (hlt l hl a ha)
        rw [Function.update_of_ne hlast]
        refine ⟨l₀, l₁, l₂, ⟨hsep.numbers₀.congr (hkept (by simp)),
          hsep.numbers₁.congr (hkept (by simp)), hsep.numbers₂.congr (hkept (by simp)),
          hsep.length, hsep.disjoint⟩, fun l hl a ha => ?_⟩
        have := hlt l hl a ha
        omega

end buildHost

section buildLlc

variable (garbage : ℕ → Node) (outcome : ℕ → ℕ → DmlOutcome)

/-- Whatever comes of the jobs, the node is copied in the end. -/
theorem dsaLlcReallocFrom_eq (outcome : ℕ → DmlOutcome) {dst src : ℕ} (hne : src ≠ dst)
    (numRetries : ℕ) (h : NodeHeap) {x : Node} (hsrc : h.node src = some x) :
    dsaLlcReallocFrom outcome dst src numRetries h = h.modify dst fun _ => x := by
  induction hn : 4 - numRetries using Nat.strongRecOn generalizing numRetries h with
  | _ n ih =>
      unfold dsaLlcReallocFrom
      cases outcome numRetries with
      | ok => exact NodeHeap.copy_eq hsrc
      | failed left =>
          -- what the job has left is overwritten
          have hkept : (h.modify dst fun _ => left).node src = some x :=
            (NodeHeap.node_modify_of_ne hne).trans hsrc
          have hover : (h.modify dst fun _ => left).modify dst (fun _ => x) =
              h.modify dst fun _ => x := NodeHeap.modify_modify
          by_cases hlast : 3 < numRetries
          · simp only [if_pos hlast]
            rw [NodeHeap.copy_eq hkept, hover]
          · simp only [if_neg hlast]
            rw [ih (4 - (numRetries + 1)) (by omega) (numRetries + 1) _ hkept rfl, hover]

/-- What `build_llc_ll` does after its loop. -/
def closeLlc (outcome : ℕ → DmlOutcome) (last : ℤ) (cpySrc : ℕ) (r : ℕ × NodeHeap) : NodeHeap :=
  let h := r.2.modify cpySrc fun x => { x with docID := last }
  let h := h.modify cpySrc fun x => { x with next := none }
  dsaLlcRealloc outcome r.1 cpySrc h

/-- A node is filled in by way of the scratch node. -/
theorem node_viaScratch {h : NodeHeap} {cpySrc cpyDst : ℕ} {x y : Node} (last : ℤ)
    (next : Option ℕ) (hne : cpySrc ≠ cpyDst) (hsrc : h.node cpySrc = some x)
    (hdst : h.node cpyDst = some y) (outcome : ℕ → DmlOutcome) :
    let h₁ := dsaLlcRealloc outcome cpyDst cpySrc
      ((h.modify cpySrc fun x => { x with docID := last }).modify cpySrc
        fun x => { x with next := next })
    h₁.node cpyDst = some { x with docID := last, next := next } ∧
      h₁.node cpySrc = some { x with docID := last, next := next } ∧ h₁.fresh = h.fresh ∧
      ∀ c, c ≠ cpySrc → c ≠ cpyDst → h₁.node c = h.node c := by
  have hfilled := NodeHeap.node_modify_self
    (f := (fun x => { x with next := next }) ∘ fun x => { x with docID := last }) hsrc
  simp only [NodeHeap.modify_modify, dsaLlcRealloc]
  rw [dsaLlcReallocFrom_eq outcome hne 0 _ hfilled]
  refine ⟨?_, ?_, rfl, fun c hc hc' => ?_⟩
  · exact NodeHeap.node_modify_self ((NodeHeap.node_modify_of_ne hne.symm).trans hdst)
  · exact (NodeHeap.node_modify_of_ne hne).trans hfilled
  · rw [NodeHeap.node_modify_of_ne hc', NodeHeap.node_modify_of_ne hc]

/-- The loop and what follows fill in the node at `cpy_dst` and build the rest of the list at `tgt`,
and leave the scratch node where it is. -/
theorem buildLlcLoop_built (n i cpySrc cpyDst tgt : ℕ) (h : NodeHeap) {x y z : Node}
    (hsrc : h.node cpySrc = some x) (hdst : h.node cpyDst = some y) (htgt : h.node tgt = some z)
    (hne : cpySrc ≠ cpyDst) (hne' : cpySrc ≠ tgt) (hne'' : cpyDst ≠ tgt) :
    Built (fun b => b = cpyDst ∨ b = tgt) (fun b => b = cpySrc ∨ b = cpyDst ∨ b = tgt) h
      (closeLlc (outcome (i + n)) (i + n : ℕ) cpySrc
        (buildLlcLoop garbage outcome cpySrc n i cpyDst tgt h)) i (n + 1) cpyDst := by
  induction n generalizing i cpyDst tgt h x y z with
  | zero =>
      obtain ⟨hx, -, hfresh, hrest⟩ := node_viaScratch ((i + 0 : ℕ) : ℤ) none hne hsrc hdst
        (outcome (i + 0))
      refine .last hx rfl rfl (fun c _ hc => hrest c ?_ ?_) (.inl rfl) (Nat.le_of_eq hfresh.symm)
      · exact fun h => hc (.inl h)
      · exact fun h => hc (.inr (.inl h))
  | succ n ih =>
      have hltsrc := NodeHeap.lt_fresh hsrc
      have hltdst := NodeHeap.lt_fresh hdst
      have hlttgt := NodeHeap.lt_fresh htgt
      simp only [buildLlcLoop]
      obtain ⟨hdst₁, hsrc₁, hfresh₁, hrest₁⟩ := node_viaScratch (i : ℤ) (some tgt) hne hsrc hdst
        (outcome i)
      generalize dsaLlcRealloc (outcome i) cpyDst cpySrc _ = h₁ at hdst₁ hsrc₁ hfresh₁ hrest₁ ⊢
      have hold {c : ℕ} (hc : c < h.fresh) : (h₁.malloc garbage).2.node c = h₁.node c :=
        NodeHeap.node_malloc_of_ne garbage (by omega)
      have hb := ih (i + 1) tgt h₁.fresh (h₁.malloc garbage).2 ((hold hltsrc).trans hsrc₁)
        ((hold hlttgt).trans ((hrest₁ tgt hne'.symm hne''.symm).trans htgt))
        (NodeHeap.node_malloc_self garbage) hne' (by omega) (by omega)
      rw [show i + (n + 1) = i + 1 + n by omega]
      refine hb.cons ((hold hltdst).trans hdst₁) rfl rfl ?_ (fun c hc hcc => ?_) (.inl rfl)
        (fun c hc => ?_) (fun c hc => ?_)
      · simp [hfresh₁]
      · rw [hold hc]
        exact hrest₁ c (fun h => hcc (.inl h)) fun h => hcc (.inr (.inl h))
      · omega
      · omega

/-- `build_llc_ll` builds a list of new nodes. -/
theorem buildLlcLl_built (length : ℤ) (hlen : 1 ≤ length) (h : NodeHeap) :
    Built (fun _ => False) (fun _ => False) h (buildLlcLl garbage outcome length h).2 0
      length.toNat (buildLlcLl garbage outcome length h).1 := by
  -- the scratch node, the first node and the target that is ahead of it
  have hne₁ : h.fresh ≠ h.fresh + 1 := by omega
  have hne₂ : h.fresh ≠ h.fresh + 2 := by omega
  have hne₃ : h.fresh + 1 ≠ h.fresh + 2 := by omega
  have hb := buildLlcLoop_built garbage outcome (length - 1).toNat 0 h.fresh (h.fresh + 1)
    (h.fresh + 2) (((h.malloc garbage).2.malloc garbage).2.malloc garbage).2
    ((NodeHeap.node_malloc_of_ne garbage hne₂).trans
      ((NodeHeap.node_malloc_of_ne garbage hne₁).trans (NodeHeap.node_malloc_self garbage)))
    ((NodeHeap.node_malloc_of_ne garbage hne₃).trans (NodeHeap.node_malloc_self garbage))
    (NodeHeap.node_malloc_self garbage) hne₁ hne₂ hne₃
  rw [show ((0 + (length - 1).toNat : ℕ) : ℤ) = length - 1 by omega, Nat.zero_add,
    show (length - 1).toNat + 1 = length.toNat by omega] at hb
  have hgrows : h.fresh + 3 ≤ _ := hb.grows
  refine ⟨?_, fun b hb' _ => ?_, Nat.le_trans (Nat.le_add_right _ 3) hgrows⟩
  · obtain ⟨l, hl, hlen, hin⟩ := hb.list
    simp only [NodeHeap.fresh_malloc] at hin
    refine ⟨l, hl.congr fun b hb => NodeHeap.node_free_of_ne ?_, hlen, fun b hb => .inr ?_⟩
    · have := hin b hb
      omega
    · have := hin b hb
      omega
  · have hkept := hb.frame b (by simp only [NodeHeap.fresh_malloc]; omega) (by omega)
    refine (NodeHeap.node_free_of_ne (Nat.ne_of_lt hb')).trans (hkept.trans ?_)
    rw [NodeHeap.node_malloc_of_ne garbage (by simp only [NodeHeap.fresh_malloc]; omega),
      NodeHeap.node_malloc_of_ne garbage (by simp only [NodeHeap.fresh_malloc]; omega),
      NodeHeap.node_malloc_of_ne garbage (Nat.ne_of_lt hb')]

end buildLlc

/-! ## Freeing -/

/-- `free_ll` visits the nodes of a list one after the other. -/
theorem freeRound_ends {h : NodeHeap} {p : Option ℕ} {l : List ℕ} (hl : h.links.IsList p l)
    (freed : List ℕ) :
    ∃ h', DoWhile.Ends freeRound ⟨p, h, freed⟩ (some ⟨none, h', freed ++ l⟩) ∧
      (∀ a ∈ l, h'.node a = none) ∧ ∀ a ∉ l, h'.node a = h.node a := by
  induction l generalizing h p freed with
  | nil =>
      obtain rfl := hl
      exact ⟨h, DoWhile.ends_of_inl (by simp [freeRound]), by simp, fun _ _ => rfl⟩
  | cons a l ih =>
      obtain ⟨ha, -⟩ := List.nodup_cons.1 hl.nodup
      obtain ⟨x, rfl, hx, ht⟩ := NodeHeap.isList_cons hl
      have hlinks : ∀ b ∈ l, (h.free a).links b = h.links b := by
        intro b hb
        unfold NodeHeap.links
        rw [NodeHeap.node_free_of_ne (ne_of_mem_of_not_mem hb ha)]
      obtain ⟨h', hends, hfreed, hkept⟩ := ih (ht.congr hlinks) (freed ++ [a])
      refine ⟨h', ?_, List.forall_mem_cons.2 ⟨?_, hfreed⟩, fun b hb => ?_⟩
      · refine .head (t := ⟨x.next, h.free a, freed ++ [a]⟩) (by simp [freeRound, hx]) ?_
        rwa [List.append_assoc, List.singleton_append] at hends
      · rw [hkept a ha, NodeHeap.node_free_self]
      · obtain ⟨hba, hbl⟩ := not_or.1 (mt List.mem_cons.2 hb)
        rw [hkept b hbl, NodeHeap.node_free_of_ne hba]

/-- Whatever comes of the jobs of the accelerator, `build_llc_ll` gives a list of `length` new nodes
that are numbered in order, as the list of `build_host_ll` is, and `free_ll` visits each of its
nodes once and comes to an end. -/
theorem buildLlcLl_eq_buildHostLl (garbage garbage' : ℕ → Node) (outcome : ℕ → ℕ → DmlOutcome)
    (length : ℤ) (hlen : 1 ≤ length) (h h₀ : NodeHeap) :
    let llc := buildLlcLl garbage outcome length h
    let host := buildHostLl garbage' length h₀
    ∃ l l' : List ℕ,
      (llc.2.links.IsList (some llc.1) l ∧ l.Nodup ∧ l.length = length ∧
        l.map llc.2.docID = (List.range length.toNat).map Nat.cast ∧
        (∀ a ∈ l, h.fresh ≤ a) ∧ ∀ a < h.fresh, llc.2.node a = h.node a) ∧
      (host.2.links.IsList (some host.1) l' ∧ l'.map host.2.docID = l.map llc.2.docID) ∧
      ∃ n h', freeLl n (some llc.1) llc.2 = some (some ⟨none, h', l⟩) ∧
        (∀ a ∈ l, h'.node a = none) ∧ ∀ a ∉ l, h'.node a = llc.2.node a := by
  have hllc := buildLlcLl_built garbage outcome length hlen h
  obtain ⟨l, hl, hlen', hnew⟩ := hllc.list
  obtain ⟨l', hl', hlen'', -⟩ := (buildHostLl_built garbage' length hlen h₀).list
  obtain ⟨h', ⟨n, hn⟩, hfreed⟩ := freeRound_ends hl.isList []
  refine ⟨l, l', ⟨hl.isList, hl.isList.nodup, by omega, ?_, fun a ha => ?_, fun a ha => ?_⟩,
    ⟨hl'.isList, ?_⟩, n, h', hn, hfreed⟩
  · rw [hl.docIDs, hlen', List.range_eq_range']
  · exact (hnew a ha).resolve_left id
  · exact hllc.frame a ha id
  · rw [hl'.docIDs, hl.docIDs, hlen', hlen'']

/-- A list of three nodes, for which every job fails. -/
theorem buildLlcLl_eq_buildHostLl_three :
    let garbage : ℕ → Node := fun _ => ⟨7, none, Vector.replicate 40 0⟩
    let llc := buildLlcLl garbage (fun _ a => .failed (garbage a)) 3
      ⟨fun _ => none, 8, fun _ _ => rfl⟩
    ∃ l, llc.2.links.IsList (some llc.1) l ∧ l.map llc.2.docID = [0, 1, 2] := by
  intro garbage llc
  obtain ⟨l, -, ⟨hl, -, -, hids, -⟩, -⟩ := buildLlcLl_eq_buildHostLl garbage garbage
    (fun _ a => .failed (garbage a)) 3 (by decide) ⟨fun _ => none, 8, fun _ _ => rfl⟩
    ⟨fun _ => none, 8, fun _ _ => rfl⟩
  exact ⟨l, hl, hids⟩

end XMPGym
