import XMPGym.Lib.SortedInter
import XMPGym.PostingLists

/-!
# The simple ranker

`intersect_posting_lists` and `ll_simple` (`inc/inline/posting_list.ipp`), and
`cpu_simple_ranker_request` (`src/walker_requests.cpp`), which calls the one after the other.  The
first writes what two lists have in common to the nodes of a third one, from the beginning, and the
second goes through that list to its end.
-/

namespace XMPGym

/-! ## Intersection -/

/-- The cursors of `intersect_posting_lists`, and the heap. -/
structure IntersectState where
  cur1 : Option ℕ
  cur2 : Option ℕ
  cur3 : Option ℕ
  heap : NodeHeap

/-- A round of `intersect_posting_lists`; `none` when there is no node at a cursor that is read. -/
def intersectRound (s : IntersectState) : Option NodeHeap ⊕ IntersectState :=
  match s.cur1, s.cur2 with
  | some a, some b =>
      match s.heap.node a, s.heap.node b with
      | some n₁, some n₂ =>
          if n₁.docID = n₂.docID then
            match s.cur3.bind fun c => (s.heap.node c).map fun n₃ => (c, n₃) with
            | some (c, n₃) =>
                -- the links are the same before and after the store
                let heap := s.heap.modify c fun x => { x with docID := n₁.docID }
                .inr ⟨n₁.next, n₂.next, n₃.next, heap⟩
            | none => .inl none
          else if n₁.docID < n₂.docID then .inr { s with cur1 := n₁.next }
          else .inr { s with cur2 := n₂.next }
      | _, _ => .inl none
  | _, _ => .inl (some s.heap)

/-- `intersect_posting_lists`, with at most `n` rounds. -/
def intersectPostingLists (n : ℕ) (intersected head1 head2 : Option ℕ) (h : NodeHeap) :
    Option (Option NodeHeap) :=
  DoWhile.run intersectRound n ⟨head1, head2, intersected, h⟩

/-! ## Traversal -/

/-- The cursor of `ll_simple`, and the `docID`s that it has printed. -/
structure LlState where
  cur : Option ℕ
  visited : List ℤ

/-- A round of `ll_simple`; `none` when there is no node at `cur`. -/
def llSimpleRound (h : NodeHeap) (s : LlState) : Option (List ℤ) ⊕ LlState :=
  match s.cur with
  | none => .inl (some s.visited)
  | some a =>
      match h.node a with
      | none => .inl none
      | some n => .inr ⟨n.next, s.visited ++ [n.docID]⟩

/-- `ll_simple`, with at most `n` rounds. -/
def llSimple (n : ℕ) (head : Option ℕ) (h : NodeHeap) : Option (Option (List ℤ)) :=
  DoWhile.run (llSimpleRound h) n ⟨head, []⟩

/-- What a request leaves. -/
structure RankerResult where
  heap : NodeHeap
  /-- what `ll_simple` has visited -/
  visited : List ℤ
  requestsCompleted : ℕ

/-- `cpu_simple_ranker_request`, with at most `n` rounds for each loop. -/
def cpuSimpleRankerRequest (n : ℕ) (plist1Head plist2Head resultHead : Option ℕ) (h : NodeHeap)
    (requestsCompleted : ℕ) : Option (Option RankerResult) :=
  match intersectPostingLists n resultHead plist1Head plist2Head h with
  | none => none
  | some none => some none
  | some (some h) =>
      (llSimple n resultHead h).map fun visited =>
        visited.map fun visited => ⟨h, visited, requestsCompleted + 1⟩

/-! ## What the intersection writes -/

namespace NodeHeap

/-- The `docID`s `ds` are written to the first nodes of `l`. -/
def setDocIDs : List ℕ → List ℤ → NodeHeap → NodeHeap
  | a :: l, d :: ds, h => setDocIDs l ds (h.modify a fun x => { x with docID := d })
  | _, _, h => h

variable {h : NodeHeap} {l : List ℕ} {ds : List ℤ} {a b : ℕ} {d : ℤ}

theorem node_setDocIDs_of_notMem (ha : a ∉ l.take ds.length) :
    (h.setDocIDs l ds).node a = h.node a := by
  induction l generalizing h ds with
  | nil => cases ds <;> rfl
  | cons b l ih =>
      cases ds with
      | nil => rfl
      | cons d ds =>
          obtain ⟨hab, hal⟩ := not_or.1 (mt List.mem_cons.2 ha)
          exact (ih hal).trans (node_modify_of_ne hab)

/-- Links and padding are as they were. -/
theorem rest_setDocIDs (h : NodeHeap) (l : List ℕ) (ds : List ℤ) (a : ℕ) :
    ((h.setDocIDs l ds).node a).map (fun x => (x.next, x.padding)) =
      (h.node a).map fun x => (x.next, x.padding) := by
  induction l generalizing h ds with
  | nil => cases ds <;> rfl
  | cons b l ih =>
      cases ds with
      | nil => rfl
      | cons d ds =>
          refine (ih (h.modify b fun x => { x with docID := d }) ds).trans ?_
          by_cases hab : a = b
          · rw [hab, modify]
            simp only [Function.update_self, Option.map_map]
            rfl
          · rw [node_modify_of_ne hab]

theorem links_setDocIDs (h : NodeHeap) (l : List ℕ) (ds : List ℤ) :
    (h.setDocIDs l ds).links = h.links := by
  funext a
  have := congrArg (Option.map Prod.fst) (rest_setDocIDs h l ds a)
  rwa [Option.map_map, Option.map_map] at this

/-- The `docID`s of a list that does not go through the node that is written. -/
theorem docIDs_setDocIDs_of_notMem (h : NodeHeap) (d : ℤ) (ha : a ∉ l) :
    l.map (h.setDocIDs [a] [d]).docID = l.map h.docID := by
  refine List.map_congr_left fun b hb => ?_
  rw [docID, docID, node_setDocIDs_of_notMem]
  simpa using ne_of_mem_of_not_mem hb ha

/-- The `docID`s of the list afterwards. -/
theorem docIDs_setDocIDs (hl : l.Nodup) (hnode : ∀ a ∈ l, (h.node a).isSome)
    (hlen : ds.length ≤ l.length) :
    l.map (h.setDocIDs l ds).docID = ds ++ (l.map h.docID).drop ds.length := by
  induction l generalizing h ds with
  | nil =>
      obtain rfl := List.eq_nil_of_length_eq_zero (Nat.le_zero.1 hlen)
      rfl
  | cons a l ih =>
      cases ds with
      | nil => rfl
      | cons d ds =>
          obtain ⟨ha, hl⟩ := List.nodup_cons.1 hl
          obtain ⟨hx, hnode⟩ := List.forall_mem_cons.1 hnode
          obtain ⟨x, hx⟩ := Option.isSome_iff_exists.1 hx
          have hother {b : ℕ} (hb : b ∈ l) :
              (h.modify a fun x => { x with docID := d }).node b = h.node b :=
            node_modify_of_ne (ne_of_mem_of_not_mem hb ha)
          rw [List.map_cons, setDocIDs, ih hl (fun b hb => by rw [hother hb]; exact hnode b hb)
            (Nat.le_of_succ_le_succ hlen), docID, node_setDocIDs_of_notMem fun hmem =>
              ha (List.mem_of_mem_take hmem), node_modify_self hx]
          have hmap : l.map (h.modify a fun x => { x with docID := d }).docID = l.map h.docID :=
            List.map_congr_left fun b hb => by rw [docID, docID, hother hb]
          rw [hmap]
          rfl

end NodeHeap

/-- A heap with nodes at the addresses 0, 1 and so on, with these `docID`s and links. -/
def heapOf (ns : List (ℤ × Option ℕ)) : NodeHeap where
  node a := ns[a]?.map fun n => ⟨n.1, n.2, Vector.replicate 40 0⟩
  fresh := ns.length
  unused a ha := by rw [List.getElem?_eq_none ha, Option.map_none]

section intersect

variable {h : NodeHeap} {p₁ p₂ p₃ : Option ℕ} {l₁ l₂ l₃ : List ℕ} {a b c : ℕ} {x y z : Node}

/-! ### The four cases of a round -/

theorem intersectRound_of_none (hp : p₁ = none ∨ p₂ = none) :
    intersectRound ⟨p₁, p₂, p₃, h⟩ = .inl (some h) := by
  rcases hp with rfl | rfl
  · rfl
  · cases p₁ <;> rfl

theorem intersectRound_of_lt (hx : h.node a = some x) (hy : h.node b = some y)
    (hlt : x.docID < y.docID) :
    intersectRound ⟨some a, some b, p₃, h⟩ = .inr ⟨x.next, some b, p₃, h⟩ := by
  simp [intersectRound, hx, hy, hlt.ne, hlt]

theorem intersectRound_of_gt (hx : h.node a = some x) (hy : h.node b = some y)
    (hgt : y.docID < x.docID) :
    intersectRound ⟨some a, some b, p₃, h⟩ = .inr ⟨some a, y.next, p₃, h⟩ := by
  simp [intersectRound, hx, hy, hgt.ne', hgt.not_gt]

theorem intersectRound_of_eq (hx : h.node a = some x) (hy : h.node b = some y)
    (hz : h.node c = some z) (heq : x.docID = y.docID) :
    intersectRound ⟨some a, some b, some c, h⟩ =
      .inr ⟨x.next, y.next, z.next, h.setDocIDs [c] [y.docID]⟩ := by
  simp [intersectRound, hx, hy, hz, heq, NodeHeap.setDocIDs]

/-- The loop writes the intersection of the `docID`s to the third list, which is long enough. -/
theorem intersectRound_ends (h₁ : h.links.IsList p₁ l₁) (h₂ : h.links.IsList p₂ l₂)
    (h₃ : h.links.IsList p₃ l₃) (hd₁ : l₃.Disjoint l₁) (hd₂ : l₃.Disjoint l₂)
    (hlen : (SortedInter.inter (l₁.map h.docID) (l₂.map h.docID)).length ≤ l₃.length) :
    DoWhile.Ends intersectRound ⟨p₁, p₂, p₃, h⟩
      (some (h.setDocIDs l₃ (SortedInter.inter (l₁.map h.docID) (l₂.map h.docID)))) := by
  -- each round drops a node of the first or of the second list
  induction hn : l₁.length + l₂.length using Nat.strongRecOn
    generalizing h p₁ p₂ p₃ l₁ l₂ l₃ with
  | _ n ih =>
      cases l₁ with
      | nil =>
          refine DoWhile.ends_of_inl ((intersectRound_of_none (.inl h₁)).trans ?_)
          cases l₃ <;> simp [NodeHeap.setDocIDs]
      | cons a l₁ =>
          obtain ⟨x, rfl, hx, ht₁⟩ := NodeHeap.isList_cons h₁
          cases l₂ with
          | nil =>
              refine DoWhile.ends_of_inl ((intersectRound_of_none (.inr h₂)).trans ?_)
              cases l₃ <;> simp [NodeHeap.setDocIDs]
          | cons b l₂ =>
              obtain ⟨y, rfl, hy, ht₂⟩ := NodeHeap.isList_cons h₂
              simp only [List.length_cons] at hn
              have hdx := NodeHeap.docID_eq hx
              have hdy := NodeHeap.docID_eq hy
              rw [List.map_cons, List.map_cons, hdx, hdy] at hlen ⊢
              rcases lt_trichotomy x.docID y.docID with hlt | heq | hgt
              · rw [SortedInter.cons_inter_cons_of_lt hlt, ← hdy, ← List.map_cons] at hlen ⊢
                exact .head (intersectRound_of_lt hx hy hlt)
                  (ih _ (by simp only [List.length_cons]; omega) ht₁ h₂ h₃
                    (List.disjoint_cons_right.1 hd₁).2 hd₂ hlen rfl)
              · rw [heq, SortedInter.cons_inter_cons_self] at hlen ⊢
                cases l₃ with
                | nil => simp at hlen
                | cons c l₃ =>
                    obtain ⟨z, rfl, hz, ht₃⟩ := NodeHeap.isList_cons h₃
                    obtain ⟨hc₁, hd₁⟩ := List.disjoint_cons_left.1 hd₁
                    obtain ⟨hc₂, hd₂⟩ := List.disjoint_cons_left.1 hd₂
                    have hlinks := h.links_setDocIDs [c] [y.docID]
                    have hids₁ := h.docIDs_setDocIDs_of_notMem y.docID
                      (List.not_mem_of_not_mem_cons hc₁)
                    have hids₂ := h.docIDs_setDocIDs_of_notMem y.docID
                      (List.not_mem_of_not_mem_cons hc₂)
                    refine .head (intersectRound_of_eq hx hy hz heq) ?_
                    have hends := ih _ (by omega) (hlinks ▸ ht₁) (hlinks ▸ ht₂) (hlinks ▸ ht₃)
                      (List.disjoint_cons_right.1 hd₁).2 (List.disjoint_cons_right.1 hd₂).2
                      (by rw [hids₁, hids₂]; exact Nat.le_of_succ_le_succ hlen) rfl
                    rwa [hids₁, hids₂] at hends
              · rw [SortedInter.cons_inter_cons_of_gt hgt, ← hdx, ← List.map_cons] at hlen ⊢
                exact .head (intersectRound_of_gt hx hy hgt)
                  (ih _ (by simp only [List.length_cons]; omega) h₁ ht₂ h₃ hd₁
                    (List.disjoint_cons_right.1 hd₂).2 hlen rfl)

end intersect

/-- `intersect_posting_lists` ends without a fault.  It has written what the two lists have in
common, in order, to the first nodes of the third one, and has changed nothing else. -/
theorem intersectPostingLists_merge (h : NodeHeap) (head1 head2 intersected : Option ℕ)
    (l₁ l₂ l₃ : List ℕ) (h₁ : h.links.IsList head1 l₁) (h₂ : h.links.IsList head2 l₂)
    (h₃ : h.links.IsList intersected l₃) (hs₁ : (l₁.map h.docID).Pairwise (· ≤ ·))
    (hs₂ : (l₂.map h.docID).Pairwise (· ≤ ·)) (hd₁ : l₃.Disjoint l₁) (hd₂ : l₃.Disjoint l₂)
    (hlen : ((l₁.map h.docID : Multiset ℤ) ∩ (l₂.map h.docID : Multiset ℤ)).card ≤ l₃.length) :
    ∃ (n : ℕ) (h' : NodeHeap) (w : List ℤ),
      intersectPostingLists n intersected head1 head2 h = some (some h') ∧
      w.Pairwise (· ≤ ·) ∧
      (w : Multiset ℤ) = (l₁.map h.docID : Multiset ℤ) ∩ (l₂.map h.docID : Multiset ℤ) ∧
      l₃.map h'.docID = w ++ (l₃.map h.docID).drop w.length ∧
      (∀ a ∉ l₃.take w.length, h'.node a = h.node a) ∧
      (∀ a ∈ l₁ ++ l₂, h'.node a = h.node a) ∧
      ∀ a, (h'.node a).map (fun x => (x.next, x.padding)) =
        (h.node a).map fun x => (x.next, x.padding) := by
  have hcoe := SortedInter.coe_inter hs₁ hs₂
  rw [← hcoe, Multiset.coe_card] at hlen
  obtain ⟨n, hn⟩ := intersectRound_ends h₁ h₂ h₃ hd₁ hd₂ hlen
  have hsorted := hs₁.sublist (SortedInter.inter_sublist (l₁.map h.docID) (l₂.map h.docID))
  refine ⟨n, _, _, hn, hsorted, hcoe, ?_, fun a ha => ?_, fun a ha => ?_, ?_⟩
  · exact NodeHeap.docIDs_setDocIDs h₃.nodup (fun a ha => NodeHeap.isSome_of_mem h₃ ha) hlen
  · exact NodeHeap.node_setDocIDs_of_notMem ha
  · refine NodeHeap.node_setDocIDs_of_notMem fun hmem => ?_
    rcases List.mem_append.1 ha with ha | ha
    · exact hd₁ (List.mem_of_mem_take hmem) ha
    · exact hd₂ (List.mem_of_mem_take hmem) ha
  · exact NodeHeap.rest_setDocIDs h l₃ _

/-- Two lists of two nodes, with one `docID` in common. -/
theorem intersectPostingLists_merge_two :
    ∃ (n : ℕ) (h' : NodeHeap),
      intersectPostingLists n (some 4) (some 0) (some 2)
        (heapOf [(1, some 1), (3, none), (3, some 3), (4, none), (7, some 5), (8, none)]) =
          some (some h') ∧
      [4, 5].map h'.docID = [3, 8] := by
  obtain ⟨n, h', w, hn, -, hw, hids, -⟩ := intersectPostingLists_merge
    (heapOf [(1, some 1), (3, none), (3, some 3), (4, none), (7, some 5), (8, none)])
    (some 0) (some 2) (some 4) [0, 1] [2, 3] [4, 5]
    ⟨rfl, _, rfl, rfl, _, rfl, rfl⟩ ⟨rfl, _, rfl, rfl, _, rfl, rfl⟩ ⟨rfl, _, rfl, rfl, _, rfl, rfl⟩
    (by decide) (by decide) (by simp) (by simp) (by decide)
  obtain rfl : w = [3] := Multiset.coe_eq_singleton.1 (hw.trans (by decide))
  exact ⟨n, h', hn, hids⟩

/-! ## What the traversal visits -/

theorem llSimpleRound_ends {h : NodeHeap} {p : Option ℕ} {l : List ℕ} (hl : h.links.IsList p l)
    (visited : List ℤ) :
    DoWhile.Ends (llSimpleRound h) ⟨p, visited⟩ (some (visited ++ l.map h.docID)) := by
  induction l generalizing p visited with
  | nil =>
      obtain rfl := hl
      exact DoWhile.ends_of_inl (by simp [llSimpleRound])
  | cons a l ih =>
      obtain ⟨n, rfl, hn, ht⟩ := NodeHeap.isList_cons hl
      refine .head (t := ⟨n.next, visited ++ [n.docID]⟩) (by simp [llSimpleRound, hn]) ?_
      rw [List.map_cons, NodeHeap.docID_eq hn]
      simpa using ih ht (visited ++ [n.docID])

/-- A request visits what the two lists have in common and then what is left of the list of results;
that is the intersection if and only if the list of results has its length. -/
theorem cpuSimpleRankerRequest_exact_iff (h : NodeHeap)
    (plist1Head plist2Head resultHead : Option ℕ) (requestsCompleted : ℕ) (l₁ l₂ l₃ : List ℕ)
    (h₁ : h.links.IsList plist1Head l₁) (h₂ : h.links.IsList plist2Head l₂)
    (h₃ : h.links.IsList resultHead l₃) (hs₁ : (l₁.map h.docID).Pairwise (· < ·))
    (hs₂ : (l₂.map h.docID).Pairwise (· < ·)) (hd₁ : l₃.Disjoint l₁) (hd₂ : l₃.Disjoint l₂)
    (hlen : ((l₁.map h.docID : Multiset ℤ) ∩ (l₂.map h.docID : Multiset ℤ)).card ≤ l₃.length) :
    ∃ (n : ℕ) (r : RankerResult) (w : List ℤ),
      cpuSimpleRankerRequest n plist1Head plist2Head resultHead h requestsCompleted =
        some (some r) ∧
      w.Pairwise (· < ·) ∧
      (w : Multiset ℤ) = (l₁.map h.docID : Multiset ℤ) ∩ (l₂.map h.docID : Multiset ℤ) ∧
      r.visited = w ++ (l₃.map h.docID).drop w.length ∧
      r.requestsCompleted = requestsCompleted + 1 ∧
      (r.visited = w ↔ l₃.length =
        ((l₁.map h.docID : Multiset ℤ) ∩ (l₂.map h.docID : Multiset ℤ)).card) := by
  have hcoe := SortedInter.coe_inter (hs₁.imp le_of_lt) (hs₂.imp le_of_lt)
  rw [← hcoe, Multiset.coe_card] at hlen ⊢
  obtain ⟨n, hn⟩ := intersectRound_ends h₁ h₂ h₃ hd₁ hd₂ hlen
  have hids := NodeHeap.docIDs_setDocIDs h₃.nodup (fun a ha => NodeHeap.isSome_of_mem h₃ ha) hlen
  have hlinks := h.links_setDocIDs l₃ (SortedInter.inter (l₁.map h.docID) (l₂.map h.docID))
  obtain ⟨m, hm⟩ := llSimpleRound_ends (hlinks ▸ h₃) []
  rw [hids, List.nil_append] at hm
  refine ⟨max n m, ⟨h.setDocIDs l₃ (SortedInter.inter (l₁.map h.docID) (l₂.map h.docID)), _,
    requestsCompleted + 1⟩, _, ?_, hs₁.sublist (SortedInter.inter_sublist _ _), rfl, rfl, rfl, ?_⟩
  · unfold cpuSimpleRankerRequest intersectPostingLists llSimple
    rw [DoWhile.run_mono hn (le_max_left n m)]
    simp only [DoWhile.run_mono hm (le_max_right n m), Option.map_some]
  · rw [List.append_right_eq_self, List.drop_eq_nil_iff, List.length_map]
    omega

/-- One `docID` in common, and one node for it. -/
theorem cpuSimpleRankerRequest_exact_one :
    ∃ (n : ℕ) (r : RankerResult),
      cpuSimpleRankerRequest n (some 0) (some 2) (some 3)
        (heapOf [(1, some 1), (3, none), (3, none), (7, none)]) 0 = some (some r) ∧
      r.visited = [3] := by
  obtain ⟨n, r, w, hn, -, hw, -, -, hexact⟩ := cpuSimpleRankerRequest_exact_iff
    (heapOf [(1, some 1), (3, none), (3, none), (7, none)]) (some 0) (some 2) (some 3) 0
    [0, 1] [2] [3] ⟨rfl, _, rfl, rfl, _, rfl, rfl⟩ ⟨rfl, _, rfl, rfl⟩ ⟨rfl, _, rfl, rfl⟩
    (by decide) (by decide) (by simp) (by simp) (by decide)
  obtain rfl : w = [3] := Multiset.coe_eq_singleton.1 (hw.trans (by decide))
  exact ⟨n, r, hn, hexact.2 (by decide)⟩

/-- For lists that have nothing in common, what is in the list of results is visited. -/
theorem cpuSimpleRankerRequest_leftover :
    (cpuSimpleRankerRequest 3 (some 0) (some 1) (some 2)
        (heapOf [(1, none), (2, none), (7, none)]) 0).map (·.map RankerResult.visited) =
      some (some [7]) ∧
    ((([1] : List ℤ) : Multiset ℤ) ∩ (([2] : List ℤ) : Multiset ℤ)) = 0 := by
  decide

end XMPGym
