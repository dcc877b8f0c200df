import XMPGym.EmulQueue

/-!
# The latency of the emulated accelerator

`nonblocking_emul_ax` completes one entry in an iteration, and none before its deadline.  An entry
whose deadline has passed is completed before the loop has been entered once for each entry ahead of
it and twice more, whatever is submitted in the meantime.
-/

open Relation Transition

namespace XMPGym

variable {p : AxParams} {s s' : EmulSys} {m : ℕ}

/-- The entry accepted as number `m` is due and has not been completed. -/
structure Overdue (m : ℕ) (s : EmulSys) : Prop where
  due : ∃ e, (acceptedIn s.history)[m]? = some e ∧ e.compTime ≤ s.clock
  waits : (completedIn s.history).length ≤ m

/-- The most steps that the thread makes before it completes an entry that is due. -/
def EmulPc.left : EmulPc → ℕ
  | .complete _ => 1
  | .time => 2
  | .top => 3
  | .count | .release | .rejectRelease => 4
  | .push _ _ | .rejectStatus | .resetTotal => 5
  | .acceptRelease _ _ => 6
  | .loadAddr _ => 7
  | .acceptStatus _ => 8
  | .stamp => 9
  | .poll => 10
  | .undefined | .exited => 0

/-- The front entry is due when one behind it is. -/
theorem QueueInv.front_due (h : QueueInv p s) (ho : Overdue m s) :
    s.frame.offloadInFlightList ≠ [] ∧ s.frame.nextOffloadCompletionTime ≤ s.clock := by
  obtain ⟨q, hq⟩ := h.queue
  obtain ⟨e, he, hdue⟩ := ho.due
  have hwaits := ho.waits
  rw [← hq.accepted, q.getElem?_accepted (by rwa [hq.completed])] at he
  cases hl : s.frame.offloadInFlightList with
  | nil =>
      rw [hq.list, hl] at he
      cases he
  | cons e₀ rest =>
      refine ⟨List.cons_ne_nil _ _, ?_⟩
      rw [h.agrees.deadline e₀ (by rw [hl]; rfl)]
      exact (q.head_le (by rw [hq.list, hl]; rfl) he).trans hdue

/-- The thread completes one entry, or it gets nearer to that. -/
theorem QueueInv.emul_left (h : QueueInv p s) (ho : Overdue m s)
    (hrun : s.shared.axRunning = true) (hpc : s.frame.pc ≠ .exited) :
    (completedIn (s.emul p).history).length = (completedIn s.history).length + 1 ∨
      completedIn (s.emul p).history = completedIn s.history ∧
        (s.emul p).frame.pc.left < s.frame.pc.left := by
  obtain ⟨hl, hdue⟩ := h.front_due ho
  have hflag := h.agrees.flag.2 hl
  cases hx : s.frame.pc with
  | complete t =>
      obtain ⟨e, rest, hl⟩ := List.exists_cons_of_ne_nil hl
      exact .inl (by simp [EmulSys.emul, emulEvent, hx, hl])
  | undefined => exact absurd h.pcOk (by simp [PcOk, hx])
  | exited => exact absurd hx hpc
  | top | time =>
      refine .inr ?_
      simp [EmulSys.emul, emulEvent, nonblockingEmulAx, hx, hrun, hflag, hdue, EmulPc.left]
  | poll | stamp =>
      refine .inr ⟨by simp [EmulSys.emul, emulEvent, hx], ?_⟩
      simp only [EmulSys.emul, nonblockingEmulAx, hx]
      split_ifs <;> simp [EmulPc.left]
  | push t c => exact .inr (by simp [EmulSys.emul, emulEvent, nonblockingEmulAx, hx, pushEntry,
      EmulPc.left])
  | resetTotal | release | acceptStatus t | loadAddr t | acceptRelease t c | count | rejectStatus
  | rejectRelease =>
      exact .inr (by simp [EmulSys.emul, emulEvent, nonblockingEmulAx, hx, EmulPc.left])

/-! ## Steps with the number of iterations -/

/-- The step enters the body of the loop. -/
def Enters (s s' : EmulSys) : Prop :=
  s.frame.pc = .top ∧ (s'.frame.pc = .time ∨ s'.frame.pc = .poll)

instance (s s' : EmulSys) : Decidable (Enters s s') :=
  inferInstanceAs (Decidable (_ ∧ (_ ∨ _)))

/-- A step, with the number of times that the body of the loop has been entered. -/
def CountedStep (p : AxParams) (a b : EmulSys × ℕ) : Prop :=
  BoundedStep p a.1 b.1 ∧ b.2 = a.2 + if Enters a.1 b.1 then 1 else 0

/-- The entry of this iteration is still to be completed. -/
def inBody : EmulPc → ℕ
  | .time | .complete _ => 1
  | _ => 0

/-- A history is only added to, and the clock does not go back. -/
theorem EmulSys.Step.grows (h : EmulSys.Step p s s') :
    s.history <+: s'.history ∧ s.clock ≤ s'.clock := by
  cases h with
  | emul => exact ⟨List.prefix_append _ _, Nat.le_refl _⟩
  | tick t ht => exact ⟨List.prefix_rfl, ht⟩
  | env sh => exact ⟨List.prefix_rfl, Nat.le_refl _⟩

theorem acceptedIn_getElem?_of_grows {h h' : List EmulEvent} (hp : h <+: h') {e : OffloadEntry}
    (he : (acceptedIn h)[m]? = some e) : (acceptedIn h')[m]? = some e := by
  obtain ⟨t, rfl⟩ := hp
  rw [acceptedIn_append, List.getElem?_append_left (List.getElem?_eq_some_iff.1 he).1]
  exact he

/-- What is completed under number `m` is what was accepted under it. -/
theorem QueueInv.completedIn_getElem? (h : QueueInv p s) {e : OffloadEntry}
    (he : (acceptedIn s.history)[m]? = some e) (hm : m < (completedIn s.history).length) :
    ∃ t, (completedIn s.history)[m]? = some (e, t) := by
  obtain ⟨q, hq⟩ := h.queue
  rw [← hq.accepted] at he
  rw [← hq.completed] at hm ⊢
  exact q.getElem?_served he hm

/-- Entry number `m` is due, and it is completed or one more entry than the first `c` has been for
each time that the body was entered. -/
structure Advanced (p : AxParams) (m c : ℕ) (e : OffloadEntry) (a : EmulSys × ℕ) : Prop where
  clock : a.1.clock + p.offloadTime < 2 ^ 64
  queue : QueueInv p a.1
  entry : (acceptedIn a.1.history)[m]? = some e
  due : e.compTime ≤ a.1.clock
  since : m < (completedIn a.1.history).length ∨
    c + a.2 ≤ (completedIn a.1.history).length + inBody a.1.frame.pc

/-- A step of the thread: the body is not entered again before the entry of this iteration is
completed. -/
theorem Advanced.emul_since {c n : ℕ} {e : OffloadEntry} (h : Advanced p m c e (s, n)) :
    m < (completedIn (s.emul p).history).length ∨
      c + (n + if Enters s (s.emul p) then 1 else 0) ≤
        (completedIn (s.emul p).history).length + inBody (s.emul p).frame.pc := by
  obtain ⟨-, hq, he, hdue, hsince⟩ := h
  simp only at hq he hdue hsince
  have hgrow : (completedIn s.history).length ≤ (completedIn (s.emul p).history).length := by
    simp [EmulSys.emul]
  by_cases hwaits : (completedIn s.history).length ≤ m
  · obtain ⟨hl, hnext⟩ := hq.front_due ⟨⟨e, he, hdue⟩, hwaits⟩
    have hflag := hq.agrees.flag.2 hl
    have hsince := hsince.resolve_left (by omega)
    right
    cases hx : s.frame.pc with
    | complete t =>
        obtain ⟨e', rest, hl⟩ := List.exists_cons_of_ne_nil hl
        have hone : (completedIn (s.emul p).history).length =
            (completedIn s.history).length + 1 := by simp [EmulSys.emul, emulEvent, hx, hl]
        simp only [hx, inBody] at hsince
        simp only [Enters, hx, reduceCtorEq, false_and, if_false]
        omega
    | top =>
        simp only [hx, inBody] at hsince
        cases hrun : s.shared.axRunning <;>
          simp [Enters, EmulSys.emul, nonblockingEmulAx, emulEvent, hx, hrun, hflag, inBody] <;>
          omega
    | time =>
        simp only [hx, inBody] at hsince
        simp [Enters, EmulSys.emul, nonblockingEmulAx, emulEvent, hx, hnext, inBody]
        omega
    | _ =>
        simp only [hx, inBody] at hsince
        simp only [Enters, hx, reduceCtorEq, false_and, if_false]
        omega
  · exact .inl (by omega)

/-- Only the thread enters the body. -/
theorem not_enters (h : s'.frame = s.frame) : ¬ Enters s s' := by
  rintro ⟨h₁, h₂⟩
  rw [h, h₁] at h₂
  simp at h₂

theorem preserved_advanced (m c : ℕ) (e : OffloadEntry) :
    Preserved (CountedStep p) (Advanced p m c e) := by
  rintro ⟨s, n⟩ ⟨s', n'⟩ ⟨hs, hn⟩ h
  change n' = n + if Enters s s' then 1 else 0 at hn
  subst hn
  obtain ⟨hgrow, hle⟩ := hs.1.grows
  obtain ⟨hb, hq⟩ := preserved_queueInv hs ⟨h.clock, h.queue⟩
  refine ⟨hb, hq, acceptedIn_getElem?_of_grows hgrow h.entry, h.due.trans hle, ?_⟩
  cases hs.1 with
  | emul => exact h.emul_since
  | tick t ht =>
      have hnot : ¬ Enters s { s with clock := t } := not_enters rfl
      simpa only [hnot, if_false, Nat.add_zero] using h.since
  | env sh =>
      have hnot : ¬ Enters s { s with shared := sh } := not_enters rfl
      simpa only [hnot, if_false, Nat.add_zero] using h.since

/-- What is completed in a run was completed by one of its steps. -/
theorem exists_completes {s₀ : EmulSys} (h₀ : completedIn s₀.history = [])
    (hr : ReflTransGen (BoundedStep p) s₀ s) {e : OffloadEntry} {t : ℕ}
    (hm : (completedIn s.history)[m]? = some (e, t)) :
    ∃ u, ReflTransGen (BoundedStep p) s₀ u ∧ (completedIn u.history).length = m ∧
      u.Completes p e t ∧ ReflTransGen (BoundedStep p) (u.emul p) s := by
  induction hr with
  | refl => simp [h₀] at hm
  | @tail s s' hr hs ih =>
      have before (h : (completedIn s.history)[m]? = some (e, t)) :
          ∃ u, ReflTransGen (BoundedStep p) s₀ u ∧ (completedIn u.history).length = m ∧
            u.Completes p e t ∧ ReflTransGen (BoundedStep p) (u.emul p) s' := by
        obtain ⟨u, hu, hlen, hc, hr'⟩ := ih h
        exact ⟨u, hu, hlen, hc, hr'.tail hs⟩
      cases hs.1 with
      | emul =>
          rcases EmulSys.completedIn_emul hm with h | ⟨hlen, hc⟩
          · exact before h
          · exact ⟨s, hr, hlen, hc, .refl⟩
      | tick t ht => exact before hm
      | env sh => exact before hm

/-- An accepted offload whose deadline has passed is completed, and its record written, before the
loop of `nonblocking_emul_ax` has been entered two times more than there are entries ahead of it,
and before it has been entered once more than `max_inflights` times, whatever is submitted, whatever
the other threads write and whatever the clock does in the meantime. -/
theorem nonblockingEmulAx_latency (p : AxParams) {s₀ s s' : EmulSys} {m n : ℕ} {e : OffloadEntry}
    (h₀ : s₀.Started p) (hr : ReflTransGen (BoundedStep p) s₀ s)
    (he : (acceptedIn s.history)[m]? = some e) (hdue : e.compTime ≤ s.clock)
    (hr' : ReflTransGen (CountedStep p) (s, 0) (s', n))
    (hn : m + 2 ≤ (completedIn s.history).length + n ∨ p.maxInflights.toNat + 1 ≤ n) :
    ∃ u t, ReflTransGen (BoundedStep p) s₀ u ∧ u.Completes p e t ∧
      (u.emul p).shared.comps e.comp = compStatusCompleted ∧
      ReflTransGen (BoundedStep p) (u.emul p) s' := by
  obtain ⟨hb, h⟩ := preserved_queueInv.run hr ⟨h₀.bound, h₀.queueInv⟩
  have hstart : Advanced p m (completedIn s.history).length e (s, 0) :=
    ⟨hb, h, he, hdue, .inr (Nat.le_add_right _ _)⟩
  have hend := (preserved_advanced m _ e).run hr' hstart
  have hdone : m < (completedIn s'.history).length := by
    by_contra hwaits
    have hsince := hend.since.resolve_left hwaits
    simp only at hsince hwaits
    have hbody : inBody s'.frame.pc ≤ 1 := by
      unfold inBody
      split <;> omega
    rcases hn with hn | hn
    · omega
    · -- no more entries wait than there is room for
      obtain ⟨q, hq⟩ := h.queue
      have hcap := q.bounded
      have hlt := (List.getElem?_eq_some_iff.1 he).1
      rw [q.length_waiting, hq.accepted, hq.completed] at hcap
      omega
  obtain ⟨t, ht⟩ := hend.queue.completedIn_getElem? hend.entry hdone
  obtain ⟨u, hu, -, hc, hr''⟩ := exists_completes (by simp [h₀.history])
    (hr.trans (hr'.lift Prod.fst fun _ _ h => h.1)) ht
  exact ⟨u, t, hu, hc, by rw [hc.comps, Function.update_self], hr''⟩

/-! ## A run of the thread alone -/

/-- The thread moves, and entering the body is counted. -/
def countedEmul (p : AxParams) (a : EmulSys × ℕ) : EmulSys × ℕ :=
  (a.1.emul p, a.2 + if Enters a.1 (a.1.emul p) then 1 else 0)

theorem countedEmul_run (a : EmulSys × ℕ) (h : a.1.clock + p.offloadTime < 2 ^ 64) (n : ℕ) :
    ReflTransGen (CountedStep p) a ((countedEmul p)^[n] a) := by
  induction n generalizing a with
  | zero => exact .refl
  | succ n ih => exact .head (b := countedEmul p a) ⟨⟨.emul _, h⟩, rfl⟩ (ih _ h)

/-- The entry is completed before the loop is entered a third time. -/
theorem nonblockingEmulAx_latency_one :
    ∃ u t, ReflTransGen (BoundedStep oneSlot) startedSys u ∧ u.Completes oneSlot ⟨3, 8, 7⟩ t ∧
      (u.emul oneSlot).shared.comps 7 = compStatusCompleted ∧
      ReflTransGen (BoundedStep oneSlot) (u.emul oneSlot)
        ((countedEmul oneSlot)^[6] (dueSys, 0)).1 :=
  nonblockingEmulAx_latency (m := 0) oneSlot ⟨rfl, rfl, by decide⟩ dueSys_run rfl (by decide)
    (countedEmul_run (dueSys, 0) (by decide) 6) (.inr (by decide))

end XMPGym
