import XMPGym.Lib.ByteMem

/-!
# Writes to byte-addressed memory

Memory that remembers at which addresses it has been written.  Everywhere else it is what it was.
-/

/-- What has become of the memory `m`, and the addresses that were written. -/
structure WriteLog (m : ByteMem) where
  mem : ByteMem
  written : List ℕ
  frame : ∀ x, x ∉ written → mem x = m x

namespace WriteLog

variable {m : ByteMem}

/-- Nothing has been written. -/
def start (m : ByteMem) : WriteLog m := ⟨m, [], fun _ _ => rfl⟩

/-- One byte is stored. -/
def store (t : WriteLog m) (a : ℕ) (b : UInt8) : WriteLog m where
  mem := t.mem.store a b
  written := a :: t.written
  frame x hx := by
    obtain ⟨hne, hx⟩ := not_or.1 (mt List.mem_cons.2 hx)
    rw [ByteMem.store_of_ne hne, t.frame x hx]

/-- Bytes are stored one after the other. -/
def writeBytes (t : WriteLog m) (a : ℕ) : List UInt8 → WriteLog m
  | [] => t
  | b :: bs => writeBytes (t.store a b) (a + 1) bs

theorem mem_writeBytes (t : WriteLog m) (a : ℕ) (bs : List UInt8) :
    (t.writeBytes a bs).mem = t.mem.writeBytes a bs := by
  induction bs generalizing t a with
  | nil => rfl
  | cons b bs ih => exact ih (t.store a b) (a + 1)

theorem mem_written_writeBytes {t : WriteLog m} {a x : ℕ} {bs : List UInt8} :
    x ∈ (t.writeBytes a bs).written ↔ x ∈ t.written ∨ a ≤ x ∧ x < a + bs.length := by
  induction bs generalizing t a with
  | nil =>
      rw [writeBytes, List.length_nil]
      exact ⟨.inl, fun h => h.resolve_right (by omega)⟩
  | cons b bs ih =>
      have hsplit : (x = a ∨ a + 1 ≤ x ∧ x < a + 1 + bs.length) ↔
          a ≤ x ∧ x < a + (bs.length + 1) := by omega
      rw [writeBytes, ih, store, List.mem_cons, List.length_cons, or_comm (a := x = a), or_assoc,
        hsplit]

end WriteLog
