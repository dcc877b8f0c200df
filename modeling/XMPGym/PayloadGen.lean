import XMPGym.Lib.DoWhile
import XMPGym.Lib.WriteLog
import XMPGym.Zlib

/-!
# Generated payloads

`gen_compressible_buf` (`src/payload_gen.cpp`), from which the requests get their payloads.  It
copies a string to a buffer again and again, and the last time only as much of it as there is room
for.  A loop has no result when an `int` overflows or when the string is read past its end.
-/

namespace XMPGym

/-- What `aligned_alloc(alignment, size)` may give. -/
abbrev Aligned (alignment : ℕ) := {a : ℕ // alignment ∣ a}

/-! ## Strings -/

/-- A string.  In memory a zero byte comes after its bytes, and none among them. -/
structure CString where
  bytes : Bytes
  nonzero : 0 ∉ bytes

namespace CString

/-- `strlen` -/
def strlen (s : CString) : ℕ := s.bytes.length

/-- What `memcpy` reads of the string, where `n` becomes a `size_t`; `none` when that is more than
the string and its zero byte. -/
def read (s : CString) (n : ℤ) : Option Bytes :=
  if n % 2 ^ 64 ≤ s.strlen + 1 then some ((s.bytes ++ [0]).take n.toNat) else none

theorem read_of_le {s : CString} {n : ℕ} (h : n ≤ s.strlen) (hlen : s.strlen < 2 ^ 31) :
    s.read n = some (s.bytes.take n) := by
  rw [read, if_pos (by omega), Int.toNat_natCast, List.take_append_of_le_length h]

end CString

/-! ## The buffer -/

/-- The variables of `gen_compressible_buf`, and memory. -/
structure CompressibleState (m : ByteMem) where
  i : ℤ
  cpylen : ℤ
  mem : WriteLog m

section compressible

variable {m : ByteMem} (appendString : CString) (payload : ℕ) (inputSize : ℤ)

/-- `if(i + append_strlen > input_size) cpylen = input_size - i` -/
def trimCpylen (s : CompressibleState m) : Option ℤ :=
  (addInt s.i (toInt appendString.strlen)).bind fun stop =>
    if inputSize < stop then addInt inputSize (-s.i) else some s.cpylen

/-- The body of the loop. -/
def compressibleBody (s : CompressibleState m) : Option (CompressibleState m) := do
  let cpylen ← trimCpylen appendString inputSize s
  let bytes ← appendString.read cpylen
  let i ← addInt s.i cpylen
  some ⟨i, cpylen, s.mem.writeBytes (payload + s.i.toNat) bytes⟩

/-- A round of `while(i < input_size)`. -/
def compressibleRound (s : CompressibleState m) : Option (WriteLog m) ⊕ CompressibleState m :=
  if s.i < inputSize then
    match compressibleBody appendString payload inputSize s with
    | some s => .inr s
    | none => .inl none
  else .inl (some s.mem)

end compressible

/-- `gen_compressible_buf`, with at most `n` rounds, where `aligned_alloc` has given `payload`. -/
def genCompressibleBuf (n : ℕ) (appendString : CString) (inputSize : ℤ) (payload : Aligned 32)
    (m : ByteMem) : Option (Option (WriteLog m)) :=
  DoWhile.run (compressibleRound appendString payload inputSize) n
    ⟨0, toInt appendString.strlen, .start m⟩

/-! ## What a round does -/

section rounds

variable {m : ByteMem} {appendString : CString} {payload N : ℕ} {s : CompressibleState m}

/-- The first `i` bytes have been written and no others, and as long as there is room the string has
been copied as a whole. -/
structure Filled (appendString : CString) (payload N i : ℕ) (s : CompressibleState m) : Prop where
  index : s.i = i
  le : i ≤ N
  whole : i < N → appendString.strlen ∣ i ∧ s.cpylen = appendString.strlen
  written : ∀ x, x ∈ s.mem.written ↔ payload ≤ x ∧ x < payload + i
  bytes : ∀ j < i, appendString.bytes[j % appendString.strlen]? = some (s.mem.mem (payload + j))

/-- The number of bytes that are copied at `i`. -/
def copied (appendString : CString) (N i : ℕ) : ℕ := min appendString.strlen (N - i)

/-- The state after a round that copies at `i`. -/
def nextCopy (appendString : CString) (payload N i : ℕ) (s : CompressibleState m) :
    CompressibleState m where
  i := (i + copied appendString N i : ℕ)
  cpylen := copied appendString N i
  mem := s.mem.writeBytes (payload + i) (appendString.bytes.take (copied appendString N i))

/-- A round where there is room copies what fits, without overflow. -/
theorem Filled.round {i : ℕ} (h : Filled appendString payload N i s)
    (hroom : N + appendString.strlen < 2 ^ 31) (hi : i < N) :
    compressibleRound appendString payload N s = .inr (nextCopy appendString payload N i s) := by
  obtain ⟨-, hcpy⟩ := h.whole hi
  have hlen : toInt appendString.strlen = appendString.strlen := toInt_of_lt (by omega)
  have hread : appendString.read (copied appendString N i) =
      some (appendString.bytes.take (copied appendString N i)) :=
    CString.read_of_le (Nat.min_le_left _ _) (by omega)
  have hcpy : trimCpylen appendString N s = some (copied appendString N i : ℤ) := by
    rw [trimCpylen, hlen, h.index, hcpy, addInt_of_lt (by omega) (by omega), Option.bind_some,
      addInt_of_lt (by omega) (by omega)]
    unfold copied
    split_ifs <;> congr 1 <;> omega
  have hnext : addInt i (copied appendString N i) = some (i + copied appendString N i : ℤ) := by
    have : copied appendString N i ≤ N - i := Nat.min_le_right _ _
    exact addInt_of_lt (by omega) (by omega)
  rw [compressibleRound, if_pos (by rw [h.index]; omega), compressibleBody, hcpy]
  simp only [Option.bind_eq_bind, Option.bind_some, hread, hnext, h.index, Int.toNat_natCast,
    nextCopy, Nat.cast_add]

theorem Filled.last {i : ℕ} (h : Filled appendString payload N i s) (hi : N ≤ i) :
    compressibleRound appendString payload N s = .inl (some s.mem) :=
  if_neg (by rw [h.index]; omega)

theorem copied_le (appendString : CString) (N i : ℕ) :
    copied appendString N i ≤ appendString.strlen ∧ copied appendString N i ≤ N - i :=
  ⟨Nat.min_le_left _ _, Nat.min_le_right _ _⟩

theorem length_take_copied (appendString : CString) (N i : ℕ) :
    (appendString.bytes.take (copied appendString N i)).length = copied appendString N i :=
  List.length_take_of_le (copied_le appendString N i).1

/-- The bytes after a round: the ones before it, and the beginning of the string. -/
theorem Filled.bytes_next {i j : ℕ} (h : Filled appendString payload N i s) (hi : i < N)
    (hj : j < i + copied appendString N i) :
    appendString.bytes[j % appendString.strlen]? =
      some ((nextCopy appendString payload N i s).mem.mem (payload + j)) := by
  obtain ⟨hdvd, -⟩ := h.whole hi
  obtain ⟨hcopied, -⟩ := copied_le appendString N i
  rw [nextCopy, WriteLog.mem_writeBytes]
  by_cases hbefore : j < i
  · rw [h.bytes j hbefore, ByteMem.writeBytes_of_outside _ (.inl (by omega))]
  · obtain ⟨d, rfl⟩ := Nat.exists_eq_add_of_le (Nat.le_of_not_lt hbefore)
    have hd : d < (appendString.bytes.take (copied appendString N i)).length := by
      rw [length_take_copied]
      omega
    have hmod : (i + d) % appendString.strlen = d := by
      rw [Nat.add_mod, Nat.mod_eq_zero_of_dvd hdvd, Nat.zero_add, Nat.mod_mod]
      exact Nat.mod_eq_of_lt (by omega)
    rw [hmod, ← Nat.add_assoc, ← ByteMem.writeBytes_getElem? hd,
      List.getElem?_take_of_lt (by omega)]

/-- A round keeps the invariant. -/
theorem Filled.next {i : ℕ} (h : Filled appendString payload N i s) (hi : i < N) :
    Filled appendString payload N (i + copied appendString N i)
      (nextCopy appendString payload N i s) where
  index := rfl
  le := by
    have := (copied_le appendString N i).2
    omega
  whole hlt := by
    have hall : copied appendString N i = appendString.strlen := by
      unfold copied at hlt ⊢
      omega
    rw [nextCopy, hall]
    exact ⟨(Nat.dvd_add_right (h.whole hi).1).2 (Nat.dvd_refl _), rfl⟩
  written x := by
    rw [nextCopy, WriteLog.mem_written_writeBytes, h.written, length_take_copied]
    omega
  bytes _ hj := h.bytes_next hi hj

theorem filled_start (m : ByteMem) (hlen : appendString.strlen < 2 ^ 31) :
    Filled appendString payload N 0 ⟨0, toInt appendString.strlen, .start m⟩ where
  index := rfl
  le := Nat.zero_le N
  whole _ := ⟨Nat.dvd_zero _, toInt_of_lt hlen⟩
  written _ := ⟨fun h => absurd h List.not_mem_nil, fun h => absurd h (by omega)⟩
  bytes _ hj := absurd hj (Nat.not_lt_zero _)

/-- The loop ends, with all of the buffer written and nothing else. -/
theorem compressibleRound_ends (m : ByteMem) (payload : ℕ) {appendString : CString}
    (hpattern : 0 < appendString.strlen) (hroom : N + appendString.strlen < 2 ^ 31) :
    ∃ r, DoWhile.Ends (compressibleRound appendString payload N)
        ⟨0, toInt appendString.strlen, .start m⟩ r ∧
      ∃ t : WriteLog m, r = some t ∧ (∀ x, x ∈ t.written ↔ payload ≤ x ∧ x < payload + N) ∧
        ∀ j < N, appendString.bytes[j % appendString.strlen]? = some (t.mem (payload + j)) := by
  refine DoWhile.exists_ends_with (fun s => ∃ i, Filled appendString payload N i s) _
    (fun s => N - s.i.toNat) ?_ ?_ ⟨0, filled_start m (by omega)⟩
  · rintro s r ⟨i, h⟩ hlast
    rcases Nat.lt_or_ge i N with hi | hi
    · cases (h.round hroom hi).symm.trans hlast
    · obtain rfl : i = N := Nat.le_antisymm h.le hi
      obtain rfl := Sum.inl.inj ((h.last hi).symm.trans hlast)
      exact ⟨s.mem, rfl, h.written, h.bytes⟩
  · rintro s t ⟨i, h⟩ hround
    rcases Nat.lt_or_ge i N with hi | hi
    · obtain rfl := Sum.inr.inj ((h.round hroom hi).symm.trans hround)
      refine ⟨⟨_, h.next hi⟩, ?_⟩
      rw [h.index, (h.next hi).index]
      unfold copied
      omega
    · cases (h.last hi).symm.trans hround

end rounds

/-- The buffer is filled with the string again and again: the loop ends, writes the bytes of the
buffer and no others, and leaves in each the byte of the string at its index modulo the length. -/
theorem genCompressibleBuf_periodic (m : ByteMem) (appendString : CString)
    (hpattern : 0 < appendString.strlen) (inputSize : ℤ) (hsize : 0 ≤ inputSize)
    (hroom : inputSize + appendString.strlen < 2 ^ 31) (payload : Aligned 32) :
    ∃ (n : ℕ) (t : WriteLog m),
      genCompressibleBuf n appendString inputSize payload m = some (some t) ∧
      (∀ x, x ∈ t.written ↔ (payload : ℕ) ≤ x ∧ (x : ℤ) < payload + inputSize) ∧
      ∀ i : ℕ, (i : ℤ) < inputSize →
        appendString.bytes[i % appendString.strlen]? = some (t.mem (payload + i)) := by
  obtain ⟨N, rfl⟩ := Int.eq_ofNat_of_zero_le hsize
  obtain ⟨r, ⟨n, hn⟩, t, rfl, hwritten, hbytes⟩ :=
    compressibleRound_ends (N := N) m payload hpattern (by omega)
  refine ⟨n, t, hn, fun x => ?_, fun i hi => hbytes i (by omega)⟩
  rw [hwritten]
  omega

/-- Ten bytes from a string of three. -/
theorem genCompressibleBuf_periodic_ten :
    ∃ (n : ℕ) (t : WriteLog fun _ => 0),
      genCompressibleBuf n ⟨[97, 98, 99], by decide⟩ 10 ⟨64, by decide⟩ (fun _ => 0) =
        some (some t) ∧
      t.mem 73 = 97 ∧ t.mem 74 = 0 := by
  obtain ⟨n, t, hn, hwritten, hbytes⟩ := genCompressibleBuf_periodic (fun _ => 0)
    ⟨[97, 98, 99], by decide⟩ (by decide) 10 (by decide) (by decide) ⟨64, by decide⟩
  have hend : 74 ∉ t.written := fun h => absurd ((hwritten 74).1 h).2 (by decide)
  exact ⟨n, t, hn, (Option.some.inj (hbytes 9 (by decide))).symm, t.frame 74 hend⟩

end XMPGym
