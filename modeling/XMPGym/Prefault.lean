import XMPGym.Lib.Pages
import XMPGym.PayloadGen

/-!
# Prefaulting

`write_prefault` (`three_phase_composable.cpp`) and the same loop in `three_func_allocator` and
`null_two_func_allocator` (`src/three_phase_components.cpp`).  The loop goes through a buffer in
strides of 4096 bytes from its first byte, not from the beginning of its first page, and adds to an
`int` until that is past the size.
-/

namespace XMPGym

/-! ## The loop -/

/-- The loop variable, and memory. -/
structure PrefaultState (m : ByteMem) where
  i : ℤ
  mem : WriteLog m

section loop

variable {m : ByteMem} (n buf : ℕ) (size : ℤ)

/-- A round of `for(int i = 0; i < size; i+=4096)`; `none` when `i` overflows. -/
def prefaultRound (s : PrefaultState m) : Option (WriteLog m) ⊕ PrefaultState m :=
  if s.i < size then
    let mem := s.mem.store (buf + s.i.toNat) 0
    match addInt s.i 4096 with
    | some i => .inr ⟨i, mem⟩
    | none => .inl none
  else .inl (some s.mem)

/-- The loop, with at most `n` rounds. -/
def prefaultLoop (t : WriteLog m) : Option (Option (WriteLog m)) :=
  DoWhile.run (prefaultRound buf size) n ⟨0, t⟩

/-- `write_prefault` -/
def writePrefault : WriteLog m → Option (Option (WriteLog m)) := prefaultLoop n buf size

/-- The loop of `three_func_allocator`, over `ax_func_output`. -/
def threeFuncPrefault : WriteLog m → Option (Option (WriteLog m)) := prefaultLoop n buf size

/-- The loop of `null_two_func_allocator`, over `ax_func_output`. -/
def nullTwoFuncPrefault : WriteLog m → Option (Option (WriteLog m)) := prefaultLoop n buf size

end loop

/-! ## The buffers -/

/-- The places where a buffer is prefaulted: an allocator, and the buffer where it has several. -/
inductive PrefaultSite where
  | threeFunc
  | nullTwoFunc
  | axcoreAxcorePreProcOutput
  | axcoreAxcoreAxFuncOutput
  | memcpyCompGpcoreAxcoreNull
  | axcoreAxcoreCompressAecsPreProcOutput
  | axcoreAxcoreCompressAecsAxFuncOutput
  deriving DecidableEq, Repr

namespace PrefaultSite

/-- The alignment that is asked for, where `malloc` gives multiples of `mallocAlignment`. -/
def alignment (mallocAlignment : ℕ) : PrefaultSite → ℕ
  | nullTwoFunc => mallocAlignment
  | axcoreAxcoreCompressAecsPreProcOutput | axcoreAxcoreCompressAecsAxFuncOutput => 32
  | _ => 4096

/-- The loop that is run. -/
def loop {m : ByteMem} : PrefaultSite → (n buf : ℕ) → (size : ℤ) → WriteLog m →
    Option (Option (WriteLog m))
  | threeFunc => threeFuncPrefault
  | nullTwoFunc => nullTwoFuncPrefault
  | _ => writePrefault

/-- What a loop over a buffer is for: it ends, without overflow, a byte of each page with a byte of
the buffer is written, and none outside. -/
def Prefaults (site : PrefaultSite) (m : ByteMem) (buf : ℕ) (size : ℤ) : Prop :=
  ∃ (n : ℕ) (t : WriteLog m), site.loop n buf size (.start m) = some (some t) ∧
    Pages.Touches 4096 {x | x ∈ t.written} buf size.toNat ∧
    ∀ x ∈ t.written, buf ≤ x ∧ (x : ℤ) < buf + size

end PrefaultSite

/-! ## A run of the loop -/

section run

variable {m : ByteMem} {buf : ℕ} {size : ℤ} {s : PrefaultState m}

/-- The first `k` stops have been written and nothing else, and the loop variable is at the next
one. -/
structure Walked (buf : ℕ) (size : ℤ) (k : ℕ) (s : PrefaultState m) : Prop where
  index : s.i = (4096 * k : ℕ)
  fits : 4096 * k + 4096 ≤ 2 ^ 31
  within : ∀ j < k, ((4096 * j : ℕ) : ℤ) < size
  written : ∀ x, x ∈ s.mem.written ↔ ∃ j < k, x = buf + 4096 * j

theorem walked_start (m : ByteMem) (buf : ℕ) (size : ℤ) :
    Walked buf size 0 (⟨0, .start m⟩ : PrefaultState m) where
  index := rfl
  fits := by decide
  within _ hj := absurd hj (Nat.not_lt_zero _)
  written _ := ⟨fun h => absurd h List.not_mem_nil, fun ⟨_, hj, _⟩ => absurd hj (Nat.not_lt_zero _)⟩

theorem prefaultRound_of_le (h : size ≤ s.i) : prefaultRound buf size s = .inl (some s.mem) :=
  if_neg (not_lt.2 h)

theorem Walked.round {k : ℕ} (h : Walked buf size k s) (hlt : s.i < size)
    (hfits : 4096 * k + 4096 < 2 ^ 31) :
    prefaultRound buf size s =
      .inr ⟨(4096 * (k + 1) : ℕ), s.mem.store (buf + 4096 * k) 0⟩ := by
  have hnext : addInt (4096 * k : ℕ) 4096 = some ((4096 * (k + 1) : ℕ) : ℤ) := by
    rw [addInt_of_lt (by omega) (by omega)]
    congr 1
  rw [prefaultRound, if_pos hlt, h.index, hnext, Int.toNat_natCast]

theorem Walked.overflow {k : ℕ} (h : Walked buf size k s) (hlt : s.i < size)
    (hfits : 2 ^ 31 ≤ 4096 * k + 4096) : prefaultRound buf size s = .inl none := by
  rw [prefaultRound, if_pos hlt, h.index, addInt_of_le (by omega)]

/-- A round that goes on writes the next stop. -/
theorem Walked.next {k : ℕ} (h : Walked buf size k s) (hlt : s.i < size)
    (hfits : 4096 * k + 4096 < 2 ^ 31) :
    Walked buf size (k + 1)
      (⟨(4096 * (k + 1) : ℕ), s.mem.store (buf + 4096 * k) 0⟩ : PrefaultState m) where
  index := rfl
  fits := by omega
  within j hj := by
    rcases Nat.lt_succ_iff_lt_or_eq.1 hj with hj | rfl
    · exact h.within j hj
    · exact h.index ▸ hlt
  written x := by
    rw [WriteLog.store, List.mem_cons, h.written]
    constructor
    · rintro (rfl | ⟨j, hj, rfl⟩)
      · exact ⟨k, Nat.lt_succ_self k, rfl⟩
      · exact ⟨j, Nat.lt_succ_of_lt hj, rfl⟩
    · rintro ⟨j, hj, rfl⟩
      rcases Nat.lt_succ_iff_lt_or_eq.1 hj with hj | rfl
      · exact .inr ⟨j, hj, rfl⟩
      · exact .inl rfl

/-- At the end all stops have been written. -/
theorem Walked.mem_written_iff {k : ℕ} (h : Walked buf size k s) (hle : size ≤ s.i) (x : ℕ) :
    x ∈ s.mem.written ↔ x ∈ Pages.stops 4096 buf size.toNat := by
  have hend := h.index
  rw [h.written]
  constructor
  · rintro ⟨j, hj, rfl⟩
    have := h.within j hj
    exact ⟨j, by omega, rfl⟩
  · rintro ⟨j, hj, rfl⟩
    exact ⟨j, by omega, rfl⟩

/-- The loop ends, and overflows if and only if the size is above the last multiple of 4096 in an
`int`. -/
theorem prefaultRound_ends (m : ByteMem) (buf : ℕ) (size : ℤ) :
    ∃ r, DoWhile.Ends (prefaultRound buf size) (⟨0, .start m⟩ : PrefaultState m) r ∧
      (size ≤ 2 ^ 31 - 4096 → ∃ t : WriteLog m,
        r = some t ∧ ∀ x, x ∈ t.written ↔ x ∈ Pages.stops 4096 buf size.toNat) ∧
      (2 ^ 31 - 4096 < size → r = none) := by
  refine DoWhile.exists_ends_with (fun s => ∃ k, Walked buf size k s) _
    (fun s => size.toNat - s.i.toNat) ?_ ?_ ⟨0, walked_start m buf size⟩
  · rintro s r ⟨k, h⟩ hlast
    have hindex := h.index
    have hfits := h.fits
    rcases lt_or_ge s.i size with hlt | hle
    · rcases Nat.lt_or_ge (4096 * k + 4096) (2 ^ 31) with hnext | hover
      · cases (h.round hlt hnext).symm.trans hlast
      · obtain rfl := Sum.inl.inj ((h.overflow hlt hover).symm.trans hlast)
        exact ⟨fun hsmall => absurd hsmall (by omega), fun _ => rfl⟩
    · obtain rfl := Sum.inl.inj ((prefaultRound_of_le hle).symm.trans hlast)
      exact ⟨fun _ => ⟨s.mem, rfl, h.mem_written_iff hle⟩, fun hlarge => absurd hlarge (by omega)⟩
  · rintro s t ⟨k, h⟩ hround
    have hindex := h.index
    rcases lt_or_ge s.i size with hlt | hle
    · rcases Nat.lt_or_ge (4096 * k + 4096) (2 ^ 31) with hnext | hover
      · obtain rfl := Sum.inr.inj ((h.round hlt hnext).symm.trans hround)
        exact ⟨⟨k + 1, h.next hlt hnext⟩, by simp only; omega⟩
      · cases (h.overflow hlt hover).symm.trans hround
    · cases (prefaultRound_of_le hle).symm.trans hround

end run

namespace PrefaultSite

variable (site : PrefaultSite) (m : ByteMem) (buf : ℕ) {size : ℤ}

theorem loop_eq {m : ByteMem} (n buf : ℕ) (size : ℤ) (t : WriteLog m) :
    site.loop n buf size t = prefaultLoop n buf size t := by
  cases site <;> rfl

/-- A loop does what it is for exactly when it has a stop in the last page, and does not
overflow. -/
theorem prefaults_iff (hsize : 1 ≤ size) :
    site.Prefaults m buf size ↔
      (buf : ℤ) % 4096 + (size - 1) % 4096 < 4096 ∧ size ≤ 2 ^ 31 - 4096 := by
  obtain ⟨r, hr, hsmall, hlarge⟩ := prefaultRound_ends m buf size
  have hlast : Pages.Touches 4096 (Pages.stops 4096 buf size.toNat) buf size.toNat ↔
      (buf : ℤ) % 4096 + (size - 1) % 4096 < 4096 := by
    rw [Pages.touches_stops_iff (by decide) (Nat.le_refl _) (by omega)]
    omega
  rw [← hlast]
  constructor
  · rintro ⟨n, t, hn, htouches, -⟩
    rw [loop_eq] at hn
    obtain rfl := hr.unique ⟨n, hn⟩
    rcases le_or_gt size (2 ^ 31 - 4096) with hle | hlt
    · obtain ⟨t', ht', hwritten⟩ := hsmall hle
      obtain rfl := Option.some.inj ht'
      have hstops : {x | x ∈ t.written} = Pages.stops 4096 buf size.toNat := Set.ext hwritten
      exact ⟨hstops ▸ htouches, hle⟩
    · cases hlarge hlt
  · rintro ⟨htouches, hle⟩
    obtain ⟨n, hn⟩ := hr
    obtain ⟨t, rfl, hwritten⟩ := hsmall hle
    have hstops : {x | x ∈ t.written} = Pages.stops 4096 buf size.toNat := Set.ext hwritten
    refine ⟨n, t, (loop_eq site n buf size _).trans hn, hstops ▸ htouches, fun x hx => ?_⟩
    have := Pages.mem_of_mem_stops ((hwritten x).1 hx)
    omega

/-- In an aligned buffer the last stop is always in the last page. -/
theorem prefaults_iff_of_dvd (hsize : 1 ≤ size) (hbuf : 4096 ∣ buf) :
    site.Prefaults m buf size ↔ size ≤ 2 ^ 31 - 4096 := by
  rw [prefaults_iff site m buf hsize]
  omega

end PrefaultSite

/-! ## The buffers that are prefaulted -/

/-- A buffer is prefaulted if and only if its offset in its page and that of the last byte from the
last stop are less than a page together, and the size is not above the last multiple of 4096 in an
`int`.  The first is so wherever the allocator asks for the alignment of a page. -/
theorem writePrefault_prefaults_iff (mallocAlignment : ℕ) (site : PrefaultSite) (m : ByteMem)
    (buf : Aligned (site.alignment mallocAlignment)) (size : ℤ) (hsize : 1 ≤ size) :
    (site.Prefaults m buf size ↔
      ((buf : ℕ) : ℤ) % 4096 + (size - 1) % 4096 < 4096 ∧ size ≤ 2 ^ 31 - 4096) ∧
    (4096 ∣ site.alignment mallocAlignment →
      (site.Prefaults m buf size ↔ size ≤ 2 ^ 31 - 4096)) :=
  ⟨site.prefaults_iff m buf hsize,
    fun hpage => site.prefaults_iff_of_dvd m buf hsize (hpage.trans buf.2)⟩

/-- A page-aligned output of four pages, and one that begins 32 bytes into its page and ends in
it. -/
theorem writePrefault_prefaults_four :
    PrefaultSite.threeFunc.Prefaults (fun _ => 0) 4096 16384 ∧
      PrefaultSite.axcoreAxcoreCompressAecsAxFuncOutput.Prefaults (fun _ => 0) 4128 4000 :=
  ⟨((writePrefault_prefaults_iff 16 .threeFunc (fun _ => 0) ⟨4096, by decide⟩ 16384
      (by decide)).2 (by decide)).2 (by decide),
    (writePrefault_prefaults_iff 16 .axcoreAxcoreCompressAecsAxFuncOutput (fun _ => 0)
      ⟨4128, by decide⟩ 4000 (by decide)).1.2 (by decide)⟩

/-- A buffer from `malloc` that begins 16 bytes into a page has its last bytes in a page that is not
written, and so has one of 2 MiB that begins 32 bytes into a page; and with the largest `int` the
loop variable overflows. -/
theorem writePrefault_misses :
    (16 ∣ 4112 ∧ ¬ PrefaultSite.nullTwoFunc.Prefaults (fun _ => 0) 4112 4096) ∧
      (32 ∣ 4128 ∧ ¬ PrefaultSite.axcoreAxcoreCompressAecsAxFuncOutput.Prefaults (fun _ => 0) 4128
        2097152) ∧
      ¬ PrefaultSite.threeFunc.Prefaults (fun _ => 0) 4096 2147483647 := by
  refine ⟨⟨by decide, fun h => ?_⟩, ⟨by decide, fun h => ?_⟩, fun h => ?_⟩ <;>
    exact absurd ((PrefaultSite.prefaults_iff _ _ _ (by decide)).1 h) (by decide)

end XMPGym
