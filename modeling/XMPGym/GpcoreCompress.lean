import XMPGym.Lib.DoWhile
import XMPGym.Zlib

/-!
# Compression on the CPU

`gpcore_do_compress`, `gpcore_do_decompress` and `gpcore_do_deflate_decompress`
(`inc/inline/gpcore_compress.ipp`) over any zlib.  Each function is given a number of rounds for its
loop, and has no result when that does not suffice.
-/

open Relation

namespace XMPGym

variable {σ : Type*}

/-! ## Decompression -/

section decompress

variable (z : Inflate σ)

/-- A round of `do { ... } while (ret != Z_STREAM_END)`. -/
def inflateRound (s : ZStream σ) : (ZRet × ZStream σ) ⊕ ZStream σ :=
  let r := z.inflate s
  if r.1 = .needDict ∨ r.1 = .dataError ∨ r.1 = .memError then .inl r
  else if r.1 ≠ .streamEnd then .inr r.2
  else .inl r

/-- The two decompression functions: the status, and `stream.total_out` if it is stored. -/
def decompressWith (src : Bytes) (availIn availOut : ℕ) (n : ℕ) : Option (ZRet × Option ℕ) :=
  let (ret, state) := z.inflateInit2
  if ret ≠ .ok then some (ret, none)
  else
    match DoWhile.run (inflateRound z) n (.start src availIn availOut state) with
    | none => none
    | some (ret, s) =>
        if ret = .needDict ∨ ret = .dataError ∨ ret = .memError then some (ret, none)
        else
          let ret := z.inflateEnd s
          if ret ≠ .ok then some (ret, none) else some (ret, some s.totalOut)

/-- `gpcore_do_decompress`: the status, and `*out_len` afterwards. -/
def gpcoreDoDecompress (src : Bytes) (srcLen outLen : ℕ) (n : ℕ) : Option (ZRet × ℕ) :=
  (decompressWith z src srcLen (toUInt (toInt outLen)) n).map fun r => (r.1, r.2.getD outLen)

/-- `gpcore_do_deflate_decompress`: `*out_len` afterwards. -/
def gpcoreDoDeflateDecompress (src : Bytes) (srcLen outLen : ℤ) (n : ℕ) : Option ℤ :=
  (decompressWith z src (toUInt srcLen) (toUInt outLen) n).map fun r =>
    (r.2.map toInt).getD outLen

end decompress

/-! ## Compression -/

/-- What `gpcore_do_compress` returns, `*out_len` afterwards, and the stream as it was left. -/
structure CompressResult (σ : Type*) where
  ret : ZRet
  outLen : ℤ
  stream : ZStream σ

section compress

variable (z : Deflate σ)

/-- A round of `do { ... } while(stream.avail_in > 0 && ret == Z_OK)`. -/
def deflateRound (s : ZStream σ) : (ZRet × ZStream σ) ⊕ ZStream σ :=
  let r := z.deflate s .noFlush
  if 0 < r.2.availIn ∧ r.1 = .ok then .inr r.2 else .inl r

/-- `gpcore_do_compress` -/
def gpcoreDoCompress (src : Bytes) (srcLen outLen : ℤ) (n : ℕ) : Option (CompressResult σ) :=
  let (ret, state) := z.deflateInit2
  let s := ZStream.start src (toUInt srcLen) (toUInt outLen) state
  if ret ≠ .ok then some ⟨ret, outLen, s⟩
  else
    match DoWhile.run (deflateRound z) n s with
    | none => none
    | some (ret, s) =>
        -- the status of this call is overwritten by that of `deflateEnd`
        let s := if ret ≠ .streamEnd then (z.deflate s .finish).2 else s
        let ret := z.deflateEnd s
        if ret ≠ .ok then some ⟨ret, outLen, s⟩ else some ⟨ret, toInt s.totalOut, s⟩

end compress

/-! ## The decompression loop -/

section inflate

variable {z : Inflate σ} {s t : ZStream σ}

theorem inflateRound_eq_inr :
    inflateRound z s = .inr t ↔ (z.inflate s).2 = t ∧
      (z.inflate s).1 ∉ [ZRet.streamEnd, .needDict, .dataError, .memError] := by
  unfold inflateRound
  cases hret : (z.inflate s).1 <;> simp [hret]

theorem inflateRound_eq_inl {r : ZRet × ZStream σ} (h : inflateRound z s = .inl r) :
    z.inflate s = r ∧ r.1 ∈ [ZRet.streamEnd, .needDict, .dataError, .memError] := by
  unfold inflateRound at h
  cases hret : (z.inflate s).1 <;>
    simp only [hret, reduceCtorEq, ne_eq, not_true_eq_false, not_false_eq_true, or_true, true_or,
      or_self, if_true, if_false, Sum.inl.injEq] at h <;>
    subst h <;> exact ⟨rfl, by simp [hret]⟩

theorem ZStream.not_progress_self : ¬ s.Progress s := fun h => Nat.lt_irrefl _ h.2.2

/-- A call that goes on and is not stuck makes progress. -/
theorem goes_iff : z.Goes s t ↔ inflateRound z s = .inr t ∧ s.Progress t := by
  rw [inflateRound_eq_inr]
  exact ⟨fun h => ⟨⟨h.1, h.2.2⟩, h.2.1⟩, fun h => ⟨h.1.1, h.2, h.1.2⟩⟩

section documented

variable (hz : z.Documented)
include hz

/-- A round that goes on makes progress or changes nothing. -/
theorem Inflate.Documented.round (h : inflateRound z s = .inr t) : s.Progress t ∨ t = s := by
  obtain ⟨rfl, hret⟩ := inflateRound_eq_inr.1 h
  rcases hz s with hp | hin | ⟨-, heq⟩
  · exact .inl hp
  · exact absurd hin hret
  · exact .inr heq

/-- The rounds that change nothing may be left out. -/
theorem Inflate.Documented.reaches
    (h : ReflTransGen (DoWhile.Continues (inflateRound z)) s t) : ReflTransGen z.Goes s t := by
  induction h with
  | refl => exact .refl
  | tail _ hstep ih =>
      rcases hz.round hstep with hp | rfl
      · exact ih.tail (goes_iff.2 ⟨hstep, hp⟩)
      · exact ih

/-- A call without progress that goes on is answered by one of the two errors. -/
theorem Inflate.Documented.eq_self_iff :
    inflateRound z t = .inr t ↔
      ¬ t.Progress (z.inflate t).2 ∧ (z.inflate t).1 ∈ [ZRet.streamError, .bufError] := by
  rw [inflateRound_eq_inr]
  constructor
  · rintro ⟨heq, hret⟩
    have hno : ¬ t.Progress (z.inflate t).2 := heq.symm ▸ ZStream.not_progress_self
    refine ⟨hno, ?_⟩
    rcases hz t with hp | hin | ⟨hin, -⟩
    · exact absurd hp hno
    · exact absurd hin hret
    · exact hin
  · rintro ⟨hno, hret⟩
    have hret' : (z.inflate t).1 ∉ [ZRet.streamEnd, .needDict, .dataError, .memError] := by
      intro h
      cases hr : (z.inflate t).1 <;> simp [hr] at h hret
    refine ⟨?_, hret'⟩
    rcases hz t with hp | hin | ⟨-, heq⟩
    · exact absurd hp hno
    · exact absurd hin hret'
    · exact heq

/-- The loop ends unless it gets stuck. -/
theorem Inflate.Documented.exists_ends :
    (∃ r, DoWhile.Ends (inflateRound z) s r) ↔ ¬ z.Stuck s := by
  rw [DoWhile.exists_ends_iff (fun s => s.availIn + s.availOut) fun s t h =>
    (hz.round h).imp_left fun hp => hp.2.2, not_iff_not]
  constructor
  · rintro ⟨t, hr, hstuck⟩
    exact ⟨t, hz.reaches hr, hz.eq_self_iff.1 hstuck⟩
  · rintro ⟨t, hr, hstuck⟩
    exact ⟨t, ReflTransGen.mono (fun _ _ h => (goes_iff.1 h).1) _ _ hr, hz.eq_self_iff.2 hstuck⟩

end documented

/-- The stream was decompressed to its end, from `src` and with room for `availOut` bytes, and had
`total` bytes. -/
def Inflate.Completes (z : Inflate σ) (src : Bytes) (availIn availOut total : ℕ) : Prop :=
  ∃ s t, ReflTransGen (DoWhile.Continues (inflateRound z))
      (.start src availIn availOut z.inflateInit2.2) s ∧
    z.inflate s = (.streamEnd, t) ∧ t.totalOut = total

variable {src : Bytes} {availIn availOut n : ℕ}

/-- The functions store a size only after the end of the stream. -/
theorem decompressWith_stores {ret : ZRet} {total : ℕ}
    (h : decompressWith z src availIn availOut n = some (ret, some total)) :
    z.Completes src availIn availOut total := by
  unfold decompressWith at h
  by_cases hinit : z.inflateInit2.1 = .ok
  · simp only [hinit, ne_eq, not_true_eq_false, if_false] at h
    cases hrun : DoWhile.run (inflateRound z) n
        (.start src availIn availOut z.inflateInit2.2) with
    | none => simp [hrun] at h
    | some r =>
        obtain ⟨s, hs, hlast⟩ := DoWhile.exists_last hrun
        obtain ⟨hcall, hret⟩ := inflateRound_eq_inl hlast
        obtain ⟨ret', t⟩ := r
        simp only [List.mem_cons, List.not_mem_nil, or_false] at hret
        rcases hret with rfl | hret
        · simp only [hrun, reduceCtorEq, or_self, if_false] at h
          by_cases hend : z.inflateEnd t = .ok
          · simp only [hend, not_true_eq_false, if_false, Option.some.injEq, Prod.mk.injEq] at h
            exact ⟨s, t, hs, hcall, h.2⟩
          · simp [hend] at h
        · simp only [hrun, if_pos hret, Option.some.injEq, Prod.mk.injEq, reduceCtorEq,
            and_false] at h
  · simp [hinit] at h

/-- The functions return unless the loop gets stuck. -/
theorem exists_decompressWith (hz : z.Documented) :
    (∃ n r, decompressWith z src availIn availOut n = some r) ↔
      z.inflateInit2.1 ≠ .ok ∨ ¬ z.Stuck (.start src availIn availOut z.inflateInit2.2) := by
  rw [← hz.exists_ends]
  by_cases hinit : z.inflateInit2.1 = .ok
  · have hrun (n : ℕ) : (∃ r, decompressWith z src availIn availOut n = some r) ↔
        ∃ r, DoWhile.run (inflateRound z) n
          (.start src availIn availOut z.inflateInit2.2) = some r := by
      unfold decompressWith
      simp only [hinit, ne_eq, not_true_eq_false, if_false]
      cases DoWhile.run (inflateRound z) n (.start src availIn availOut z.inflateInit2.2) with
      | none => simp
      | some r =>
          refine ⟨fun _ => ⟨r, rfl⟩, fun _ => ?_⟩
          simp only
          split_ifs <;> exact ⟨_, rfl⟩
    simp only [hrun, hinit, ne_eq, not_true_eq_false, false_or, DoWhile.Ends]
    exact exists_comm
  · refine ⟨fun _ => .inl hinit, fun _ => ⟨0, (z.inflateInit2.1, none), ?_⟩⟩
    simp [decompressWith, hinit]

theorem exists_gpcoreDoDecompress {srcLen outLen : ℕ} :
    (∃ n r, gpcoreDoDecompress z src srcLen outLen n = some r) ↔
      ∃ n r, decompressWith z src srcLen (toUInt (toInt outLen)) n = some r := by
  unfold gpcoreDoDecompress
  constructor
  · rintro ⟨n, r, hr⟩
    obtain ⟨r', hr', -⟩ := Option.map_eq_some_iff.1 hr
    exact ⟨n, r', hr'⟩
  · rintro ⟨n, r, hr⟩
    exact ⟨n, _, by rw [hr, Option.map_some]⟩

theorem exists_gpcoreDoDeflateDecompress {srcLen outLen : ℤ} :
    (∃ n out, gpcoreDoDeflateDecompress z src srcLen outLen n = some out) ↔
      ∃ n r, decompressWith z src (toUInt srcLen) (toUInt outLen) n = some r := by
  unfold gpcoreDoDeflateDecompress
  constructor
  · rintro ⟨n, r, hr⟩
    obtain ⟨r', hr', -⟩ := Option.map_eq_some_iff.1 hr
    exact ⟨n, r', hr'⟩
  · rintro ⟨n, r, hr⟩
    exact ⟨n, _, by rw [hr, Option.map_some]⟩

end inflate

/-- For every source and every room for the output, each of the two functions returns, and has
changed `*out_len` only if the complete stream was decompressed, if and only if zlib does not come
to a call that makes no progress and is answered by `Z_BUF_ERROR` or `Z_STREAM_ERROR`. -/
theorem decompress_ends_iff (z : Inflate σ) (hz : z.Documented) (src : Bytes) :
    (∀ srcLen outLen : ℕ,
      ((∃ n r, gpcoreDoDecompress z src srcLen outLen n = some r) ∧
        ∀ n ret out, gpcoreDoDecompress z src srcLen outLen n = some (ret, out) → out ≠ outLen →
          z.Completes src srcLen (toUInt (toInt outLen)) out) ↔
      (z.inflateInit2.1 ≠ .ok ∨
        ¬ z.Stuck (.start src srcLen (toUInt (toInt outLen)) z.inflateInit2.2))) ∧
    ∀ srcLen outLen : ℤ,
      ((∃ n out, gpcoreDoDeflateDecompress z src srcLen outLen n = some out) ∧
        ∀ n out, gpcoreDoDeflateDecompress z src srcLen outLen n = some out → out ≠ outLen →
          ∃ total, z.Completes src (toUInt srcLen) (toUInt outLen) total ∧ out = toInt total) ↔
      (z.inflateInit2.1 ≠ .ok ∨
        ¬ z.Stuck (.start src (toUInt srcLen) (toUInt outLen) z.inflateInit2.2)) := by
  refine ⟨fun srcLen outLen => ?_, fun srcLen outLen => ?_⟩
  · rw [← exists_decompressWith hz, ← exists_gpcoreDoDecompress]
    refine ⟨fun h => h.1, fun h => ⟨h, fun n ret out hout hne => ?_⟩⟩
    unfold gpcoreDoDecompress at hout
    obtain ⟨⟨ret', total⟩, hr, heq⟩ := Option.map_eq_some_iff.1 hout
    simp only [Prod.mk.injEq] at heq
    obtain ⟨rfl, rfl⟩ := heq
    cases total with
    | none => exact absurd rfl hne
    | some total => exact decompressWith_stores hr
  · rw [← exists_decompressWith hz, ← exists_gpcoreDoDeflateDecompress]
    refine ⟨fun h => h.1, fun h => ⟨h, fun n out hout hne => ?_⟩⟩
    unfold gpcoreDoDeflateDecompress at hout
    obtain ⟨⟨ret, total⟩, hr, rfl⟩ := Option.map_eq_some_iff.1 hout
    cases total with
    | none => exact absurd rfl hne
    | some total => exact ⟨total, decompressWith_stores hr, rfl⟩

/-- `inflate` as it is on no input, and on the two bytes of the stream of an empty source. -/
def inflateOfEmpty : Inflate Unit where
  inflateInit2 := (.ok, ())
  inflate s := if s.availIn = 0 then (.bufError, s) else (.streamEnd, { s with availIn := 0 })
  inflateEnd _ := .ok

theorem documented_inflateOfEmpty : inflateOfEmpty.Documented := by
  intro s
  by_cases h : s.availIn = 0 <;> simp [inflateOfEmpty, h]

theorem decompress_ends_two :
    (∃ n r, gpcoreDoDecompress inflateOfEmpty [3, 0] 2 8 n = some r) ∧
      ∃ n out, gpcoreDoDeflateDecompress inflateOfEmpty [3, 0] 2 8 n = some out := by
  have hnot : ¬ inflateOfEmpty.Stuck (.start [3, 0] 2 8 ()) := by
    rintro ⟨t, hr, -, hret⟩
    rcases hr.cases_head with rfl | ⟨u, ⟨-, -, hgo⟩, -⟩
    · simp [inflateOfEmpty, ZStream.start] at hret
    · simp [inflateOfEmpty, ZStream.start] at hgo
  have h := decompress_ends_iff inflateOfEmpty documented_inflateOfEmpty [3, 0]
  exact ⟨((h.1 2 8).2 (.inr hnot)).1, ((h.2 2 8).2 (.inr hnot)).1⟩

/-- On no input neither function returns. -/
theorem decompress_loops_zero :
    (¬ ∃ n r, gpcoreDoDecompress inflateOfEmpty [] 0 8 n = some r) ∧
      ¬ ∃ n out, gpcoreDoDeflateDecompress inflateOfEmpty [] 0 8 n = some out := by
  have hstuck : inflateOfEmpty.Stuck (.start [] 0 8 ()) :=
    ⟨_, .refl, ZStream.not_progress_self, by simp [inflateOfEmpty, ZStream.start]⟩
  have hno : ¬ ∃ n r, decompressWith inflateOfEmpty [] 0 8 n = some r := by
    rw [exists_decompressWith documented_inflateOfEmpty]
    rintro (h | h)
    · exact h rfl
    · exact h hstuck
  exact ⟨fun h => hno (exists_gpcoreDoDecompress.1 h),
    fun h => hno (exists_gpcoreDoDeflateDecompress.1 h)⟩

/-! ## The compression loop -/

section deflate

variable {z : Deflate σ} {stream : Bytes → Bytes} {Open : Bytes → ZStream σ → Prop}
  {Busy : ZStream σ → Prop} {Lingers : Bytes → ℕ → Prop} {src given : Bytes} {srcLen room : ℕ}
  {s t : ZStream σ}

/-- The bytes `given` have been given to the stream, and what has been written, within `room` bytes,
is the beginning of the complete stream. -/
structure Writing (stream : Bytes → Bytes) (Open : Bytes → ZStream σ → Prop) (given : Bytes)
    (room : ℕ) (s : ZStream σ) : Prop where
  isOpen : Open given s
  output : s.output <+: stream given
  totalOut : s.totalOut = s.output.length
  room : s.totalOut + s.availOut = room

section documented

variable (hz : z.Documented stream Open Busy Lingers)
include hz

theorem Deflate.Documented.writing_start (hinit : z.deflateInit2.1 = .ok)
    (hlen : srcLen ≤ src.length) :
    Writing stream Open (src.take srcLen) room (.start src srcLen room z.deflateInit2.2) :=
  ⟨hz.init hinit src srcLen room hlen, List.nil_prefix, rfl, Nat.zero_add room⟩

/-- A call writes the next part of the stream. -/
theorem Deflate.Documented.written (flush : ZFlush) (h : Writing stream Open given room s) :
    (z.deflate s flush).2.output <+: stream given ∧
      (z.deflate s flush).2.totalOut = (z.deflate s flush).2.output.length ∧
      (z.deflate s flush).2.totalOut + (z.deflate s flush).2.availOut = room := by
  obtain ⟨ho, hp, ht, hr⟩ := h
  obtain ⟨new, hout, htotal, hroom, hprefix⟩ := hz.output given s flush ho
  refine ⟨hout ▸ hprefix hp, ?_, by omega⟩
  rw [hout, List.length_append, htotal, ht]

theorem Deflate.Documented.noFlush_writing (h : Writing stream Open given room s) :
    Writing stream Open given room (z.deflate s .noFlush).2 := by
  obtain ⟨hp, ht, hr⟩ := hz.written .noFlush h
  exact ⟨(hz.noFlush given s h.isOpen).1, hp, ht, hr⟩

/-- The loop ends. -/
theorem Deflate.Documented.exists_ends (h : Writing stream Open given room s) :
    ∃ r, DoWhile.Ends (deflateRound z) s r := by
  refine DoWhile.exists_ends (Writing stream Open given room) (fun s => s.availIn + s.availOut)
    (fun s t h hround => ?_) h
  unfold deflateRound at hround
  by_cases hgo : 0 < (z.deflate s .noFlush).2.availIn ∧ (z.deflate s .noFlush).1 = .ok
  · simp only [if_pos hgo, Sum.inr.injEq] at hround
    subst hround
    obtain ⟨-, ⟨-, hp⟩ | hbuf⟩ := hz.noFlush given s h.isOpen
    · exact ⟨hz.noFlush_writing h, (hp hgo.1).2.2⟩
    · rw [hgo.2] at hbuf
      cases hbuf
  · simp only [if_neg hgo, reduceCtorEq] at hround

/-- The loop feeds the source in, and no call finds the end of the stream. -/
theorem Deflate.Documented.run_writing {n : ℕ} {r : ZRet × ZStream σ}
    (h : Writing stream Open given room s) (hrun : DoWhile.run (deflateRound z) n s = some r) :
    Writing stream Open given room r.2 ∧ r.1 ≠ .streamEnd := by
  induction n generalizing s with
  | zero => cases hrun
  | succ n ih =>
      have hnext := hz.noFlush_writing h
      unfold DoWhile.run deflateRound at hrun
      by_cases hgo : 0 < (z.deflate s .noFlush).2.availIn ∧ (z.deflate s .noFlush).1 = .ok
      · simp only [if_pos hgo] at hrun
        exact ih hnext hrun
      · simp only [if_neg hgo, Option.some.injEq] at hrun
        subst hrun
        refine ⟨hnext, ?_⟩
        rcases (hz.noFlush given s h.isOpen).2 with ⟨hret, -⟩ | hret <;> simp [hret]

/-- The finishing call writes the whole stream if and only if there is room for it. -/
theorem Deflate.Documented.complete_iff (h : Writing stream Open given room s) :
    (z.deflate s .finish).2.availIn = 0 ∧ (z.deflate s .finish).2.output = stream given ↔
      (stream given).length ≤ room := by
  obtain ⟨hp, ht, hr⟩ := hz.written .finish h
  constructor
  · rintro ⟨-, hout⟩
    rw [hout] at ht
    omega
  · intro hfits
    rcases hz.finish given s h.isOpen with ⟨-, hin, hout⟩ | ⟨-, hfull, hout⟩
    · exact ⟨hin, hout⟩
    · -- the output is full and is not the whole stream
      have hlt : (z.deflate s .finish).2.output.length < (stream given).length :=
        Nat.lt_of_le_of_ne hp.length_le fun e => hout (hp.eq_of_length e)
      omega

/-- What the function returns once the stream has been set up. -/
theorem Deflate.Documented.compress_of_init (hinit : z.deflateInit2.1 = .ok)
    (hlen : srcLen ≤ src.length) (hint : srcLen < 2 ^ 31) (hroom : room < 2 ^ 31) {n : ℕ}
    {r : CompressResult σ} (hr : gpcoreDoCompress z src srcLen room n = some r) :
    (r.stream.availIn = 0 ∧ r.stream.output = stream (src.take srcLen) ↔
        (stream (src.take srcLen)).length ≤ room) ∧
      r.stream.totalOut = r.stream.output.length ∧
      (Lingers (src.take srcLen) room ∧ r.ret = .dataError ∧ r.outLen = room ∨
        ¬ Lingers (src.take srcLen) room ∧ r.ret = .ok ∧ r.outLen = toInt r.stream.totalOut) := by
  unfold gpcoreDoCompress at hr
  simp only [hinit, ne_eq, not_true_eq_false, if_false,
    toUInt_of_lt (show srcLen < 2 ^ 32 by omega), toUInt_of_lt (show room < 2 ^ 32 by omega)] at hr
  cases hrun : DoWhile.run (deflateRound z) n (.start src srcLen room z.deflateInit2.2) with
  | none => simp [hrun] at hr
  | some p =>
      obtain ⟨hw, hret⟩ := hz.run_writing (hz.writing_start hinit hlen) hrun
      have hlingers := hz.lingers _ p.2 hw.isOpen
      rw [hw.room] at hlingers
      simp only [hrun, hret, not_false_eq_true, if_true] at hr
      by_cases hbusy : Busy (z.deflate p.2 .finish).2
      · simp only [hz.busy _ hbusy, reduceCtorEq, not_false_eq_true, if_true,
          Option.some.injEq] at hr
        subst hr
        exact ⟨hz.complete_iff hw, (hz.written .finish hw).2.1,
          .inl ⟨hlingers.1 hbusy, rfl, rfl⟩⟩
      · simp only [hz.notBusy _ hbusy, not_true_eq_false, if_false, Option.some.injEq] at hr
        subst hr
        exact ⟨hz.complete_iff hw, (hz.written .finish hw).2.1,
          .inr ⟨fun h => hbusy (hlingers.2 h), rfl, rfl⟩⟩

/-- The function returns. -/
theorem Deflate.Documented.exists_compress (hlen : srcLen ≤ src.length) (hint : srcLen < 2 ^ 31)
    (outLen : ℤ) : ∃ n r, gpcoreDoCompress z src srcLen outLen n = some r := by
  by_cases hinit : z.deflateInit2.1 = .ok
  · have hstart : Writing stream Open (src.take srcLen) (toUInt outLen)
        (.start src srcLen (toUInt outLen) z.deflateInit2.2) := hz.writing_start hinit hlen
    obtain ⟨p, n, hrun⟩ := hz.exists_ends hstart
    refine ⟨n, ?_⟩
    unfold gpcoreDoCompress
    simp only [toUInt_of_lt (show srcLen < 2 ^ 32 by omega), hinit, hrun, ne_eq,
      not_true_eq_false, if_false]
    exact ⟨_, (apply_ite some _ _ _).symm⟩
  · refine ⟨0, ⟨z.deflateInit2.1, outLen,
      .start src (toUInt srcLen) (toUInt outLen) z.deflateInit2.2⟩, ?_⟩
    unfold gpcoreDoCompress
    simp only [hinit, ne_eq, not_false_eq_true, if_true]

end documented

/-- Success, with the complete stream in the buffer and its length in `*out_len`; or failure, with
`*out_len` as it was. -/
def CompressResult.Honest (stream : Bytes → Bytes) (given : Bytes) (outLen : ℤ)
    (r : CompressResult σ) : Prop :=
  r.ret = .ok ∧ r.stream.availIn = 0 ∧ r.stream.output = stream given ∧
      r.outLen = (stream given).length ∨
    r.ret ≠ .ok ∧ r.outLen = outLen

end deflate

/-- A byte as a stored block. -/
def storedBlock (b : UInt8) : Bytes := [0, 1, 0, 254, 255, b]

/-- A stored block for each byte, and an empty last block. -/
def storedStream (given : Bytes) : Bytes := given.flatMap storedBlock ++ [3, 0]

/-- How far the source has been read, the bytes that wait for room in the output, and whether
finishing has begun. -/
structure StoredState where
  consumed : ℕ
  pending : Bytes
  finishing : Bool

/-- All of the input is read. -/
def readAll (s : ZStream StoredState) : ZStream StoredState :=
  { s with
    availIn := 0
    state := ⟨s.state.consumed + s.availIn,
      s.state.pending ++
        ((s.source.drop s.state.consumed).take s.availIn).flatMap storedBlock,
      s.state.finishing⟩ }

/-- What waits is written as far as there is room. -/
def writePending (s : ZStream StoredState) : ZStream StoredState :=
  { s with
    output := s.output ++ s.state.pending.take s.availOut
    availOut := s.availOut - s.state.pending.length
    totalOut := s.totalOut + min s.availOut s.state.pending.length
    state := { s.state with pending := s.state.pending.drop s.availOut } }

/-- The last block waits for room as well. -/
def beginFinish (s : ZStream StoredState) : ZStream StoredState :=
  { s with state := { s.state with pending := s.state.pending ++ [3, 0], finishing := true } }

/-- `deflate` without compression.  Finishing begins when there is room left behind the blocks of
the source. -/
def deflateStored : Deflate StoredState where
  deflateInit2 := (.ok, ⟨0, [], false⟩)
  deflate s
    | .noFlush =>
        if s.availOut = 0 ∨ (readAll s).state.pending = [] then (.bufError, s)
        else (.ok, writePending (readAll s))
    | .finish =>
        if s.availOut = 0 then (.bufError, s)
        else if s.availOut ≤ (readAll s).state.pending.length then (.ok, writePending (readAll s))
        else
          (if s.availOut < (readAll s).state.pending.length + 2 then .ok else .streamEnd,
            writePending (beginFinish (readAll s)))
  deflateEnd s := if s.state.finishing then .ok else .dataError

/-- `deflateStored` has not been asked to finish. -/
structure StoredOpen (given : Bytes) (s : ZStream StoredState) : Prop where
  given : s.source.take (s.state.consumed + s.availIn) = given
  blocks : s.output ++ s.state.pending = (s.source.take s.state.consumed).flatMap storedBlock
  totalOut : s.totalOut = s.output.length
  finishing : s.state.finishing = false

section stored

variable {given : Bytes} {s : ZStream StoredState}

theorem StoredOpen.readAll (h : StoredOpen given s) :
    StoredOpen given (readAll s) ∧
      s.output ++ (XMPGym.readAll s).state.pending = given.flatMap storedBlock := by
  have hblocks : s.output ++ (XMPGym.readAll s).state.pending = given.flatMap storedBlock := by
    rw [← h.given, List.take_add, List.flatMap_append, ← h.blocks, List.append_assoc]
    rfl
  refine ⟨⟨h.given, ?_, h.totalOut, h.finishing⟩, hblocks⟩
  rw [← h.given] at hblocks
  exact hblocks

theorem StoredOpen.writePending (h : StoredOpen given s) : StoredOpen given (writePending s) where
  given := h.given
  blocks := by
    refine Eq.trans ?_ h.blocks
    simp [XMPGym.writePending]
  totalOut := by simp [XMPGym.writePending, h.totalOut]
  finishing := h.finishing

/-- What is written is the beginning of what waits. -/
theorem writePending_output (s : ZStream StoredState) {whole : Bytes}
    (h : s.output ++ s.state.pending <+: whole) : ∃ new,
      (writePending s).output = s.output ++ new ∧
      (writePending s).totalOut = s.totalOut + new.length ∧
      (writePending s).availOut + new.length = s.availOut ∧ s.output ++ new <+: whole := by
  refine ⟨s.state.pending.take s.availOut, rfl, by simp [writePending], ?_, ?_⟩
  · simp only [writePending, List.length_take]
    omega
  · exact ((List.prefix_append_right_inj _).2 (List.take_prefix _ _)).trans h

/-- With the last block behind them, the blocks of the source are the complete stream. -/
theorem StoredOpen.beginFinish (h : StoredOpen given s) :
    s.output ++ (XMPGym.beginFinish (XMPGym.readAll s)).state.pending = storedStream given := by
  rw [storedStream, ← h.readAll.2, List.append_assoc]
  rfl

theorem StoredOpen.length_readAll (h : StoredOpen given s) :
    s.output.length + (XMPGym.readAll s).state.pending.length =
      (given.flatMap storedBlock).length := by
  rw [← h.readAll.2, List.length_append]

theorem length_storedStream (given : Bytes) :
    (storedStream given).length = (given.flatMap storedBlock).length + 2 := by
  rw [storedStream, List.length_append]
  rfl

/-- A call writes the next part of the stream. -/
theorem StoredOpen.deflate_output (h : StoredOpen given s) (flush : ZFlush) : ∃ new,
    (deflateStored.deflate s flush).2.output = s.output ++ new ∧
      (deflateStored.deflate s flush).2.totalOut = s.totalOut + new.length ∧
      (deflateStored.deflate s flush).2.availOut + new.length = s.availOut ∧
      (s.output <+: storedStream given → s.output ++ new <+: storedStream given) := by
  have none : ∃ new, s.output = s.output ++ new ∧ s.totalOut = s.totalOut + new.length ∧
      s.availOut + new.length = s.availOut ∧
      (s.output <+: storedStream given → s.output ++ new <+: storedStream given) :=
    ⟨[], by simp, by simp, by simp, by simp⟩
  have hblocks : s.output ++ (XMPGym.readAll s).state.pending <+: storedStream given :=
    h.readAll.2 ▸ List.prefix_append _ _
  have hwhole : s.output ++ (XMPGym.beginFinish (XMPGym.readAll s)).state.pending <+:
      storedStream given := h.beginFinish ▸ List.prefix_rfl
  obtain ⟨new, hout, htotal, hroom, hnew⟩ := writePending_output (XMPGym.readAll s) hblocks
  obtain ⟨last, hout', htotal', hroom', hlast⟩ :=
    writePending_output (XMPGym.beginFinish (XMPGym.readAll s)) hwhole
  cases flush with
  | noFlush =>
      simp only [deflateStored]
      split_ifs
      · exact none
      · exact ⟨new, hout, htotal, hroom, fun _ => hnew⟩
  | finish =>
      simp only [deflateStored]
      split_ifs
      · exact none
      · exact ⟨new, hout, htotal, hroom, fun _ => hnew⟩
      · exact ⟨last, hout', htotal', hroom', fun _ => hlast⟩
      · exact ⟨last, hout', htotal', hroom', fun _ => hlast⟩

/-- The call with `Z_FINISH` writes the rest of the stream, or as much of it as there is room
for. -/
theorem StoredOpen.deflate_finish (h : StoredOpen given s) :
    (deflateStored.deflate s .finish).1 = .streamEnd ∧
        (deflateStored.deflate s .finish).2.availIn = 0 ∧
        (deflateStored.deflate s .finish).2.output = storedStream given ∨
      (deflateStored.deflate s .finish).1 ∈ [ZRet.ok, .bufError] ∧
        (deflateStored.deflate s .finish).2.availOut = 0 ∧
        (deflateStored.deflate s .finish).2.output ≠ storedStream given := by
  have hlen := h.length_readAll
  have short {out : Bytes} (hout : out.length < (given.flatMap storedBlock).length + 2) :
      out ≠ storedStream given := by
    rintro rfl
    exact Nat.lt_irrefl _ (length_storedStream given ▸ hout)
  simp only [deflateStored]
  split_ifs with hfull hroom hlast
  · exact .inr ⟨by simp, hfull, short (show s.output.length < _ by omega)⟩
  · refine .inr ⟨by simp, Nat.sub_eq_zero_of_le hroom, short ?_⟩
    simp only [XMPGym.writePending, XMPGym.readAll, List.length_append, List.length_take]
      at hlen ⊢
    omega
  · refine .inr ⟨by simp, ?_, short ?_⟩ <;>
    · simp only [XMPGym.writePending, XMPGym.beginFinish, XMPGym.readAll, List.length_append,
        List.length_take, List.length_cons, List.length_nil] at hlast hlen ⊢
      omega
  · refine .inl ⟨rfl, rfl, ?_⟩
    have hall : (XMPGym.beginFinish (XMPGym.readAll s)).state.pending.length ≤ s.availOut := by
      simp only [XMPGym.beginFinish, List.length_append, List.length_cons, List.length_nil]
      omega
    rw [← h.beginFinish]
    exact congrArg (s.output ++ ·) (List.take_of_length_le hall)

/-- Finishing has not begun after that call when there was room for the blocks of the source at
most. -/
theorem StoredOpen.deflate_lingers (h : StoredOpen given s) :
    (deflateStored.deflate s .finish).2.state.finishing = false ↔
      s.totalOut + s.availOut ≤ (given.flatMap storedBlock).length := by
  have hlen := h.length_readAll
  rw [h.totalOut]
  simp only [deflateStored]
  split_ifs with hfull hroom
  · simp only [h.finishing, true_iff]
    omega
  · have hstill : (XMPGym.writePending (XMPGym.readAll s)).state.finishing = false := h.finishing
    simp only [hstill, true_iff]
    omega
  all_goals
    simp only [XMPGym.writePending, XMPGym.beginFinish, Bool.true_eq_false, false_iff]
    omega

theorem documented_deflateStored :
    deflateStored.Documented storedStream StoredOpen (fun s => s.state.finishing = false)
      (fun given room => room ≤ (given.flatMap storedBlock).length) where
  init _ source availIn availOut _ :=
    ⟨congrArg (source.take ·) (Nat.zero_add availIn), rfl, rfl, rfl⟩
  output _ _ flush h := h.deflate_output flush
  noFlush _ s h := by
    simp only [deflateStored]
    split_ifs
    · exact ⟨h, .inr rfl⟩
    · exact ⟨h.readAll.1.writePending, .inl ⟨rfl, fun hin => absurd hin (Nat.lt_irrefl 0)⟩⟩
  finish _ _ h := h.deflate_finish
  lingers _ _ h := h.deflate_lingers
  busy s h := by simp [deflateStored, h]
  notBusy s h := by simpa [deflateStored] using h

end stored

end XMPGym
