import XMPGym.Ints
import XMPGym.Memory

/-!
# zlib

The part of zlib that the compression routines use: a stream with its counters, and the functions
on it, of which only what is documented is known.  `source` and `output` are the bytes that
`next_in` pointed to at the beginning and those that have been written to `next_out`.
-/

open Relation

namespace XMPGym

/-- The return codes. -/
inductive ZRet where
  | ok
  | streamEnd
  | needDict
  | errno
  | streamError
  | dataError
  | memError
  | bufError
  | versionError
  deriving DecidableEq, Repr, Inhabited

/-- `Z_NO_FLUSH` and `Z_FINISH` -/
inductive ZFlush where
  | noFlush
  | finish
  deriving DecidableEq, Repr

/-- `z_stream`, with what its pointers point to. -/
structure ZStream (σ : Type*) where
  source : Bytes
  availIn : ℕ
  output : Bytes
  availOut : ℕ
  totalOut : ℕ
  state : σ

/-- A stream before the first call. -/
def ZStream.start {σ : Type*} (source : Bytes) (availIn availOut : ℕ) (state : σ) : ZStream σ :=
  ⟨source, availIn, [], availOut, 0, state⟩

/-- Bytes were consumed or produced. -/
def ZStream.Progress {σ : Type*} (s t : ZStream σ) : Prop :=
  t.availIn ≤ s.availIn ∧ t.availOut ≤ s.availOut ∧ t.availIn + t.availOut < s.availIn + s.availOut

/-! ## Decompression -/

/-- `inflateInit2`, `inflate` with `Z_NO_FLUSH`, and `inflateEnd`. -/
structure Inflate (σ : Type*) where
  inflateInit2 : ZRet × σ
  inflate : ZStream σ → ZRet × ZStream σ
  inflateEnd : ZStream σ → ZRet

namespace Inflate

variable {σ : Type*} (z : Inflate σ)

/-- What a call may do.  `Z_STREAM_ERROR` says that the structure is inconsistent, which is looked
at before it is touched. -/
def Documented : Prop :=
  ∀ s, s.Progress (z.inflate s).2 ∨
    (z.inflate s).1 ∈ [ZRet.streamEnd, .needDict, .dataError, .memError] ∨
    (z.inflate s).1 ∈ [ZRet.streamError, .bufError] ∧ (z.inflate s).2 = s

/-- A call that makes progress and gives neither the end of the stream nor one of the three errors
that make decompression impossible. -/
def Goes (s t : ZStream σ) : Prop :=
  (z.inflate s).2 = t ∧ s.Progress t ∧
    (z.inflate s).1 ∉ [ZRet.streamEnd, .needDict, .dataError, .memError]

/-- The stream comes to a point where a call makes no progress any more (the input has run out, or
the output is full) and is answered by `Z_BUF_ERROR` or `Z_STREAM_ERROR`. -/
def Stuck (s : ZStream σ) : Prop :=
  ∃ t, ReflTransGen z.Goes s t ∧ ¬ t.Progress (z.inflate t).2 ∧
    (z.inflate t).1 ∈ [ZRet.streamError, .bufError]

end Inflate

/-! ## Compression -/

/-- `deflateInit2`, `deflate` and `deflateEnd`. -/
structure Deflate (σ : Type*) where
  deflateInit2 : ZRet × σ
  deflate : ZStream σ → ZFlush → ZRet × ZStream σ
  deflateEnd : ZStream σ → ZRet

namespace Deflate

variable {σ : Type*} (z : Deflate σ)

/-- What the functions do.  `stream` gives the complete stream for a source.  `Open given` are the
streams that are in use and have not been asked to finish, to which the bytes `given` have been
given altogether, those still in `avail_in` included; the functions know no others.  `Busy` are the
streams on which compression is under way and finishing has not begun.  `Lingers given room` says
that with `room` bytes for the output the call with `Z_FINISH` does not get to the end of `given`
and leaves the stream busy. -/
structure Documented (stream : Bytes → Bytes) (Open : Bytes → ZStream σ → Prop)
    (Busy : ZStream σ → Prop) (Lingers : Bytes → ℕ → Prop) : Prop where
  init : z.deflateInit2.1 = .ok → ∀ source availIn availOut, availIn ≤ source.length →
    Open (source.take availIn) (.start source availIn availOut z.deflateInit2.2)
  /-- what is written is counted, and is the next part of the complete stream -/
  output : ∀ given s flush, Open given s → ∃ new,
    (z.deflate s flush).2.output = s.output ++ new ∧
      (z.deflate s flush).2.totalOut = s.totalOut + new.length ∧
      (z.deflate s flush).2.availOut + new.length = s.availOut ∧
      (s.output <+: stream given → s.output ++ new <+: stream given)
  noFlush : ∀ given s, Open given s → Open given (z.deflate s .noFlush).2 ∧
    ((z.deflate s .noFlush).1 = .ok ∧
        (0 < (z.deflate s .noFlush).2.availIn → s.Progress (z.deflate s .noFlush).2) ∨
      (z.deflate s .noFlush).1 = .bufError)
  finish : ∀ given s, Open given s →
    (z.deflate s .finish).1 = .streamEnd ∧ (z.deflate s .finish).2.availIn = 0 ∧
        (z.deflate s .finish).2.output = stream given ∨
      (z.deflate s .finish).1 ∈ [ZRet.ok, .bufError] ∧ (z.deflate s .finish).2.availOut = 0 ∧
        (z.deflate s .finish).2.output ≠ stream given
  lingers : ∀ given s, Open given s →
    (Busy (z.deflate s .finish).2 ↔ Lingers given (s.totalOut + s.availOut))
  busy : ∀ s, Busy s → z.deflateEnd s = .dataError
  notBusy : ∀ s, ¬ Busy s → z.deflateEnd s = .ok

end Deflate

end XMPGym
