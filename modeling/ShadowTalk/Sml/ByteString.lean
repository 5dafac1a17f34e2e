import ShadowTalk.Core.Bytes
import Mathlib.Algebra.Ring.Int.Defs
import Mathlib.Algebra.Ring.Nat
import Mathlib.Tactic.Common

/-!
# `byte_string`, reading side

A datagram is parsed by putting the received bytes into a `byte_string` and
reading its fields off it with `>>`. `int` members are integers; every
conversion between `int` and `size_t` is explicit (`toInt`, `toSize`), so a
negative difference becomes the huge count it is in the source.

* `ofStdString_at`: a string of fewer than 2^31 bytes is held as it is, with the
  cursor at the start.
* `readN_spec`: from position `k`, `>>` of an `n`-byte value yields the bytes
  `[k, k + n)` and advances, or throws `io_error` when fewer are left.
* `readRest_spec`: `>>` of a `std::string` yields all bytes from the cursor on.

Limitations: a fresh buffer is zeroed here, where `new char[]` leaves it
uninitialised; no byte at or above `data_len_` is ever read.
-/
namespace ShadowTalk.Sml
open ShadowTalk.Core

/-- The exceptions that can leave the functions of this library.
mirrors client/sml/exception.h:24-35, and `std::runtime_error`,
`std::invalid_argument`, `std::out_of_range`, `boost::system::system_error` and
`std::bad_array_new_length` of the standard library and boost. `nullDeref` is
the undefined behaviour of dereferencing an empty smart pointer. -/
inductive Exc where
  | ioError
  | invalidDataError
  | unknownError
  | runtimeError
  | invalidArgument
  | outOfRange
  | systemError
  | badArrayNewLength
  | nullDeref
  deriving DecidableEq, Repr

@[simp] theorem ok_bind {α β : Type} (a : α) (f : α → Except Exc β) : (Except.ok a >>= f) = f a :=
  rfl

@[simp] theorem error_bind {α β : Type} (x : Exc) (f : α → Except Exc β) :
    (Except.error x >>= f) = .error x := rfl

theorem bind_eq_ok {α β : Type} {x : Except Exc α} {f : α → Except Exc β} {b : β}
    (h : (x >>= f) = .ok b) : ∃ a, x = .ok a ∧ f a = .ok b := by
  cases x with
  | ok a => exact ⟨a, rfl, h⟩
  | error y => cases h

/-- Conversion to `int`. -/
def toInt (x : Int) : Int := x.bmod (2 ^ 32)

/-- Conversion to `size_t` and `uint64_t`. -/
def toSize (x : Int) : Nat := (x % 2 ^ 64).toNat

theorem toInt_of_lt {n : Nat} (h : n < 2 ^ 31) : toInt n = n := by
  unfold toInt; rw [Int.bmod_eq_of_le] <;> omega

theorem toSize_of_lt {n : Nat} (h : n < 2 ^ 64) : toSize n = n := by
  unfold toSize; omega

/-- mirrors client/sml/byte_string.h:90-94; `buf` is empty for a null `buf_`. -/
structure ByteString where
  buf : Bytes
  dataLen : Int
  bufSize : Int
  offset : Int
  deriving DecidableEq, Repr

namespace ByteString

/-- mirrors client/sml/byte_string.h:22-26 -/
def empty : ByteString := ⟨[], 0, 0, 0⟩

/-- The rounding of `_change_buffer_size_to` to a multiple of `ALIGNED_SIZE`. -/
def aligned (size : Nat) : Nat := if 1 ≤ size then (size - 1) / 16 * 16 + 16 else 0

/-- mirrors client/sml/byte_string.cpp:161-180. `new char[size]` throws when the
size is negative as a `ptrdiff_t`. -/
def changeBufferSizeTo (b : ByteString) (size : Nat) : Except Exc ByteString :=
  let size := aligned size % 2 ^ 64
  if size = 0 then .ok { b with buf := [], bufSize := 0 }
  else if 2 ^ 63 ≤ size then .error .badArrayNewLength
  else
    let kept := b.buf.take (min size (toSize b.dataLen))
    .ok { b with buf := kept ++ List.replicate (size - kept.length) 0, bufSize := toInt size }

/-- `byte_string(std::string &)`. `gurantee_space(data_len_)` finds the room the
delegated constructor has just made and does nothing.
mirrors client/sml/byte_string.cpp:5-15 -/
def ofStdString (val : Bytes) : Except Exc ByteString := do
  let b ← empty.changeBufferSizeTo (toSize (toInt val.length))
  let dataLen := toInt val.length
  .ok { b with dataLen := dataLen, buf := val.take dataLen.toNat ++ b.buf.drop dataLen.toNat }

/-- mirrors client/sml/byte_string.cpp:60-62 -/
def canRead (b : ByteString) : Nat := toSize (b.dataLen - b.offset)

/-- The bytes read and the string with its cursor moved.
mirrors client/sml/byte_string.cpp:64-72 -/
def read (b : ByteString) (n : Nat) : Bytes × ByteString :=
  if n = 0 then ([], b)
  else
    let n := if n ≤ b.canRead then n else b.canRead
    (slice b.buf b.offset.toNat n, { b with offset := toInt (b.offset + n) })

/-- `>>` of a value of `n` bytes.
mirrors client/sml/byte_string.h:75-81 -/
def readN (b : ByteString) (n : Nat) : Except Exc (Bytes × ByteString) :=
  let r := b.read n
  if r.1.length = n then .ok r else .error .ioError

/-- `>>` of a `std::string`.
mirrors client/sml/byte_string.cpp:212-221 -/
def readRest (b : ByteString) : Except Exc (Bytes × ByteString) := b.readN b.canRead

/-! ## The string as a list and a position -/

/-- `b` holds `val` and its cursor is at `k`. -/
structure At (val : Bytes) (k : Nat) (b : ByteString) : Prop where
  data : b.buf.take val.length = val
  len : b.dataLen = val.length
  pos : b.offset = k
  le : k ≤ val.length
  fits : val.length < 2 ^ 31

theorem ofStdString_at {val : Bytes} (h : val.length < 2 ^ 31) :
    ∃ b, ofStdString val = .ok b ∧ At val 0 b := by
  have hlen : toSize (toInt val.length) = val.length := by
    rw [toInt_of_lt h, toSize_of_lt (by omega)]
  unfold ofStdString changeBufferSizeTo
  rw [hlen, toInt_of_lt h]
  have ha : aligned val.length % 2 ^ 64 = aligned val.length :=
    Nat.mod_eq_of_lt (by unfold aligned; split <;> omega)
  simp only [ha]
  by_cases h0 : aligned val.length = 0
  · have : val = [] := by
      unfold aligned at h0
      split at h0
      · omega
      · exact List.length_eq_zero_iff.1 (by omega)
    subst this
    exact ⟨_, by simp only [h0, if_true]; rfl, by simp, rfl, rfl, Nat.le_refl _, h⟩
  · have hb : ¬ 2 ^ 63 ≤ aligned val.length := by unfold aligned; split <;> omega
    simp only [h0, hb, if_false]
    refine ⟨_, rfl, ?_, rfl, rfl, Nat.zero_le _, h⟩
    simp

theorem At.canRead {val : Bytes} {k : Nat} {b : ByteString} (h : At val k b) :
    b.canRead = val.length - k := by
  have := h.le; have := h.fits
  unfold ByteString.canRead
  rw [h.len, h.pos, show ((val.length : Int) - k) = ((val.length - k : Nat) : Int) by omega,
    toSize_of_lt (by omega)]

theorem At.read {val : Bytes} {k n : Nat} {b : ByteString} (h : At val k b)
    (hn : n ≤ val.length - k) : (b.read n).1 = slice val k n ∧ At val (k + n) (b.read n).2 := by
  have hle := h.le
  unfold ByteString.read
  by_cases h0 : n = 0
  · subst h0
    exact ⟨by simp [slice], by simpa using h⟩
  · have hbuf : slice b.buf k n = slice val k n := by
      have : b.buf = val ++ b.buf.drop val.length := by
        conv_lhs => rw [← List.take_append_drop val.length b.buf, h.data]
      rw [this, slice_append (by omega)]
    have hf := h.fits
    have hoff : b.offset.toNat = k := by rw [h.pos, Int.toNat_natCast]
    have hpos : toInt (b.offset + n) = (k + n : Nat) := by
      rw [h.pos, ← Int.natCast_add]; exact toInt_of_lt (by omega)
    simp only [h0, if_false, h.canRead, hn, if_true, hoff, hbuf, true_and]
    exact ⟨h.data, h.len, hpos, by omega, hf⟩

theorem readN_spec {val : Bytes} {k n : Nat} {b : ByteString} (h : At val k b) :
    if k + n ≤ val.length then
      ∃ b', b.readN n = .ok (slice val k n, b') ∧ At val (k + n) b'
    else b.readN n = .error .ioError := by
  have hle := h.le
  simp only [readN]
  split
  · rename_i hn
    obtain ⟨h1, h2⟩ := h.read (n := n) (by omega)
    refine ⟨_, ?_, h2⟩
    rw [h1, slice_length hn, if_pos rfl, ← h1]
  · rename_i hn
    have hlen : (b.read n).1.length ≠ n := by
      unfold ByteString.read
      rw [if_neg (by omega)]
      simp only [h.canRead, show ¬ n ≤ val.length - k by omega, if_false, slice, List.length_take]
      omega
    rw [if_neg hlen]

theorem readRest_spec {val : Bytes} {k : Nat} {b : ByteString} (h : At val k b) :
    ∃ b', b.readRest = .ok (val.drop k, b') := by
  have hle := h.le
  have := readN_spec (n := val.length - k) h
  rw [if_pos (by omega)] at this
  obtain ⟨b', h1, -⟩ := this
  refine ⟨b', ?_⟩
  rw [readRest, h.canRead, h1, slice, List.take_of_length_le (by simp)]

end ByteString
end ShadowTalk.Sml
