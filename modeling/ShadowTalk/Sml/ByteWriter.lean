import ShadowTalk.Sml.ByteString
import Mathlib.Algebra.Order.Ring.Nat

/-!
# `byte_string`, writing side

`<<` writes at the cursor and grows the buffer first: `adjust_buffer_size`
doubles an `int` until it covers the need, `_change_buffer_size_to` rounds it up
to a multiple of 16 and moves the contents over.

* `doubling_spec`: the doubling loop ends at a power of two that covers the need
  (below 2^30 nothing overflows).
* `guranteeSpace_spec`: growing keeps the contents.
* `write_spec`: a write overwrites from the cursor, extends at the end, and
  leaves the cursor behind what was written; nothing else changes.

The assertion of `can_write` holds where `write` calls it: `gurantee_space` has
made room up to the cursor, or has thrown.
-/
namespace ShadowTalk.Sml
open ShadowTalk.Core

namespace ByteString

/-- The `int` loop of `adjust_buffer_size`, `none` when the doubling gives 0.
After 32 doublings it does, so 33 rounds are enough. -/
def doubling (need : Nat) : Nat → Int → Option Int
  | 0, _ => none
  | fuel + 1, dst =>
    if toSize dst < need then
      let dst := toInt (dst * 2)
      if dst = 0 then none else doubling need fuel dst
    else some dst

/-- mirrors client/sml/byte_string.cpp:182-191 -/
def adjustBufferSize (b : ByteString) (need : Nat) : Except Exc ByteString :=
  match doubling need 33 1 with
  | none => .ok b
  | some dst => b.changeBufferSizeTo (toSize dst)

/-- mirrors client/sml/byte_string.cpp:193-198 -/
def guranteeSpace (b : ByteString) (size : Nat) : Except Exc ByteString :=
  if toSize b.bufSize < size then b.adjustBufferSize size else .ok b

/-- mirrors client/sml/byte_string.cpp:43-46 -/
def canWrite (b : ByteString) : Nat := toSize (b.bufSize - b.offset)

/-- mirrors client/sml/byte_string.cpp:200-202 -/
def mightUpdateDataLen (b : ByteString) : ByteString :=
  { b with dataLen := if b.offset > b.dataLen then b.offset else b.dataLen }

/-- `val` replaces the bytes of `buf` from position `k` on. -/
def overwrite (buf : Bytes) (k : Nat) (val : Bytes) : Bytes :=
  buf.take k ++ val ++ buf.drop (k + val.length)

/-- The number of bytes written and the string after it.
mirrors client/sml/byte_string.cpp:48-58 -/
def write (b : ByteString) (val : Bytes) : Except Exc (Nat × ByteString) :=
  if val.length = 0 then .ok (0, b)
  else do
    let b ← b.guranteeSpace (toSize (b.offset + val.length))
    let n := if val.length ≤ b.canWrite then val.length else b.canWrite
    .ok (n, mightUpdateDataLen { b with
      buf := overwrite b.buf b.offset.toNat (val.take n)
      offset := toInt (b.offset + n) })

/-- `<<`, of a value given by its bytes or of a `std::string`.
mirrors client/sml/byte_string.h:67-73, client/sml/byte_string.cpp:204-210 -/
def put (b : ByteString) (val : Bytes) : Except Exc ByteString := do
  let r ← b.write val
  if r.1 = val.length then .ok r.2 else .error .ioError

/-- mirrors client/sml/byte_string.cpp:35-37 -/
def toStdString (b : ByteString) : Bytes := b.buf.take (toSize b.dataLen)

/-! ## Growing -/

/-- Doubling from `2 ^ k`: the loop ends at the first power of two that covers
the need. -/
theorem doubling_pow {need : Nat} (hn : need ≤ 2 ^ 30) :
    ∀ (fuel : Nat) {k : Nat}, k ≤ 30 → 30 < k + fuel →
      ∃ j, k ≤ j ∧ j ≤ 30 ∧ doubling need fuel ((2 ^ k : Nat) : Int) = some ((2 ^ j : Nat) : Int) ∧
        need ≤ 2 ^ j := by
  intro fuel
  induction fuel with
  | zero =>
    intro k hk hf
    omega
  | succ fuel ih =>
    intro k hk hf
    have hpow : 2 ^ k ≤ 2 ^ 30 := Nat.pow_le_pow_right (by omega) hk
    have hsize : toSize ((2 ^ k : Nat) : Int) = 2 ^ k := toSize_of_lt (by omega)
    rw [doubling, hsize]
    by_cases hlt : 2 ^ k < need
    · have hk' : k + 1 ≤ 30 := by
        have hne : k ≠ 30 := by
          intro he
          subst he
          omega
        omega
      have hpow' : 2 ^ (k + 1) ≤ 2 ^ 30 := Nat.pow_le_pow_right (by omega) hk'
      have hdst : toInt (((2 ^ k : Nat) : Int) * 2) = ((2 ^ (k + 1) : Nat) : Int) := by
        rw [← toInt_of_lt (show 2 ^ (k + 1) < 2 ^ 31 by omega), Nat.pow_succ]
        push_cast
        rfl
      have hne : ((2 ^ (k + 1) : Nat) : Int) ≠ 0 := by
        have := Nat.two_pow_pos (k + 1)
        omega
      simp only [hlt, if_true, hdst, hne, if_false]
      obtain ⟨j, hj, hj', he, hle⟩ := ih hk' (by omega)
      exact ⟨j, by omega, hj', he, hle⟩
    · simp only [hlt, if_false]
      exact ⟨k, Nat.le_refl k, hk, rfl, by omega⟩

theorem doubling_spec {need : Nat} (h : need ≤ 2 ^ 30) :
    ∃ j ≤ 30, doubling need 33 1 = some ((2 ^ j : Nat) : Int) ∧ need ≤ 2 ^ j := by
  obtain ⟨j, -, hj, he, hle⟩ := doubling_pow h 33 (k := 0) (by omega) (by omega)
  exact ⟨j, hj, he, hle⟩

theorem le_aligned (n : Nat) : n ≤ aligned n := by
  unfold aligned
  split <;> omega

theorem aligned_le (n : Nat) : aligned n ≤ n + 15 := by
  unfold aligned
  split <;> omega

/-- `b` holds `val` with its cursor at `k`, in a buffer of the size it says. -/
structure Holds (val : Bytes) (k : Nat) (b : ByteString) : Prop where
  toAt : At val k b
  size : b.bufSize = b.buf.length
  small : b.buf.length < 2 ^ 31

theorem Holds.length_le {val : Bytes} {k : Nat} {b : ByteString} (h : Holds val k b) :
    val.length ≤ b.buf.length := by
  have := congrArg List.length h.toAt.data
  rw [List.length_take] at this
  omega

theorem empty_holds : Holds [] 0 empty where
  toAt := ⟨rfl, rfl, rfl, Nat.le_refl 0, by decide⟩
  size := rfl
  small := by decide

/-- A larger buffer holds what the smaller one did. -/
theorem changeBufferSizeTo_spec {val : Bytes} {k size : Nat} {b : ByteString} (h : Holds val k b)
    (h0 : 0 < size) (hle : val.length ≤ size) (hs : size ≤ 2 ^ 30) :
    ∃ b', b.changeBufferSizeTo size = .ok b' ∧ Holds val k b' ∧ size ≤ b'.buf.length := by
  have ha := le_aligned size
  have ha' := aligned_le size
  have hlen : toSize b.dataLen = val.length := by
    rw [h.toAt.len]
    exact toSize_of_lt (by have := h.toAt.fits; omega)
  have hmod : aligned size % 2 ^ 64 = aligned size := Nat.mod_eq_of_lt (by omega)
  have hkept : b.buf.take (min (aligned size) val.length) = val := by
    rw [Nat.min_eq_right (by omega), h.toAt.data]
  unfold changeBufferSizeTo
  simp only [hmod, hlen, hkept, show aligned size ≠ 0 by omega,
    show ¬ 2 ^ 63 ≤ aligned size by omega, if_false]
  have hint : toInt (aligned size : Int) = aligned size := toInt_of_lt (by omega)
  generalize hbuf : val ++ List.replicate (aligned size - val.length) (0 : UInt8) = buf
  have hlen : buf.length = aligned size := by
    rw [← hbuf, List.length_append, List.length_replicate]
    omega
  have htake : buf.take val.length = val := by
    rw [← hbuf]
    exact List.take_left' rfl
  refine ⟨_, rfl, ⟨⟨htake, h.toAt.len, h.toAt.pos, h.toAt.le, h.toAt.fits⟩, ?_, ?_⟩, ?_⟩
  · simp only [hint, hlen]
  · simp only [hlen]
    omega
  · simp only [hlen]
    omega

theorem guranteeSpace_spec {val : Bytes} {k size : Nat} {b : ByteString} (h : Holds val k b)
    (hs : size ≤ 2 ^ 30) :
    ∃ b', b.guranteeSpace size = .ok b' ∧ Holds val k b' ∧ size ≤ b'.buf.length := by
  have hsize : toSize b.bufSize = b.buf.length := by
    rw [h.size]
    exact toSize_of_lt (by have := h.small; omega)
  unfold guranteeSpace
  rw [hsize]
  by_cases hlt : b.buf.length < size
  · rw [if_pos hlt]
    obtain ⟨j, hj, he, hle⟩ := doubling_spec hs
    have hpow : 2 ^ j ≤ 2 ^ 30 := Nat.pow_le_pow_right (by omega) hj
    have hval := h.length_le
    simp only [adjustBufferSize, he, toSize_of_lt (show 2 ^ j < 2 ^ 64 by omega)]
    obtain ⟨b', he', hb', hle'⟩ := changeBufferSizeTo_spec h (by omega) (by omega) hpow
    exact ⟨b', he', hb', by omega⟩
  · rw [if_neg hlt]
    exact ⟨b, rfl, h, by omega⟩

/-! ## Writing -/

theorem length_overwrite {buf : Bytes} {k : Nat} (hk : k ≤ buf.length) (w : Bytes) :
    (overwrite buf k w).length = max (k + w.length) buf.length := by
  simp only [overwrite, List.length_append, List.length_take, List.length_drop]
  omega

theorem take_overwrite {buf val w : Bytes} {k : Nat} (hdata : buf.take val.length = val)
    (hk : k ≤ val.length) :
    (overwrite buf k w).take (overwrite val k w).length = overwrite val k w := by
  have hsplit : buf = val ++ buf.drop val.length := by
    conv_lhs => rw [← List.take_append_drop val.length buf, hdata]
  have htake : buf.take k = val.take k := by
    conv_lhs => rw [hsplit, List.take_append_of_le_length hk]
  rw [length_overwrite hk]
  unfold overwrite
  rw [htake]
  by_cases hle : k + w.length ≤ val.length
  · have hdrop : buf.drop (k + w.length) = val.drop (k + w.length) ++ buf.drop val.length := by
      conv_lhs => rw [hsplit, List.drop_append_of_le_length hle]
    rw [hdrop, ← List.append_assoc]
    apply List.take_left'
    simp only [List.length_append, List.length_take, List.length_drop]
    omega
  · have hnil : val.drop (k + w.length) = [] := List.drop_eq_nil_of_le (by omega)
    rw [hnil, List.append_nil]
    apply List.take_left'
    simp only [List.length_append, List.length_take]
    omega

/-- `write` puts all of `w` at the cursor once `gurantee_space` has made room for it. -/
theorem write_of_space {val w : Bytes} {k : Nat} {b b₁ : ByteString} (h0 : w.length ≠ 0)
    (hk : b.offset = k) (hn : k + w.length < 2 ^ 64) (he : b.guranteeSpace (k + w.length) = .ok b₁)
    (h₁ : Holds val k b₁) (hle : k + w.length ≤ b₁.buf.length) :
    ∃ b', b.write w = .ok (w.length, b') ∧ Holds (overwrite val k w) (k + w.length) b' ∧
      b'.bufSize = b₁.bufSize := by
  unfold write
  rw [if_neg h0]
  have hneed : toSize (b.offset + (w.length : Int)) = k + w.length := by
    rw [hk, ← Int.natCast_add]
    exact toSize_of_lt hn
  have hsmall := h₁.small
  have hk := h₁.toAt.le
  have hfits := h₁.toAt.fits
  have hval := h₁.length_le
  have hcan : b₁.canWrite = b₁.buf.length - k := by
    unfold canWrite
    rw [h₁.size, h₁.toAt.pos,
      show ((b₁.buf.length : Int) - k) = ((b₁.buf.length - k : Nat) : Int) by omega,
      toSize_of_lt (by omega)]
  have hoff : b₁.offset.toNat = k := by rw [h₁.toAt.pos, Int.toNat_natCast]
  have hpos : toInt (b₁.offset + (w.length : Int)) = ((k + w.length : Nat) : Int) := by
    rw [h₁.toAt.pos, ← Int.natCast_add]
    exact toInt_of_lt (by omega)
  have hlen := length_overwrite hk w
  have hbuf : (overwrite b₁.buf k w).length = b₁.buf.length := by
    rw [length_overwrite (by omega)]
    omega
  simp only [hneed, he, ok_bind, hcan, show w.length ≤ b₁.buf.length - k by omega, if_true,
    List.take_length, hoff, hpos]
  refine ⟨_, rfl, ⟨⟨?_, ?_, rfl, ?_, ?_⟩, ?_, ?_⟩, rfl⟩
  · exact take_overwrite h₁.toAt.data hk
  · simp only [mightUpdateDataLen, h₁.toAt.len, hlen]
    split <;> omega
  · omega
  · omega
  · show b₁.bufSize = ((overwrite b₁.buf k w).length : Int)
    rw [hbuf]
    exact h₁.size
  · show (overwrite b₁.buf k w).length < _
    omega

theorem overwrite_nil (val : Bytes) (k : Nat) : overwrite val k [] = val := by simp [overwrite]

/-- `write` puts all of `w` at the cursor and stops behind it. -/
theorem write_spec {val w : Bytes} {k : Nat} {b : ByteString} (h : Holds val k b)
    (hw : k + w.length ≤ 2 ^ 30) :
    ∃ b', b.write w = .ok (w.length, b') ∧ Holds (overwrite val k w) (k + w.length) b' := by
  by_cases h0 : w.length = 0
  · obtain rfl : w = [] := List.length_eq_zero_iff.1 h0
    rw [overwrite_nil]
    exact ⟨b, rfl, h⟩
  · obtain ⟨b₁, he, h₁, hle⟩ := guranteeSpace_spec h hw
    obtain ⟨b', he', hb', -⟩ := write_of_space h0 h.toAt.pos (by omega) he h₁ hle
    exact ⟨b', he', hb'⟩

/-- `<<` with the cursor at the end appends. -/
theorem put_spec {val w : Bytes} {b : ByteString} (h : Holds val val.length b)
    (hw : val.length + w.length ≤ 2 ^ 30) :
    ∃ b', b.put w = .ok b' ∧ Holds (val ++ w) (val ++ w).length b' := by
  obtain ⟨b', he, hb'⟩ := write_spec h hw
  have happ : overwrite val val.length w = val ++ w := by
    simp [overwrite, List.drop_eq_nil_of_le]
  rw [happ, ← List.length_append] at hb'
  refine ⟨b', ?_, hb'⟩
  simp only [put, he, ok_bind, if_true]

theorem Holds.toStdString {val : Bytes} {k : Nat} {b : ByteString} (h : Holds val k b) :
    b.toStdString = val := by
  unfold ByteString.toStdString
  rw [h.toAt.len, toSize_of_lt (by have := h.toAt.fits; omega), h.toAt.data]

end ByteString
end ShadowTalk.Sml
