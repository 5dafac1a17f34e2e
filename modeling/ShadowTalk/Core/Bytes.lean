import Mathlib.Data.List.TakeDrop
import Mathlib.Data.List.TakeWhile

/-!
# Byte strings and their slices

`slice S o n` is the part of `S` of length `n` at offset `o`. A slice that lies
inside `S` stays the same when `S` grows (`slice_append`), and a prefix extended
by the slice that follows it is the longer prefix (`take_append_slice`).
-/
namespace ShadowTalk.Core

/-- `std::string` as a byte buffer. -/
abbrev Bytes := List UInt8

variable {α : Type}

def slice (S : List α) (o n : Nat) : List α := (S.drop o).take n

theorem slice_length {S : List α} {o n : Nat} (h : o + n ≤ S.length) :
    (slice S o n).length = n := by
  simp only [slice, List.length_take, List.length_drop]; omega

theorem slice_append {S : List α} {o n : Nat} (h : o + n ≤ S.length) (T : List α) :
    slice (S ++ T) o n = slice S o n := by
  rw [slice, slice, List.drop_append_of_le_length (by omega),
    List.take_append_of_le_length (by rw [List.length_drop]; omega)]

/-- A slice that starts in the appended part. -/
theorem slice_append_right (S T : List α) (o n : Nat) :
    slice (S ++ T) (S.length + o) n = slice T o n := by
  simp only [slice, List.drop_append, List.drop_eq_nil_of_le (Nat.le_add_right S.length o),
    List.nil_append, Nat.add_sub_cancel_left]

/-- The slice that is the first part. -/
theorem slice_left_of {S : List α} {n : Nat} (h : S.length = n) (T : List α) :
    slice (S ++ T) 0 n = S := by
  rw [slice, List.drop_zero, List.take_left' h]

theorem slice_right_of {S : List α} {k : Nat} (h : S.length = k) (T : List α) (o n : Nat) :
    slice (S ++ T) (k + o) n = slice T o n := by
  rw [← h, slice_append_right]

theorem take_append_slice (S : List α) (o n : Nat) : S.take o ++ slice S o n = S.take (o + n) :=
  List.take_add.symm

theorem take_append_left {S : List α} {o : Nat} (h : o ≤ S.length) (T : List α) :
    (S ++ T).take o = S.take o := List.take_append_of_le_length h

/-- A string without a zero byte is the same as a C string. -/
theorem takeWhile_ne_zero {s : Bytes} (h : ∀ c ∈ s, c ≠ 0) : s.takeWhile (· != 0) = s := by
  refine List.takeWhile_eq_self_iff.2 ?_
  intro c hc
  simpa using h c hc

end ShadowTalk.Core
