import ShadowTalk.Sml.ByteWriter

/-!
# How a `byte_string` grows

`adjust_buffer_size` doubles an `int` until it covers the need. What it covers is a
power of two, and the largest one that an `int` holds is 2^30: beyond it the loop
goes on with -2^31, which compares as a huge `size_t`, and the allocation throws.

* `Valid`: the fields of a `byte_string` fit together.
* `doubling_cases`: for every need, how the doubling loop ends.
* `guranteeSpace_cases`: growing keeps the string valid and its contents, or throws.
* `guranteeSpace_grows_iff`: it makes room exactly if there is room already, or the
  request is at most 2^30 bytes.
-/
namespace ShadowTalk.Sml
open ShadowTalk.Core

namespace ByteString

/-- The fields fit together; the buffer has the size that `buf_size_` says. -/
structure Valid (b : ByteString) : Prop where
  pos : 0 ≤ b.offset
  offset_le : b.offset ≤ b.dataLen
  dataLen_le : b.dataLen ≤ b.bufSize
  size : b.bufSize = b.buf.length
  aligned : b.buf.length % 16 = 0
  small : b.buf.length < 2 ^ 31

variable {b : ByteString}

theorem empty_valid : Valid empty := ⟨by decide, by decide, by decide, rfl, rfl, by decide⟩

theorem Valid.toSize_bufSize (h : Valid b) : toSize b.bufSize = b.buf.length := by
  have := h.small
  rw [h.size, toSize_of_lt (by omega)]

theorem Valid.exists_dataLen (h : Valid b) : ∃ n : Nat, b.dataLen = n ∧ n ≤ b.buf.length := by
  have h1 := h.pos
  have h2 := h.offset_le
  have h3 := h.dataLen_le
  have h4 := h.size
  exact ⟨b.dataLen.toNat, by omega, by omega⟩

theorem Valid.toSize_dataLen (h : Valid b) : toSize b.dataLen = b.dataLen.toNat := by
  obtain ⟨n, hn, hle⟩ := h.exists_dataLen
  have := h.small
  rw [hn, toSize_of_lt (by omega), Int.toNat_natCast]

/-- A valid string holds its contents. -/
theorem Valid.holds (h : Valid b) : Holds b.toStdString b.offset.toNat b := by
  obtain ⟨n, hn, hle⟩ := h.exists_dataLen
  have h1 := h.pos
  have h2 := h.offset_le
  have h3 := h.small
  have hstr : b.toStdString = b.buf.take n := by
    rw [toStdString, h.toSize_dataLen, hn, Int.toNat_natCast]
  have hlen : (b.buf.take n).length = n := by
    rw [List.length_take]
    omega
  rw [hstr]
  refine ⟨⟨?_, ?_, ?_, ?_, ?_⟩, h.size, h.small⟩
  · rw [hlen]
  · rw [hlen, hn]
  · omega
  · omega
  · omega

/-! ## The doubling loop -/

/-- The products that the doubling loop computes, before they are stored in an
`int`. -/
def doubled (need : Nat) : Nat → Int → List Int
  | 0, _ => []
  | fuel + 1, dst =>
    if toSize dst < need then
      dst * 2 :: (if toInt (dst * 2) = 0 then [] else doubled need fuel (toInt (dst * 2)))
    else []

theorem toInt_double {k : Nat} (hk : k < 30) :
    toInt (((2 ^ k : Nat) : Int) * 2) = ((2 ^ (k + 1) : Nat) : Int) := by
  have hpow : 2 ^ (k + 1) ≤ 2 ^ 30 := Nat.pow_le_pow_right (by omega) hk
  rw [← toInt_of_lt (show 2 ^ (k + 1) < 2 ^ 31 by omega), Nat.pow_succ]
  push_cast
  rfl

theorem toSize_pow {k : Nat} (hk : k ≤ 30) : toSize ((2 ^ k : Nat) : Int) = 2 ^ k := by
  have hpow : 2 ^ k ≤ 2 ^ 30 := Nat.pow_le_pow_right (by omega) hk
  exact toSize_of_lt (by omega)

/-- A need above 2^30 takes the loop to 2^30. -/
theorem doubling_up {need : Nat} (hn : 2 ^ 30 < need) (fuel : Nat) :
    ∀ {j k : Nat}, k + j = 30 → doubling need (fuel + j) ((2 ^ k : Nat) : Int) =
      doubling need fuel ((2 ^ 30 : Nat) : Int) := by
  intro j
  induction j with
  | zero =>
    intro k hk
    rw [show k = 30 by omega, Nat.add_zero]
  | succ j ih =>
    intro k hk
    have hpow : 2 ^ k ≤ 2 ^ 30 := Nat.pow_le_pow_right (by omega) (by omega)
    have hpos := Nat.two_pow_pos (k + 1)
    rw [← Nat.add_assoc, doubling, toSize_pow (by omega), if_pos (by omega)]
    simp only [toInt_double (show k < 30 by omega)]
    rw [if_neg (by omega), ih (by omega)]

/-- The product that is stored as -2^31 is, converted back, more than any size asked for. -/
theorem not_overflowed_lt {n : Nat} (hn : n ≤ 2 ^ 32) : ¬ toSize (-2147483648) < n := by
  have hsize : toSize (-2147483648) = 18446744071562067968 := by decide
  omega

/-- From 2^30 on: the next product is stored as -2^31, which covers all but the
hugest needs, and the one after it as 0. -/
theorem doubling_top {need : Nat} (hn : 2 ^ 30 < need) (fuel : Nat) :
    doubling need (fuel + 3) ((2 ^ 30 : Nat) : Int) =
      if toSize (-2147483648) < need then none else some (-2147483648) := by
  have h1 : toSize ((2 ^ 30 : Nat) : Int) = 2 ^ 30 := toSize_pow (Nat.le_refl 30)
  have h2 : toInt (((2 ^ 30 : Nat) : Int) * 2) = -2147483648 := by decide
  have h3 : toInt (-2147483648 * 2) = 0 := by decide
  rw [doubling, h1, if_pos hn, h2, if_neg (by decide), doubling, h3]
  rfl

theorem doubling_huge {need : Nat} (hn : 2 ^ 30 < need) (fuel : Nat) :
    doubling need (fuel + 33) 1 =
      if toSize (-2147483648) < need then none else some (-2147483648) := by
  have hup := doubling_up hn (fuel + 3) (j := 30) (k := 0) rfl
  rw [doubling_top hn fuel] at hup
  exact hup

/-- More fuel does not change what the loop has found. -/
theorem doubling_more {need : Nat} {x : Int} (more : Nat) :
    ∀ {fuel : Nat} {dst : Int}, doubling need fuel dst = some x →
      doubling need (fuel + more) dst = some x := by
  intro fuel
  induction fuel with
  | zero =>
    intro dst h
    cases h
  | succ fuel ih =>
    intro dst h
    rw [show fuel + 1 + more = fuel + more + 1 by omega]
    rw [doubling] at h ⊢
    split at h
    · rename_i hlt
      rw [if_pos hlt]
      simp only at h ⊢
      split at h
      · cases h
      · rename_i hne
        rw [if_neg hne]
        exact ih h
    · rename_i hlt
      rw [if_neg hlt]
      exact h

/-- The loop is over after at most 33 rounds, whatever the need. -/
theorem doubling_fuel (need more : Nat) : doubling need (33 + more) 1 = doubling need 33 1 := by
  by_cases hn : need ≤ 2 ^ 30
  · obtain ⟨j, -, hj, -⟩ := doubling_spec hn
    rw [hj]
    exact doubling_more more hj
  · have hn : 2 ^ 30 < need := by omega
    have hzero := doubling_huge hn 0
    rw [Nat.zero_add] at hzero
    rw [Nat.add_comm, doubling_huge hn more, hzero]

/-- How the loop ends: at a power of two that covers the need, or, for a need above 2^30,
with a negative number, or with 0. -/
theorem doubling_cases (need : Nat) :
    (∃ j ≤ 30, doubling need 33 1 = some ((2 ^ j : Nat) : Int) ∧ need ≤ 2 ^ j) ∨
      2 ^ 30 < need ∧
        (doubling need 33 1 = none ∧ toSize (-2147483648) < need ∨
          doubling need 33 1 = some (-2147483648)) := by
  by_cases hn : need ≤ 2 ^ 30
  · exact .inl (doubling_spec hn)
  · have hn : 2 ^ 30 < need := by omega
    have hhuge := doubling_huge hn 0
    rw [Nat.zero_add] at hhuge
    refine .inr ⟨hn, ?_⟩
    by_cases hlt : toSize (-2147483648) < need
    · rw [if_pos hlt] at hhuge
      exact .inl ⟨hhuge, hlt⟩
    · rw [if_neg hlt] at hhuge
      exact .inr hhuge

/-- For a need up to 2^30 every product is an `int`. -/
theorem doubled_lt {need : Nat} (hn : need ≤ 2 ^ 30) :
    ∀ (fuel : Nat) {k : Nat}, k ≤ 30 → ∀ x ∈ doubled need fuel ((2 ^ k : Nat) : Int),
      x < 2 ^ 31 := by
  intro fuel
  induction fuel with
  | zero =>
    intro k _ x hx
    cases hx
  | succ fuel ih =>
    intro k hk x hx
    rw [doubled, toSize_pow hk] at hx
    split at hx
    · rename_i hlt
      -- 2^30 covers the need, so it is not doubled
      have hk' : k < 30 := by
        rcases Nat.lt_or_ge k 30 with hk' | hge
        · exact hk'
        · rw [show k = 30 by omega] at hlt
          omega
      have hpow : 2 ^ (k + 1) ≤ 2 ^ 30 := Nat.pow_le_pow_right (by omega) hk'
      have hpos := Nat.two_pow_pos (k + 1)
      rw [toInt_double hk', if_neg (by omega), List.mem_cons] at hx
      rcases hx with hx | hx
      · rw [hx]
        have : ((2 ^ k : Nat) : Int) * 2 = ((2 ^ (k + 1) : Nat) : Int) := by
          rw [Nat.pow_succ]
          push_cast
          rfl
        omega
      · exact ih hk' x hx
    · cases hx

/-! ## The buffer -/

theorem aligned_mod (n : Nat) : aligned n % 16 = 0 := by
  unfold aligned
  split <;> omega

theorem aligned_of_mod {n : Nat} (h : n % 16 = 0) : aligned n = n := by
  unfold aligned
  split <;> omega

/-- Reallocation, where the rounded size is an `int`: a buffer of that size, with the data
that fits. -/
theorem changeBufferSizeTo_eq (b : ByteString) (size : Nat) (hs : aligned size < 2 ^ 31) :
    ∃ buf, b.changeBufferSizeTo size = .ok { b with buf := buf, bufSize := aligned size } ∧
      buf.length = aligned size ∧
      (toSize b.dataLen ≤ aligned size → toSize b.dataLen ≤ b.buf.length →
        buf.take (toSize b.dataLen) = b.buf.take (toSize b.dataLen)) := by
  have hmod : aligned size % 2 ^ 64 = aligned size := Nat.mod_eq_of_lt (by omega)
  unfold changeBufferSizeTo
  simp only [hmod]
  by_cases h0 : aligned size = 0
  · refine ⟨[], ?_, h0.symm, fun hle _ => ?_⟩
    · rw [if_pos h0, h0]
      rfl
    · rw [show toSize b.dataLen = 0 by omega]
      rfl
  · simp only [h0, if_false, show ¬ 2 ^ 63 ≤ aligned size by omega, toInt_of_lt hs]
    generalize hkept : b.buf.take (min (aligned size) (toSize b.dataLen)) = kept
    refine ⟨kept ++ List.replicate (aligned size - kept.length) 0, rfl, ?_, fun hle hbuf => ?_⟩
    · have hlen : kept.length ≤ aligned size := by
        rw [← hkept, List.length_take]
        omega
      rw [List.length_append, List.length_replicate]
      omega
    · have hall : kept = b.buf.take (toSize b.dataLen) := by
        rw [← hkept, Nat.min_eq_right hle]
      rw [hall]
      apply List.take_left'
      rw [List.length_take]
      omega

theorem changeBufferSizeTo_valid (h : Valid b) (size : Nat) (hle : b.dataLen ≤ size)
    (hs : aligned size < 2 ^ 31) :
    ∃ b', b.changeBufferSizeTo size = .ok b' ∧ Valid b' ∧ b'.buf.length = aligned size ∧
      b'.dataLen = b.dataLen ∧ b'.offset = b.offset ∧ b'.toStdString = b.toStdString := by
  obtain ⟨n, hn, hnle⟩ := h.exists_dataLen
  have hsize := le_aligned size
  have hlen := h.toSize_dataLen
  rw [hn, Int.toNat_natCast] at hlen
  obtain ⟨buf, he, hbuf, hkept⟩ := changeBufferSizeTo_eq b size hs
  rw [hn, hlen] at hkept
  refine ⟨_, he, ⟨h.pos, h.offset_le, ?_, ?_, ?_, ?_⟩, hbuf, rfl, rfl, ?_⟩
  · show b.dataLen ≤ (aligned size : Int)
    omega
  · show (aligned size : Int) = buf.length
    rw [hbuf]
  · show buf.length % 16 = 0
    rw [hbuf]
    exact aligned_mod size
  · show buf.length < 2 ^ 31
    omega
  · show buf.take (toSize b.dataLen) = b.buf.take (toSize b.dataLen)
    rw [hn, hlen]
    exact hkept (by omega) hnle

/-- `new char[]` of a negative size, as a `ptrdiff_t`. -/
theorem changeBufferSizeTo_huge (b : ByteString) :
    b.changeBufferSizeTo (toSize (-2147483648)) = .error .badArrayNewLength := by
  have hs : aligned (toSize (-2147483648)) % 2 ^ 64 = 18446744071562067968 := by decide
  unfold changeBufferSizeTo
  simp only [hs]
  rw [if_neg (by decide), if_pos (by decide)]

theorem aligned_le_pow {n : Nat} (h : n ≤ 2 ^ 30) : aligned n ≤ 2 ^ 30 := by
  unfold aligned
  split <;> omega

/-- `gurantee_space` returns a valid string with the same contents and enough room for
all but the hugest requests, or it throws. It grows to at most 2^30 bytes. -/
theorem guranteeSpace_cases (h : Valid b) (size : Nat) :
    (∃ b', b.guranteeSpace size = .ok b' ∧ Valid b' ∧ b'.dataLen = b.dataLen ∧
        b'.offset = b.offset ∧ b'.toStdString = b.toStdString ∧
        (size ≤ b'.buf.length ∨ toSize (-2147483648) < size) ∧
        b'.bufSize ≤ max b.bufSize (2 ^ 30)) ∨
      b.guranteeSpace size = .error .badArrayNewLength ∧ b.bufSize < size ∧ 2 ^ 30 < size := by
  have hsize := h.size
  have hlen := h.dataLen_le
  unfold guranteeSpace
  rw [h.toSize_bufSize]
  by_cases hlt : b.buf.length < size
  · rw [if_pos hlt]
    unfold adjustBufferSize
    rcases doubling_cases size with ⟨j, hj, he, hle⟩ | ⟨hbig, ⟨he, hhuge⟩ | he⟩
    · have hpow : 2 ^ j ≤ 2 ^ 30 := Nat.pow_le_pow_right (by omega) hj
      have hal := aligned_le_pow hpow
      have hal' := le_aligned (2 ^ j)
      simp only [he, toSize_pow hj]
      obtain ⟨b', he', hv, hbl, hd, ho, hs⟩ :=
        changeBufferSizeTo_valid h (2 ^ j) (by omega) (by omega)
      have hsize' := hv.size
      exact .inl ⟨b', he', hv, hd, ho, hs, .inl (by omega), by omega⟩
    · simp only [he]
      exact .inl ⟨b, rfl, h, rfl, rfl, rfl, .inr hhuge, Int.le_max_left _ _⟩
    · simp only [he]
      exact .inr ⟨changeBufferSizeTo_huge b, by omega, hbig⟩
  · rw [if_neg hlt]
    exact .inl ⟨b, rfl, h, rfl, rfl, rfl, .inl (by omega), Int.le_max_left _ _⟩

/-- What `gurantee_space(n)` is for: the loop ends, nothing overflows, and `b'` has room
for `n` bytes and is otherwise as `b`. -/
structure Grows (b : ByteString) (n : Nat) (b' : ByteString) : Prop where
  ends : ∀ more, doubling n (33 + more) 1 = doubling n 33 1
  noOverflow : toSize b.bufSize < n → ∀ x ∈ doubled n 33 1, x < 2 ^ 31
  covers : (n : Int) ≤ b'.bufSize
  aligned : b'.bufSize % 16 = 0
  pos : 0 < n → 0 < b'.bufSize
  kept : b'.buf.take b.dataLen.toNat = b.buf.take b.dataLen.toNat
  dataLen : b'.dataLen = b.dataLen
  offset : b'.offset = b.offset

/-- Room is made exactly if there is room already, or the request is at most 2^30 bytes. -/
theorem guranteeSpace_grows_iff {n : Nat} (h : Valid b) (hn : n < 2 ^ 31 - 16) :
    (∃ b', b.guranteeSpace n = .ok b' ∧ Grows b n b') ↔ (n : Int) ≤ b.bufSize ∨ n ≤ 2 ^ 30 := by
  have hhuge : ¬ toSize (-2147483648) < n := not_overflowed_lt (by omega)
  rcases guranteeSpace_cases h n with ⟨b', he, hv, hd, ho, hs, hroom, hmax⟩ | ⟨he, hlt, hbig⟩
  · have hcov : n ≤ b'.buf.length := hroom.resolve_right hhuge
    have hsize := hv.size
    have hal := hv.aligned
    have hcond : (n : Int) ≤ b.bufSize ∨ n ≤ 2 ^ 30 := by omega
    refine iff_of_true ⟨b', he, doubling_fuel n, fun hgrow => ?_, by omega, by omega,
      fun _ => by omega, ?_, hd, ho⟩ hcond
    · rw [h.toSize_bufSize] at hgrow
      have := h.size
      exact doubled_lt (hcond.resolve_left (by omega)) 33 (k := 0) (by omega)
    · rw [toStdString, toStdString, hv.toSize_dataLen, h.toSize_dataLen, hd] at hs
      exact hs
  · refine iff_of_false ?_ (by omega)
    intro h
    obtain ⟨b', hok, -⟩ := h
    rw [he] at hok
    cases hok

/-- `hello`, in a buffer of 16 bytes, of which two have been read. -/
def helloString : ByteString := ⟨[104, 101, 108, 108, 111] ++ List.replicate 11 0, 5, 16, 2⟩

/-- 100 bytes are asked for: the loop doubles up to 128, and `hello` stays. -/
theorem guranteeSpace_grows_hello : ∃ b', helloString.guranteeSpace 100 = .ok b' ∧
    b'.bufSize = 128 ∧ Grows helloString 100 b' := by
  have hv : Valid helloString := ⟨by decide, by decide, by decide, rfl, rfl, by decide⟩
  have hsize : (helloString.guranteeSpace 100).toOption.map ByteString.bufSize = some 128 := by
    decide
  obtain ⟨b', he, hg⟩ := (guranteeSpace_grows_iff (n := 100) hv (by decide)).2 (.inr (by decide))
  rw [he] at hsize
  exact ⟨b', he, Option.some.inj hsize, hg⟩

/-- Counterexample: a byte more than 2^30 is refused with `std::bad_array_new_length`. -/
theorem not_grows_beyond :
    ¬ ∃ b', empty.guranteeSpace 1073741825 = .ok b' ∧ Grows empty 1073741825 b' := by
  have he : empty.guranteeSpace 1073741825 = .error .badArrayNewLength := by decide
  intro h
  obtain ⟨b', hok, -⟩ := h
  rw [he] at hok
  cases hok

end ByteString
end ShadowTalk.Sml
