import ShadowTalk.Sml.ByteCursor
import ShadowTalk.Sml.Codec

/-!
# Network byte order

The class comment of `byte_string` asks for big-endian contents on every host.
`append` of an integer converts it; `<<` copies its bytes as they are in memory, and
`datagram` uses `<<` and `>>` only.

* `network_order_iff`: when `<<` and `append` write the same, and when the header of a
  datagram means the same on another host.
* `not_network_order`: a one, written on a little-endian host.
-/
namespace ShadowTalk.Sml
open ShadowTalk.Core

/-! ## Bytes of integers -/

/-- The `w` bytes of an unsigned integer, least significant first. -/
def lsBytes : Nat → Nat → Bytes
  | 0, _ => []
  | w + 1, n => UInt8.ofNat n :: lsBytes w (n / 256)

@[simp] theorem lsBytes_length (w n : Nat) : (lsBytes w n).length = w := by
  induction w generalizing n with
  | zero => rfl
  | succ w ih => rw [lsBytes, List.length_cons, ih]

/-- The bytes of an unsigned integer of `w` bytes in memory. -/
def Endian.store : Endian → Nat → Nat → Bytes
  | .little, w, n => lsBytes w n
  | .big, w, n => (lsBytes w n).reverse

@[simp] theorem Endian.store_length (e : Endian) (w n : Nat) : (e.store w n).length = w := by
  cases e <;> simp [Endian.store]

/-- `uint32_t` is the case of four bytes. -/
theorem Endian.bytes_eq_store (e : Endian) (x : UInt32) : e.bytes x = e.store 4 x.toNat := by
  have hls : leBytes x.toNat = lsBytes 4 x.toNat := by
    simp only [leBytes, lsBytes, Nat.div_div_eq_div_mul, Nat.reduceMul]
  cases e with
  | little => exact hls
  | big => exact congrArg List.reverse hls

/-- The bytes of `n` read the same in both orders. -/
def Palindrome (w n : Nat) : Prop := (lsBytes w n).reverse = lsBytes w n

instance (w n : Nat) : Decidable (Palindrome w n) := inferInstanceAs (Decidable (_ = _))

theorem Endian.store_eq_big_iff (e : Endian) (w n : Nat) :
    e.store w n = Endian.big.store w n ↔ e = .big ∨ Palindrome w n := by
  cases e with
  | big => exact iff_of_true rfl (.inl rfl)
  | little =>
    constructor
    · exact fun h => .inr h.symm
    · exact fun h => (h.resolve_left (by simp)).symm

/-- What one host has written and another one reads. -/
theorem Endian.u32_bytes_iff (e e' : Endian) (x : UInt32) :
    e'.u32 (e.bytes x) = x ↔ e = e' ∨ Palindrome 4 x.toNat := by
  have hback : e'.u32 (e.bytes x) = x ↔ e.bytes x = e'.bytes x := by
    constructor
    · intro h
      rw [← e'.bytes_u32 (e.bytes_length x), h]
    · intro h
      rw [h, e'.u32_bytes]
  rw [hback, Endian.bytes_eq_store, Endian.bytes_eq_store]
  cases e with
  | little =>
    cases e' with
    | little => exact iff_of_true rfl (.inl rfl)
    | big => simpa using Endian.store_eq_big_iff .little 4 x.toNat
  | big =>
    cases e' with
    | little =>
      rw [eq_comm]
      simpa using Endian.store_eq_big_iff .little 4 x.toNat
    | big => exact iff_of_true rfl (.inl rfl)

/-! ## Writing at the end -/

namespace ByteString

/-- A valid string with these contents and its cursor at their end. -/
structure AtEnd (val : Bytes) (b : ByteString) : Prop where
  valid : Valid b
  content : b.toStdString = val
  cursor : b.offset = b.dataLen

variable {val w : Bytes} {b : ByteString}

theorem AtEnd.holds (h : AtEnd val b) : Holds val val.length b := by
  have hh := h.valid.holds
  rw [h.content] at hh
  have hpos := h.valid.pos
  have hlen := hh.toAt.len
  have hcur := h.cursor
  rwa [show b.offset.toNat = val.length by omega] at hh

theorem AtEnd.empty : AtEnd [] empty := ⟨empty_valid, rfl, rfl⟩

/-- There is room for `n` bytes, or it can be made. -/
def CanHold (b : ByteString) (n : Nat) : Prop := (n : Int) ≤ b.bufSize ∨ n ≤ 2 ^ 30

/-- With room, all of `w` is written. -/
theorem AtEnd.write (h : AtEnd val b) (hw : b.CanHold (val.length + w.length)) :
    ∃ b', b.write w = .ok (w.length, b') ∧ AtEnd (val ++ w) b' ∧
      (((val.length + w.length : Nat) : Int) ≤ b.bufSize → b'.bufSize = b.bufSize) := by
  by_cases h0 : w.length = 0
  · obtain rfl : w = [] := List.length_eq_zero_iff.1 h0
    rw [List.append_nil]
    exact ⟨b, rfl, h, fun _ => rfl⟩
  · have hsize := h.valid.size
    have hsmall := h.valid.small
    have hhuge : ¬ toSize (-2147483648) < val.length + w.length :=
      not_overflowed_lt (by rcases hw with hw | hw <;> omega)
    rcases guranteeSpace_cases h.valid (val.length + w.length) with
      ⟨b₁, he, hv, hd, ho, hs, hroom, -⟩ | ⟨-, hlt, hbig⟩
    · have hend : AtEnd val b₁ := ⟨hv, hs.trans h.content, by rw [hd, ho, h.cursor]⟩
      obtain ⟨b', he', hb', hsz⟩ := write_of_space h0 h.holds.toAt.pos
        (by rcases hw with hw | hw <;> omega) he hend.holds (hroom.resolve_right hhuge)
      have hv' := (h.valid.write w).1
      unfold writeOp at hv'
      rw [he'] at hv'
      have happ : overwrite val val.length w = val ++ w := by
        simp [overwrite, List.drop_eq_nil_of_le]
      rw [happ] at hb'
      refine ⟨b', he', ⟨hv', hb'.toStdString, ?_⟩, fun hle => ?_⟩
      · rw [hb'.toAt.pos, hb'.toAt.len, List.length_append]
      · -- nothing had to grow
        have hsame : b.guranteeSpace (val.length + w.length) = .ok b := by
          rw [guranteeSpace, h.valid.toSize_bufSize, if_neg (by omega)]
        rw [hsz, Except.ok.inj (he.symm.trans hsame)]
    · rcases hw with hw | hw <;> omega

theorem CanHold.of_max {n : Nat} (h : (n : Int) ≤ max b.bufSize (2 ^ 30)) : b.CanHold n := by
  unfold CanHold
  omega

/-- What is behind the old contents is `x` exactly if there is room, and `x` was written. -/
theorem AtEnd.writeOp_iff {x : Bytes} (h : AtEnd val b) (hx : x.length = w.length) :
    (b.writeOp w).1.toStdString = val ++ x ↔ b.CanHold (val.length + w.length) ∧ w = x := by
  have hval : val.length = b.dataLen.toNat := by
    have := h.holds.toAt.len
    omega
  constructor
  · intro hc
    have hroom : b.CanHold (val.length + w.length) := by
      have hv := (h.valid.write w).1
      have hlen := hv.holds.toAt.len
      have hle := hv.dataLen_le
      rw [hc, List.length_append, hx] at hlen
      refine .of_max ?_
      rw [← hlen]
      refine le_trans hle ?_
      unfold writeOp
      rcases (h.valid.write_cases w).2 with ⟨y, he⟩ | ⟨n, b', he, -, -, hmax⟩
      · rw [he]
        exact Int.le_max_left _ _
      · rw [he]
        exact hmax
    obtain ⟨b', he, hb', -⟩ := h.write hroom
    unfold writeOp at hc
    rw [he] at hc
    exact ⟨hroom, List.append_cancel_left (hb'.content.symm.trans hc)⟩
  · intro h'
    obtain ⟨hroom, rfl⟩ := h'
    obtain ⟨b', he, hb', -⟩ := h.write hroom
    unfold writeOp
    rw [he]
    exact hb'.content

/-- `<<` of an unsigned integer of `w` bytes.
mirrors client/sml/byte_string.h:67-73 -/
def putInt (e : Endian) (w n : Nat) (b : ByteString) : ByteString × Result := b.putOp (e.store w n)

/-- `append` of an unsigned integer of `w` bytes.
mirrors client/sml/byte_string.h:46-53 -/
def appendInt (w n : Nat) (b : ByteString) : ByteString × Result :=
  b.append (Endian.big.store w n)

/-- `<<` and `append` both put the big-endian bytes behind the old ones. -/
def PutsBig (e : Endian) (w n : Nat) (b : ByteString) : Prop :=
  (b.putInt e w n).1.toStdString = b.toStdString ++ Endian.big.store w n ∧
    (b.appendInt w n).1.toStdString = b.toStdString ++ Endian.big.store w n

theorem putsBig_iff {e : Endian} {w n : Nat} (h : AtEnd val b) :
    PutsBig e w n b ↔ b.CanHold (val.length + w) ∧ (e = .big ∨ Palindrome w n) := by
  have hput := h.writeOp_iff (w := e.store w n) (x := Endian.big.store w n) (by simp)
  have happ := h.writeOp_iff (w := Endian.big.store w n) (x := Endian.big.store w n) rfl
  have hint : toInt b.dataLen = b.dataLen :=
    toInt_of_nonneg (le_trans h.valid.pos h.valid.offset_le) h.valid.dataLen_lt
  have hsame : { b with offset := b.dataLen } = b := by
    have hcur := h.cursor
    cases b with
    | mk buf len size off =>
      obtain rfl : off = len := hcur
      rfl
  rw [Endian.store_length, Endian.store_eq_big_iff] at hput
  rw [Endian.store_length] at happ
  unfold PutsBig putInt appendInt
  rw [append_eq hint, hsame, h.content, happ]
  show (b.writeOp _).1.toStdString = _ ∧ _ ↔ _
  rw [hput]
  constructor
  · exact fun h => h.1
  · exact fun h => ⟨h, h.1, rfl⟩

/-- A `<<` that does not throw has written everything, within 2^30 bytes. -/
theorem AtEnd.of_put {b' : ByteString} (h : AtEnd val b) (hs : b.bufSize ≤ 2 ^ 30)
    (he : b.put w = .ok b') :
    AtEnd (val ++ w) b' ∧ b'.bufSize ≤ 2 ^ 30 ∧ val.length + w.length ≤ 2 ^ 30 := by
  unfold put at he
  rcases (h.valid.write_cases w).2 with ⟨x, hx⟩ | ⟨n, b₁, hx, hv, ho, hmax⟩
  · rw [hx] at he
    cases he
  · rw [hx, ok_bind] at he
    split at he
    · rename_i hn
      obtain rfl := Except.ok.inj he
      have hlen := h.holds.toAt.len
      have hcur := h.cursor
      have h1 := hv.offset_le
      have h2 := hv.dataLen_le
      have hn : n = w.length := hn
      have hle : val.length + w.length ≤ 2 ^ 30 := by omega
      obtain ⟨b₂, he₂, hb₂, -⟩ := h.write (w := w) (.inr hle)
      obtain rfl : b₁ = b₂ := by
        have := hx.symm.trans he₂
        exact (Prod.mk.inj (Except.ok.inj this)).2
      have hsize : b₁.bufSize ≤ 2 ^ 30 := le_trans hmax (by omega)
      exact ⟨hb₂, hsize, hle⟩
    · cases he

end ByteString

/-! ## Datagrams on another host -/

namespace Datagram
open ByteString

theorem toBytes_ok_iff (e : Endian) (d : Datagram) :
    (∃ bytes, d.toBytes e = .ok bytes) ↔ d.payload.length ≤ 2 ^ 30 - 13 := by
  constructor
  · intro hex
    obtain ⟨bytes, h⟩ := hex
    unfold toBytes at h
    obtain ⟨b₁, e₁, h⟩ := bind_eq_ok h
    obtain ⟨b₂, e₂, h⟩ := bind_eq_ok h
    obtain ⟨b₃, e₃, h⟩ := bind_eq_ok h
    obtain ⟨b₄, e₄, h⟩ := bind_eq_ok h
    obtain ⟨b₅, e₅, h⟩ := bind_eq_ok h
    obtain ⟨h₁, s₁, -⟩ := AtEnd.empty.of_put (by decide) e₁
    obtain ⟨h₂, s₂, -⟩ := h₁.of_put s₁ e₂
    obtain ⟨h₃, s₃, -⟩ := h₂.of_put s₂ e₃
    obtain ⟨h₄, s₄, -⟩ := h₃.of_put s₃ e₄
    obtain ⟨-, -, hle⟩ := h₄.of_put s₄ e₅
    simp only [List.length_append, List.length_cons, List.length_nil, Endian.bytes_length] at hle
    omega
  · exact fun h => ⟨d.encode e, toBytes_eq e d h⟩

/-- The four bytes of a header field, as `e` has written them. -/
theorem slice_encode (e : Endian) (d : Datagram) :
    slice (d.encode e) 1 4 = e.bytes d.id ∧ slice (d.encode e) 5 4 = e.bytes d.offset ∧
      slice (d.encode e) 9 4 = e.bytes d.length := by
  have hlen := encode_length e d
  have hdec := decode_encode e d
  have hback : ∀ o, o + 4 ≤ 13 →
      e.bytes (e.u32 (slice (d.encode e) o 4)) = slice (d.encode e) o 4 :=
    fun o ho => e.bytes_u32 (slice_length (by omega))
  have hid : e.u32 (slice (d.encode e) 1 4) = d.id := congrArg Datagram.id hdec
  have hoff : e.u32 (slice (d.encode e) 5 4) = d.offset := congrArg Datagram.offset hdec
  have hlength : e.u32 (slice (d.encode e) 9 4) = d.length := congrArg Datagram.length hdec
  rw [← hback 1 (by omega), ← hback 5 (by omega), ← hback 9 (by omega), hid, hoff, hlength]
  exact ⟨rfl, rfl, rfl⟩

/-- What host `e` has serialised, host `e'` parses to the same header fields. -/
def SameHeader (e e' : Endian) (d : Datagram) : Prop :=
  ∃ bytes d', d.toBytes e = .ok bytes ∧ parse e' bytes = .ok d' ∧ d'.id = d.id ∧
    d'.offset = d.offset ∧ d'.length = d.length

theorem sameHeader_iff (e e' : Endian) (d : Datagram) :
    SameHeader e e' d ↔ d.payload.length ≤ 2 ^ 30 - 13 ∧ (e = e' ∨ Palindrome 4 d.id.toNat ∧
      Palindrome 4 d.offset.toNat ∧ Palindrome 4 d.length.toNat) := by
  obtain ⟨hid, hoff, hlen⟩ := slice_encode e d
  have henc := encode_length e d
  have hfields : ((decode e' (d.encode e)).id = d.id ∧
      (decode e' (d.encode e)).offset = d.offset ∧ (decode e' (d.encode e)).length = d.length) ↔
      (e = e' ∨ Palindrome 4 d.id.toNat ∧ Palindrome 4 d.offset.toNat ∧
        Palindrome 4 d.length.toNat) := by
    unfold decode
    simp only [hid, hoff, hlen, Endian.u32_bytes_iff, or_and_left]
  rw [← hfields]
  constructor
  · intro h
    obtain ⟨bytes, d', hb, hp, h1, h2, h3⟩ := h
    have hle := (toBytes_ok_iff e d).1 ⟨bytes, hb⟩
    obtain rfl : d.encode e = bytes := Except.ok.inj ((toBytes_eq e d hle).symm.trans hb)
    rw [parse_eq e' (by omega), if_pos (by omega)] at hp
    obtain rfl := Except.ok.inj hp
    exact ⟨hle, h1, h2, h3⟩
  · intro h
    obtain ⟨hle, h1, h2, h3⟩ := h
    refine ⟨d.encode e, _, toBytes_eq e d hle, ?_, h1, h2, h3⟩
    rw [parse_eq e' (by omega), if_pos (by omega)]

/-- When `<<` and `append` of an integer write the same big-endian bytes, and when a header
means the same on both hosts. -/
theorem network_order_iff {b : ByteString} (e e' : Endian) (w n : Nat) (d : Datagram)
    (hv : Valid b) (hend : b.offset = b.dataLen) :
    (PutsBig e w n b ↔ b.CanHold (b.toStdString.length + w) ∧ (e = .big ∨ Palindrome w n)) ∧
    (SameHeader e e' d ↔ d.payload.length ≤ 2 ^ 30 - 13 ∧ (e = e' ∨ Palindrome 4 d.id.toNat ∧
      Palindrome 4 d.offset.toNat ∧ Palindrome 4 d.length.toNat)) :=
  ⟨putsBig_iff ⟨hv, rfl, hend⟩, sameHeader_iff e e' d⟩

/-- `hello`, with the cursor at its end. -/
def helloEnd : ByteString := ⟨[104, 101, 108, 108, 111] ++ List.replicate 11 0, 5, 16, 5⟩

/-- 0x01020201 behind `hello`, and a datagram from a little-endian host to a big-endian one:
all bytes read the same from behind. -/
theorem network_order_palindrome : PutsBig .little 4 0x01020201 helloEnd ∧
    SameHeader .little .big ⟨.data, 0x01000001, 0x00070700, 0x02000002, [1, 2]⟩ := by
  have hv : Valid helloEnd := ⟨by decide, by decide, by decide, rfl, rfl, by decide⟩
  have h := network_order_iff .little .big 4 0x01020201
    ⟨.data, 0x01000001, 0x00070700, 0x02000002, [1, 2]⟩ hv rfl
  exact ⟨h.1.2 ⟨.inr (by decide), .inr (by decide)⟩,
    h.2.2 ⟨by decide, .inr ⟨by decide, by decide, by decide⟩⟩⟩

/-- Counterexample: on a little-endian host the one of an acknowledged offset is written as
1, 0, 0, 0, and a big-endian host reads 2^24. -/
theorem not_network_order : ¬ PutsBig .little 4 1 empty ∧
    ¬ SameHeader .little .big (createAck 0 1) := by
  constructor
  · intro h
    have hc := h.1
    revert hc
    decide
  · intro h
    obtain ⟨bytes, d', hb, hp, -, ho, -⟩ := h
    obtain rfl := Except.ok.inj ((toBytes_eq .little (createAck 0 1) (by decide)).symm.trans hb)
    rw [parse_eq .big (by decide), if_pos (by decide)] at hp
    obtain rfl := Except.ok.inj hp
    revert ho
    decide

end Datagram
end ShadowTalk.Sml
