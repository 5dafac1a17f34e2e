import ShadowTalk.Sml.ByteWriter
import ShadowTalk.Sml.Datagram

/-!
# Datagrams on the wire

`datagram::operator shared_ptr<std::string>` writes the header fields and the
payload into an empty `byte_string`. Parsing (`Datagram.parse`) is its inverse.

* `toBytes_eq`: serialising yields the 13 header bytes and the payload.
* `decode_encode`, `encode_decode`: header by header, the two are inverse.
* `codec_bijective`: parsing what was serialised gives the datagram back, serialising what
  was parsed gives the bytes back, and fewer than 13 bytes are rejected.
-/
namespace ShadowTalk.Sml
open ShadowTalk.Core

/-- The byte of a type. -/
def MsgType.toByte : MsgType → UInt8
  | .keepAlive => 0
  | .ack => 1
  | .hello => 2
  | .publicKey => 3
  | .partialSharedKey => 4
  | .echo => 5
  | .echoBack => 6
  | .data => 7
  | .dataAck => 8
  | .abort => 9
  | .unknown k => UInt8.ofNat (10 + k)

@[simp] theorem MsgType.ofByte_toByte (t : MsgType) : MsgType.ofByte t.toByte = t := by
  cases t with
  | unknown k =>
    have hk := k.isLt
    have hb : (UInt8.ofNat (10 + k)).toNat = 10 + k := by
      rw [UInt8.toNat_ofNat']
      omega
    unfold MsgType.ofByte MsgType.toByte
    simp only [hb, show 10 ≤ 10 + k.val by omega, dite_true, Nat.add_sub_cancel_left]
  | _ => rfl

@[simp] theorem MsgType.toByte_ofByte (b : UInt8) : (MsgType.ofByte b).toByte = b := by
  apply UInt8.toNat_inj.1
  by_cases h : 10 ≤ b.toNat
  · have hb := b.toNat_lt
    simp only [MsgType.ofByte, h, dite_true, MsgType.toByte, UInt8.toNat_ofNat']
    omega
  · have hcases : b.toNat = 0 ∨ b.toNat = 1 ∨ b.toNat = 2 ∨ b.toNat = 3 ∨ b.toNat = 4 ∨
        b.toNat = 5 ∨ b.toNat = 6 ∨ b.toNat = 7 ∨ b.toNat = 8 ∨ b.toNat = 9 := by omega
    simp only [MsgType.ofByte, h, dite_false]
    rcases hcases with h | h | h | h | h | h | h | h | h | h <;> rw [h] <;> rfl

/-- The four bytes of a number, least significant first. -/
def leBytes (n : Nat) : Bytes :=
  [UInt8.ofNat n, UInt8.ofNat (n / 256), UInt8.ofNat (n / 65536), UInt8.ofNat (n / 16777216)]

/-- The bytes of a `uint32_t` in memory. -/
def Endian.bytes : Endian → UInt32 → Bytes
  | .little, x => leBytes x.toNat
  | .big, x => (leBytes x.toNat).reverse

@[simp] theorem Endian.bytes_length (e : Endian) (x : UInt32) : (e.bytes x).length = 4 := by
  cases e <;> rfl

theorem leNat_leBytes {n : Nat} (h : n < 2 ^ 32) : leNat (leBytes n) = n := by
  simp only [leNat, leBytes, List.foldr_cons, List.foldr_nil, UInt8.toNat_ofNat']
  omega

theorem leBytes_leNat {bs : Bytes} (h : bs.length = 4) :
    leNat bs < 2 ^ 32 ∧ leBytes (leNat bs) = bs := by
  obtain ⟨a, b, c, d, rfl⟩ : ∃ a b c d, bs = [a, b, c, d] := by
    match bs, h with
    | [a, b, c, d], _ => exact ⟨a, b, c, d, rfl⟩
  have ha := a.toNat_lt
  have hb := b.toNat_lt
  have hc := c.toNat_lt
  have hd := d.toNat_lt
  have hv : leNat [a, b, c, d] =
      a.toNat + 256 * (b.toNat + 256 * (c.toNat + 256 * (d.toNat + 256 * 0))) := rfl
  have hbyte : ∀ (x : UInt8) (n : Nat), n % 256 = x.toNat → UInt8.ofNat n = x := by
    intro x n hn
    apply UInt8.toNat_inj.1
    rw [UInt8.toNat_ofNat']
    omega
  refine ⟨by omega, ?_⟩
  unfold leBytes
  rw [hbyte a _ (by omega), hbyte b _ (by omega), hbyte c _ (by omega), hbyte d _ (by omega)]

@[simp] theorem Endian.u32_bytes (e : Endian) (x : UInt32) : e.u32 (e.bytes x) = x := by
  have hx := leNat_leBytes x.toNat_lt
  cases e with
  | little => simp only [Endian.u32, Endian.bytes, hx, UInt32.ofNat_toNat]
  | big => simp only [Endian.u32, Endian.bytes, List.reverse_reverse, hx, UInt32.ofNat_toNat]

theorem Endian.bytes_u32 (e : Endian) {bs : Bytes} (h : bs.length = 4) :
    e.bytes (e.u32 bs) = bs := by
  cases e with
  | little =>
    obtain ⟨hlt, hb⟩ := leBytes_leNat h
    simp only [Endian.u32, Endian.bytes, UInt32.toNat_ofNat_of_lt' hlt, hb]
  | big =>
    have hrev : bs.reverse.length = 4 := by rw [List.length_reverse, h]
    obtain ⟨hlt, hb⟩ := leBytes_leNat hrev
    simp only [Endian.u32, Endian.bytes, UInt32.toNat_ofNat_of_lt' hlt, hb, List.reverse_reverse]

namespace Datagram

/-- `operator shared_ptr<std::string>`.
mirrors client/sml/datagram.cpp:42-50 -/
def toBytes (e : Endian) (d : Datagram) : Except Exc Bytes := do
  let b ← ByteString.empty.put [d.type.toByte]
  let b ← b.put (e.bytes d.id)
  let b ← b.put (e.bytes d.offset)
  let b ← b.put (e.bytes d.length)
  let b ← b.put d.payload
  .ok b.toStdString

/-- The header and the payload, one after the other. -/
def encode (e : Endian) (d : Datagram) : Bytes :=
  [d.type.toByte] ++ e.bytes d.id ++ e.bytes d.offset ++ e.bytes d.length ++ d.payload

theorem encode_length (e : Endian) (d : Datagram) :
    (d.encode e).length = 13 + d.payload.length := by
  simp only [encode, List.length_append, Endian.bytes_length, List.length_cons, List.length_nil]

/-- Every write fits, also where the buffer has to grow. -/
theorem toBytes_eq (e : Endian) (d : Datagram) (h : d.payload.length ≤ 2 ^ 30 - 13) :
    d.toBytes e = .ok (d.encode e) := by
  have hb : ∀ x, (e.bytes x).length = 4 := e.bytes_length
  have ht : [d.type.toByte].length = 1 := rfl
  obtain ⟨b₁, e₁, h₁⟩ := ByteString.put_spec (w := [d.type.toByte]) ByteString.empty_holds
    (by simp)
  obtain ⟨b₂, e₂, h₂⟩ := ByteString.put_spec (w := e.bytes d.id) h₁ (by simp)
  obtain ⟨b₃, e₃, h₃⟩ := ByteString.put_spec (w := e.bytes d.offset) h₂ (by simp)
  obtain ⟨b₄, e₄, h₄⟩ := ByteString.put_spec (w := e.bytes d.length) h₃ (by simp)
  obtain ⟨b₅, e₅, h₅⟩ := ByteString.put_spec (w := d.payload) h₄ (by
    simp only [List.length_append, hb, ht, List.length_nil]
    omega)
  simp only [toBytes, e₁, e₂, e₃, e₄, e₅, ok_bind, h₅.toStdString]
  rfl

/-- The slices that `decode` takes are the fields that `encode` wrote. -/
theorem decode_encode (e : Endian) (d : Datagram) : decode e (d.encode e) = d := by
  generalize hi : e.bytes d.id = bi
  generalize ho : e.bytes d.offset = bo
  generalize hl : e.bytes d.length = bl
  have hbi : bi.length = 4 := hi ▸ e.bytes_length d.id
  have hbo : bo.length = 4 := ho ▸ e.bytes_length d.offset
  have hbl : bl.length = 4 := hl ▸ e.bytes_length d.length
  have henc : d.encode e = [d.type.toByte] ++ (bi ++ (bo ++ (bl ++ d.payload))) := by
    simp only [encode, hi, ho, hl, List.append_assoc]
  have h0 : slice (d.encode e) 0 1 = [d.type.toByte] := by
    rw [henc]
    rfl
  have skip : ∀ o n, slice (d.encode e) (1 + o) n = slice (bi ++ (bo ++ (bl ++ d.payload))) o n :=
    fun o n => by
      rw [henc]
      exact slice_right_of (k := 1) rfl _ o n
  have h1 : slice (d.encode e) 1 4 = bi := (skip 0 4).trans (slice_left_of hbi _)
  have h5 : slice (d.encode e) 5 4 = bo :=
    calc slice (d.encode e) 5 4 = slice (bi ++ (bo ++ (bl ++ d.payload))) (4 + 0) 4 := skip 4 4
      _ = slice (bo ++ (bl ++ d.payload)) 0 4 := slice_right_of hbi _ 0 4
      _ = bo := slice_left_of hbo _
  have h9 : slice (d.encode e) 9 4 = bl :=
    calc slice (d.encode e) 9 4 = slice (bi ++ (bo ++ (bl ++ d.payload))) (4 + 4) 4 := skip 8 4
      _ = slice (bo ++ (bl ++ d.payload)) (4 + 0) 4 := slice_right_of hbi _ 4 4
      _ = slice (bl ++ d.payload) 0 4 := slice_right_of hbo _ 0 4
      _ = bl := slice_left_of hbl _
  have h13 : (d.encode e).drop 13 = d.payload := by
    rw [encode]
    apply List.drop_left'
    simp only [List.length_append, Endian.bytes_length, List.length_cons, List.length_nil]
  unfold decode
  rw [h0, h1, h5, h9, h13, ← hi, ← ho, ← hl, e.u32_bytes, e.u32_bytes, e.u32_bytes]
  simp only [List.headD_cons, MsgType.ofByte_toByte]

theorem encode_decode (e : Endian) {bytes : Bytes} (h : 13 ≤ bytes.length) :
    (decode e bytes).encode e = bytes := by
  have hbyte : [(slice bytes 0 1).headD 0] = bytes.take 1 := by
    cases bytes with
    | nil => simp at h
    | cons b bs => rfl
  have hfield : ∀ o, o + 4 ≤ 13 → e.bytes (e.u32 (slice bytes o 4)) = slice bytes o 4 :=
    fun o ho => e.bytes_u32 (slice_length (by omega))
  unfold encode decode
  simp only [MsgType.toByte_ofByte]
  rw [hbyte, hfield 1 (by omega), hfield 5 (by omega), hfield 9 (by omega), take_append_slice,
    take_append_slice, take_append_slice, List.take_append_drop]

/-- Parsing and serialising are inverse to each other, and what is too short for
a header is rejected. -/
theorem codec_bijective (e : Endian) :
    (∀ d : Datagram, d.payload.length < 2 ^ 29 →
      ∃ bytes, d.toBytes e = .ok bytes ∧ parse e bytes = .ok d) ∧
    (∀ bytes : Bytes, 13 ≤ bytes.length → bytes.length < 2 ^ 29 →
      ∃ d, parse e bytes = .ok d ∧ d.toBytes e = .ok bytes) ∧
    ∀ bytes : Bytes, bytes.length < 13 → parse e bytes = .error .ioError := by
  refine ⟨fun d hd => ?_, fun bytes h13 hlt => ?_, fun bytes hlt => ?_⟩
  · have hlen := encode_length e d
    refine ⟨d.encode e, toBytes_eq e d (by omega), ?_⟩
    rw [parse_eq e (by omega), if_pos (by omega), decode_encode]
  · have hpay : (decode e bytes).payload.length = bytes.length - 13 := List.length_drop
    refine ⟨decode e bytes, ?_, ?_⟩
    · rw [parse_eq e (by omega), if_pos h13]
    · rw [toBytes_eq e _ (by omega), encode_decode e h13]
  · rw [parse_eq e (by omega), if_neg (by omega)]

/-- An echo, its bytes, and 12 bytes that are no datagram. -/
theorem codec_bijective_echo :
    (∃ bytes, (createEcho [49, 0, 51]).toBytes .little = .ok bytes ∧
      parse .little bytes = .ok (createEcho [49, 0, 51])) ∧
    (∃ d, parse .little [5, 0, 0, 0, 0, 0, 0, 0, 0, 3, 0, 0, 0, 49, 0, 51] = .ok d ∧
      d.toBytes .little = .ok [5, 0, 0, 0, 0, 0, 0, 0, 0, 3, 0, 0, 0, 49, 0, 51]) ∧
    parse .little [5, 0, 0, 0, 0, 0, 0, 0, 0, 3, 0, 0] = .error .ioError :=
  ⟨(codec_bijective .little).1 _ (by decide), (codec_bijective .little).2.1 _ (by decide) (by decide),
    (codec_bijective .little).2.2 _ (by decide)⟩

end Datagram
end ShadowTalk.Sml
