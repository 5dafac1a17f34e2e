import ShadowTalk.Sml.ByteString

/-!
# Datagrams

The unit of data transfer: a type byte, three 32-bit header fields and a
payload. The header fields are copied in the byte order of the host (`Endian`),
which is why parsing takes it as an argument.

* `parse_eq`: a byte string of fewer than 13 bytes is rejected with `io_error`,
  every other one is a datagram.
-/
namespace ShadowTalk.Sml
open ShadowTalk.Core

/-- `datagram::msg_type`, an `enum class` over `uint8_t`: the wire may carry any
byte, so the bytes without a name are `unknown` (byte `10 + k`).
mirrors client/sml/datagram.h:20-31 -/
inductive MsgType where
  | keepAlive
  | ack
  | hello
  | publicKey
  | partialSharedKey
  | echo
  | echoBack
  | data
  | dataAck
  | abort
  | unknown (k : Fin 246)
  deriving DecidableEq, Repr

def MsgType.ofByte (b : UInt8) : MsgType :=
  if h : 10 ≤ b.toNat then .unknown ⟨b.toNat - 10, by have := b.toNat_lt; omega⟩
  else
    match b.toNat with
    | 0 => .keepAlive
    | 1 => .ack
    | 2 => .hello
    | 3 => .publicKey
    | 4 => .partialSharedKey
    | 5 => .echo
    | 6 => .echoBack
    | 7 => .data
    | 8 => .dataAck
    | _ => .abort

/-- Byte order of the host. -/
inductive Endian where
  | little | big
  deriving DecidableEq, Repr

/-- The value of a byte string, least significant byte first. -/
def leNat (bs : Bytes) : Nat := bs.foldr (fun b acc => b.toNat + 256 * acc) 0

/-- The bytes of a `uint32_t` in memory, read back. -/
def Endian.u32 : Endian → Bytes → UInt32
  | .little, bs => UInt32.ofNat (leNat bs)
  | .big, bs => UInt32.ofNat (leNat bs.reverse)

/-- mirrors client/sml/datagram.h:36-40 -/
structure Datagram where
  type : MsgType
  id : UInt32
  offset : UInt32
  length : UInt32
  payload : Bytes
  deriving DecidableEq, Repr

namespace Datagram

/-- mirrors client/sml/datagram.cpp:5-9 -/
def new : Datagram := ⟨.keepAlive, 0, 0, 0, []⟩

/-- mirrors client/sml/datagram.cpp:15-22 -/
def parse (e : Endian) (bytes : Bytes) : Except Exc Datagram := do
  let b ← ByteString.ofStdString bytes
  let (type, b) ← b.readN 1
  let (id, b) ← b.readN 4
  let (offset, b) ← b.readN 4
  let (length, b) ← b.readN 4
  let (payload, _) ← b.readRest
  .ok ⟨.ofByte (type.headD 0), e.u32 id, e.u32 offset, e.u32 length, payload⟩

/-- mirrors client/sml/datagram.cpp:75-81 -/
def createHello (myId : Bytes) : Datagram :=
  { new with type := .hello, payload := myId, length := UInt32.ofNat myId.length }

/-- mirrors client/sml/datagram.cpp:83-90 -/
def createPublicKey (pubKey : Bytes) : Datagram :=
  { new with type := .publicKey, offset := 0, length := UInt32.ofNat pubKey.length, payload := pubKey }

/-- `id` is not stored.
mirrors client/sml/datagram.cpp:91-96 -/
def createAck (_id offset : UInt32) : Datagram := { new with type := .ack, offset := offset }

/-- mirrors client/sml/datagram.cpp:98-104 -/
def createEcho (content : Bytes) : Datagram :=
  { new with type := .echo, length := UInt32.ofNat content.length, payload := content }

/-- mirrors client/sml/datagram.cpp:106-110 -/
def createEchoBack (echo : Datagram) : Datagram := { echo with type := .echoBack }

@[simp] theorem createHello_type (i : Bytes) : (createHello i).type = .hello := rfl

/-- What the header and the payload of a long enough byte string are. -/
def decode (e : Endian) (bytes : Bytes) : Datagram :=
  ⟨.ofByte ((slice bytes 0 1).headD 0), e.u32 (slice bytes 1 4), e.u32 (slice bytes 5 4),
    e.u32 (slice bytes 9 4), bytes.drop 13⟩

theorem parse_eq (e : Endian) {bytes : Bytes} (h : bytes.length < 2 ^ 31) :
    parse e bytes = if 13 ≤ bytes.length then .ok (decode e bytes) else .error .ioError := by
  obtain ⟨b0, e0, a0⟩ := ByteString.ofStdString_at h
  simp only [parse, e0, ok_bind]
  have r1 := ByteString.readN_spec (n := 1) a0
  split at r1
  · obtain ⟨b1, e1, a1⟩ := r1
    have r2 := ByteString.readN_spec (n := 4) a1
    simp only [e1, ok_bind]
    split at r2
    · obtain ⟨b2, e2, a2⟩ := r2
      have r3 := ByteString.readN_spec (n := 4) a2
      simp only [e2, ok_bind]
      split at r3
      · obtain ⟨b3, e3, a3⟩ := r3
        have r4 := ByteString.readN_spec (n := 4) a3
        simp only [e3, ok_bind]
        split at r4
        · obtain ⟨b4, e4, a4⟩ := r4
          obtain ⟨b5, e5⟩ := ByteString.readRest_spec a4
          simp only [e4, e5, ok_bind, show 13 ≤ bytes.length by omega, if_true, decode]
        · simp only [r4, error_bind, show ¬ 13 ≤ bytes.length by omega, if_false]
      · simp only [r3, error_bind, show ¬ 13 ≤ bytes.length by omega, if_false]
    · simp only [r2, error_bind, show ¬ 13 ≤ bytes.length by omega, if_false]
  · simp only [r1, error_bind, show ¬ 13 ≤ bytes.length by omega, if_false]

end Datagram
end ShadowTalk.Sml
