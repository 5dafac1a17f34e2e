import ShadowTalk.Core.Bytes

/-!
# Chat messages

The message of the registry service, as the server and both ends of the wire
see it (`Registry.Message`), and the message of the client's callers
(`Message`), whose texts are `QString`s.

Qt's two conversions are a parameter (`Qt`); nothing is assumed of them.
-/
namespace ShadowTalk.Grpc
open ShadowTalk.Core

namespace Registry

/-- An enumeration of proto3 is open: a number without a name is kept.
mirrors proto/registry.proto:45-47 -/
inductive MessageType where
  | text
  | unrecognized (v : Int32) (h : v ≠ 0)
  deriving DecidableEq, Repr

/-- `peerId` is `peer().id()`, which is empty for an absent `peer`.
mirrors proto/registry.proto:43-49 -/
structure Message where
  peerId : Bytes
  type : MessageType
  content : Bytes
  deriving DecidableEq, Repr

/-- A default-constructed message. -/
def Message.new : Message := ⟨[], .text, []⟩

end Registry

/-- UTF-16 code units. -/
abbrev QString := List UInt16

/-- `QString::toStdString` and the static `QString::fromStdString`. -/
structure Qt where
  toStdString : QString → Bytes
  fromStdString : Bytes → QString

/-- The conversions of plain ASCII texts. -/
def Qt.ascii : Qt where
  toStdString q := q.map fun c => .ofNat c.toNat
  fromStdString b := b.map fun c => .ofNat c.toNat

/-- mirrors client/GRPCClient.hpp:21-26; `TEXT` is the only type. -/
structure Message where
  peerId : QString
  bytes : Bytes
  deriving DecidableEq, Repr

/-- What `MessageSender::Proceed` puts into `to_send_`.
mirrors client/GRPCClient.cpp:139-143 -/
def Message.toSend (qt : Qt) (m : Message) : Registry.Message :=
  ⟨qt.toStdString m.peerId, .text, m.bytes⟩

end ShadowTalk.Grpc
