import ShadowTalk.Core.OrderedMap
import ShadowTalk.Sml.Datagram
import Mathlib.Data.Nat.Digits.Defs

/-!
# Configuration, key agreement and the cipher

The cryptographic primitives are those of Crypto++ and are parameters (`Env`);
what surrounds them (which bytes they are given, when they throw, how the agreed
value becomes an AES key) is modelled. Random choices (ephemeral private keys,
initialisation vectors) are arguments of the functions that make them.

* `setKey_eq`: an agreed value of at least 16 bytes is folded into a 16-byte
  key, a shorter one is rejected.
* `decrypt_eq`: a ciphertext of at most 16 bytes is rejected.
-/
namespace ShadowTalk.Sml
open ShadowTalk.Core

/-- mirrors client/sml/configuration.h:35-42; the members the handshake reads. -/
structure Configuration where
  id : Bytes
  privateKey : Bytes
  publicKey : Bytes
  trustedPeerKeyMap : OMap Bytes Bytes

/-- mirrors client/sml/configuration.cpp:67-76 -/
def Configuration.getPeerPublicKeyById (c : Configuration) (id : Bytes) : Bytes :=
  match c.trustedPeerKeyMap.find? id with
  | some key => key
  | none => []

/-- The host and its libraries: byte order, Crypto++ and the address parser of
asio. -/
structure Env where
  endian : Endian
  /-- magnitude of `CryptoPP::Integer(const char *)` -/
  integer : Bytes → Nat
  /-- public value of an ephemeral private key -/
  ephemeralPub : Bytes → Bytes
  /-- `DH2::Agree(.., spriv, epriv, peer_spub, peer_epub)`, `none` for `false` -/
  agree : Bytes → Bytes → Bytes → Bytes → Option Bytes
  /-- `CFB_Mode<AES>::Encryption(key, iv)` on the data -/
  cfbEncrypt : Bytes → Bytes → Bytes → Bytes
  /-- `CFB_Mode<AES>::Decryption(key, iv)` on the data -/
  cfbDecrypt : Bytes → Bytes → Bytes → Bytes
  /-- `address::from_string` accepts the text -/
  validIp : Bytes → Bool

/-- Big-endian bytes of a number, as many as it needs (`Integer::Encode` into
`ByteCount()` bytes). -/
def encodeNat (n : Nat) : Bytes := ((Nat.digits 256 n).map UInt8.ofNat).reverse

/-- The string that `c_str()` denotes. -/
def cStr (s : Bytes) : Bytes := s.takeWhile (· != 0)

/-- mirrors client/sml/dh_key_agreement.h:15-21 -/
def Env.hexStrToBytes (env : Env) (hex : Bytes) : Bytes := encodeNat (env.integer (cStr hex))

/-! ## `aes_128` -/

def blockSize : Nat := 16
def keyLength : Nat := 16

/-- The key is the first 16 bytes with the further ones folded in.
mirrors client/sml/aes_128.cpp:12-21 -/
def setKey (key : Bytes) : Except Exc Bytes :=
  if key.length < keyLength then .error .invalidDataError
  else
    .ok ((key.drop keyLength).zipIdx.foldl
      (fun k b => k.modify (b.2 % keyLength) (· ^^^ b.1)) (key.take keyLength))

/-- mirrors client/sml/aes_128.cpp:23-33 -/
def Env.encrypt (env : Env) (key iv data : Bytes) : Bytes := iv ++ env.cfbEncrypt key iv data

/-- mirrors client/sml/aes_128.cpp:35-47 -/
def Env.decrypt (env : Env) (key data : Bytes) : Except Exc Bytes :=
  let plaintextLength := toInt (data.length - blockSize)
  if plaintextLength ≤ 0 then .error .invalidDataError
  else .ok (env.cfbDecrypt key (data.take blockSize) ((data.drop blockSize).take plaintextLength.toNat))

theorem setKey_eq (key : Bytes) :
    (setKey key = .error .invalidDataError ∧ key.length < 16) ∨
      ∃ k, setKey key = .ok k ∧ 16 ≤ key.length := by
  unfold setKey keyLength
  split
  · rename_i h; exact .inl ⟨rfl, h⟩
  · rename_i h; exact .inr ⟨_, rfl, not_lt.1 h⟩

theorem decrypt_eq (env : Env) (key : Bytes) {data : Bytes} (h : data.length < 2 ^ 31) :
    env.decrypt key data =
      if data.length ≤ 16 then .error .invalidDataError
      else .ok (env.cfbDecrypt key (data.take 16) (data.drop 16)) := by
  have hb : toInt (data.length - blockSize) = data.length - 16 := by
    unfold toInt blockSize
    rw [Int.bmod_eq_of_le] <;> push_cast <;> omega
  unfold Env.decrypt
  simp only [hb]
  by_cases hle : data.length ≤ 16
  · rw [if_pos (by omega), if_pos hle]
  · rw [if_neg (by omega), if_neg hle]
    have hn : ((data.length : Int) - 16).toNat = (data.drop blockSize).length := by
      rw [List.length_drop, blockSize]; omega
    rw [hn, List.take_length, blockSize]

/-! ## `dh_key_agreement` -/

/-- mirrors client/sml/dh_key_agreement.h:53-55; a null pointer is `none`. -/
structure DhKeyAgreement where
  spriv : Option Bytes
  spub : Option Bytes
  epriv : Option Bytes
  epub : Option Bytes
  peerSpub : Option Bytes
  peerEpub : Option Bytes
  shared : Option Bytes
  deriving DecidableEq, Repr

namespace DhKeyAgreement

def new : DhKeyAgreement := ⟨none, none, none, none, none, none, none⟩

/-- mirrors client/sml/dh_key_agreement.cpp:73-86 -/
def setStaticKeyPairs (k : DhKeyAgreement) (spriv spub : Bytes) : DhKeyAgreement :=
  { k with spriv := some spriv, spub := some spub }

/-- `priv` is the random private key.
mirrors client/sml/dh_key_agreement.cpp:66-71 -/
def generateEphemeralKeyPairs (k : DhKeyAgreement) (env : Env) (priv : Bytes) : DhKeyAgreement :=
  { k with epriv := some priv, epub := some (env.ephemeralPub priv) }

/-- mirrors client/sml/dh_key_agreement.cpp:100-111 -/
def setPeerPubKeyPairs (k : DhKeyAgreement) (spub epub : Bytes) : DhKeyAgreement :=
  { k with peerSpub := some spub, peerEpub := some epub }

/-- A failing `Agree` leaves an empty block in `shared`, which nobody reads.
mirrors client/sml/dh_key_agreement.cpp:113-123 -/
def generateSharedKey (k : DhKeyAgreement) (env : Env) : DhKeyAgreement × Option Exc :=
  match k.spriv, k.epriv, k.peerSpub, k.peerEpub with
  | some sa, some ea, some pb, some qb =>
    match env.agree sa ea pb qb with
    | some v => ({ k with shared := some v }, none)
    | none => (k, some .runtimeError)
  | _, _, _, _ => (k, some .nullDeref)

end DhKeyAgreement

/-! ## A small group

Diffie-Hellman modulo 23 with generator 5, put together as `DH2` does: the
agreed value is the static shared secret followed by the ephemeral one. Used
where a concrete environment is wanted. -/

/-- Value of the hexadecimal digits of a text, other characters being ignored. -/
def hexValue (s : Bytes) : Nat :=
  s.foldl (fun acc c =>
    if 48 ≤ c.toNat ∧ c.toNat ≤ 57 then 16 * acc + (c.toNat - 48)
    else if 97 ≤ c.toNat ∧ c.toNat ≤ 102 then 16 * acc + (c.toNat - 87)
    else acc) 0

/-- `5 ^ x mod 23` as one byte. -/
def smallPub (x : Bytes) : Bytes := [UInt8.ofNat (5 ^ leNat x % 23)]

/-- The shared secret of a private key and a public value, in eight bytes. -/
def smallShared (x y : Bytes) : Bytes := List.replicate 8 (UInt8.ofNat (leNat y ^ leNat x % 23))

/-- Byte `i` of a key stream. -/
def smallPad (key iv : Bytes) (i : Nat) : UInt8 := key.getD (i % 16) 0 ^^^ iv.getD (i % 16) 0

/-- The key stream laid over the data. -/
def smallCipher (key iv data : Bytes) : Bytes :=
  data.zipIdx.map fun x => x.1 ^^^ smallPad key iv x.2

theorem length_smallCipher (key iv data : Bytes) :
    (smallCipher key iv data).length = data.length := by
  rw [smallCipher, List.length_map, List.length_zipIdx]

theorem smallCipher_smallCipher (key iv data : Bytes) :
    smallCipher key iv (smallCipher key iv data) = data := by
  refine List.ext_getElem (by simp only [length_smallCipher]) fun i _ _ => ?_
  simp only [smallCipher, List.getElem_map, List.getElem_zipIdx, Nat.zero_add]
  rw [UInt8.xor_assoc, UInt8.xor_self, UInt8.xor_zero]

def smallEnv : Env where
  endian := .little
  integer := hexValue
  ephemeralPub := smallPub
  agree sa ea pb qb := some (smallShared sa pb ++ smallShared ea qb)
  cfbEncrypt := smallCipher
  cfbDecrypt := smallCipher
  validIp ip := !ip.isEmpty

/-- Peer `a`: private key 3, public key 5 ^ 3 mod 23 = 10. -/
def smallConfA : Configuration where
  id := [97]
  privateKey := [48, 120, 51]
  publicKey := [48, 120, 97]
  trustedPeerKeyMap := OMap.empty.set [98] [48, 120, 52]

/-- Peer `b`: private key 4, public key 5 ^ 4 mod 23 = 4. -/
def smallConfB : Configuration where
  id := [98]
  privateKey := [48, 120, 52]
  publicKey := [48, 120, 52]
  trustedPeerKeyMap := OMap.empty.set [97] [48, 120, 97]

end ShadowTalk.Sml
