import ShadowTalk.Sml.ByteString

/-!
# Addresses

An address and its text form. `std::stoul` is modelled for a 64-bit
`unsigned long`.

* `parse_ok_iff`: the constructor from a text returns exactly if the part behind
  the last colon starts with a number that fits.
-/
namespace ShadowTalk.Sml
open ShadowTalk.Core

/-- mirrors client/sml/address.h:26-28 -/
structure Address where
  ip : Bytes
  port : UInt16
  deriving DecidableEq, Repr

/-- The remote endpoint of a UDP socket over IPv4. -/
structure Endpoint where
  a : UInt8
  b : UInt8
  c : UInt8
  d : UInt8
  port : UInt16
  deriving DecidableEq, Repr

/-! ## Numbers in texts -/

def isSpace (b : UInt8) : Bool := b == 32 || (9 ≤ b && b ≤ 13)

def isDigit (b : UInt8) : Bool := 48 ≤ b && b ≤ 57

/-- Text of a number. -/
def decimal (n : Nat) : Bytes := (Nat.toDigits 10 n).map fun c => UInt8.ofNat c.toNat

/-- What `strtoul` reads: the text behind white space and a sign. -/
def unsigned (s : Bytes) : Bool × Bytes :=
  match (s.takeWhile (· != 0)).dropWhile isSpace with
  | 45 :: t => (true, t)
  | 43 :: t => (false, t)
  | t => (false, t)

def decValue (ds : Bytes) : Nat := ds.foldl (fun n b => 10 * n + (b.toNat - 48)) 0

/-- `std::stoul(s)`: trailing characters are ignored, and a minus sign negates
modulo `2 ^ 64`. -/
def stoul (s : Bytes) : Except Exc Nat :=
  let (neg, t) := unsigned s
  let digits := t.takeWhile isDigit
  if digits = [] then .error .invalidArgument
  else if 2 ^ 64 ≤ decValue digits then .error .outOfRange
  else .ok (if neg then (2 ^ 64 - decValue digits) % 2 ^ 64 else decValue digits)

/-- A text that starts with a number below `2 ^ 64`, behind white space and a sign. -/
def NumberText (s : Bytes) : Prop :=
  (unsigned s).2.takeWhile isDigit ≠ [] ∧ decValue ((unsigned s).2.takeWhile isDigit) < 2 ^ 64

instance (s : Bytes) : Decidable (NumberText s) := inferInstanceAs (Decidable (_ ∧ _))

theorem stoul_ok_iff (s : Bytes) : (∃ n, stoul s = .ok n) ↔ NumberText s := by
  unfold stoul NumberText
  simp only
  split
  · rename_i h
    simp [h]
  · rename_i h
    split
    · rename_i hle
      simp only [reduceCtorEq, exists_false, false_iff, not_and, Nat.not_lt]
      exact fun _ => hle
    · rename_i hlt
      simp only [Except.ok.injEq, exists_eq', true_iff]
      exact ⟨h, Nat.not_le.1 hlt⟩

namespace Address

/-- mirrors client/sml/address.cpp:8-11 -/
def ofEndpoint (e : Endpoint) : Address where
  ip := decimal e.a.toNat ++ 46 :: decimal e.b.toNat ++ 46 :: decimal e.c.toNat ++
    46 :: decimal e.d.toNat
  port := e.port

/-- The part of `s` behind its last colon; all of `s` if there is none. -/
def afterColon (s : Bytes) : Bytes := (s.reverse.takeWhile (· != 58)).reverse

/-- The part of `s` before its last colon; all of `s` if there is none. -/
def beforeColon (s : Bytes) : Bytes :=
  if 58 ∈ s then s.take (s.length - (afterColon s).length - 1) else s

/-- mirrors client/sml/address.cpp:15-19 -/
def parse (s : Bytes) : Except Exc Address :=
  match stoul (afterColon s) with
  | .ok n => .ok ⟨beforeColon s, .ofNat n⟩
  | .error x => .error x

theorem parse_ok_iff (s : Bytes) : (∃ a, parse s = .ok a) ↔ NumberText (afterColon s) := by
  rw [← stoul_ok_iff]
  unfold parse
  split
  · rename_i n h
    simp [h]
  · rename_i x h
    simp [h]

example : parse [49, 46, 50, 58, 56, 48] = .ok ⟨[49, 46, 50], 80⟩ := by decide

end Address
end ShadowTalk.Sml
