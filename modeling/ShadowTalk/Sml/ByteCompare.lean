import ShadowTalk.Core.CommonPart
import ShadowTalk.Core.OrderedMap
import ShadowTalk.Sml.ByteWriter

/-!
# Comparing `byte_string`s

`<` compares what two strings have in common and stops there; the other operators
are derived from it and from `==`.

* `blt_iff`, `beq_iff`: what `<` and `==` say of the contents.
* `ordered_iff`: the laws of a total order hold exactly between strings of which
  neither is a proper prefix of the other.
* `not_ordered`: `a` and `ab` are both greater than each other.
-/
namespace ShadowTalk.Sml
open ShadowTalk.Core

namespace ByteString

/-- The sign of `memcmp`. -/
def memcmp (s t : Bytes) (n : Nat) : Ordering := compareCommon (s.take n) (t.take n)

/-- `operator==`.
mirrors client/sml/byte_string.cpp:127-133 -/
def beq (a b : ByteString) : Bool :=
  if a.dataLen = b.dataLen then memcmp a.buf b.buf (toSize a.dataLen) == .eq else false

/-- `operator!=`.
mirrors client/sml/byte_string.cpp:135-137 -/
def bne (a b : ByteString) : Bool := !a.beq b

/-- `operator<`.
mirrors client/sml/byte_string.cpp:139-142 -/
def blt (a b : ByteString) : Bool :=
  memcmp a.buf b.buf (toSize (if a.dataLen < b.dataLen then a.dataLen else b.dataLen)) == .lt

/-- `operator>`.
mirrors client/sml/byte_string.cpp:144-146 -/
def bgt (a b : ByteString) : Bool := !a.blt b && a.bne b

/-- `operator<=`.
mirrors client/sml/byte_string.cpp:148-150 -/
def ble (a b : ByteString) : Bool := !a.bgt b

/-- `operator>=`.
mirrors client/sml/byte_string.cpp:152-154 -/
def bge (a b : ByteString) : Bool := !a.blt b

/-- The data lies in the buffer. The cursor does not matter here. -/
structure Filled (b : ByteString) : Prop where
  nonneg : 0 ≤ b.dataLen
  le : b.dataLen ≤ b.buf.length
  small : b.dataLen < 2 ^ 31

variable {a b c : ByteString}

theorem Filled.exists_length (h : Filled b) :
    ∃ n : Nat, b.dataLen = n ∧ toSize b.dataLen = n ∧ b.toStdString = b.buf.take n ∧
      b.toStdString.length = n := by
  have h1 := h.nonneg
  have h2 := h.le
  have h3 := h.small
  have hsize : toSize b.dataLen = b.dataLen.toNat := by
    unfold toSize
    omega
  refine ⟨b.dataLen.toNat, by omega, hsize, ?_, ?_⟩
  · rw [toStdString, hsize]
  · rw [toStdString, hsize, List.length_take]
    omega

/-- `<` says that the contents are smaller where they first differ. -/
theorem blt_iff (ha : Filled a) (hb : Filled b) :
    a.blt b = true ↔ Below a.toStdString b.toStdString := by
  obtain ⟨m, hm, -, hma, hmlen⟩ := ha.exists_length
  obtain ⟨n, hn, -, hnb, hnlen⟩ := hb.exists_length
  have hsa := ha.small
  have hsb := hb.small
  have hmin : toSize (if a.dataLen < b.dataLen then a.dataLen else b.dataLen) = min m n := by
    rw [hm, hn]
    unfold toSize
    split <;> omega
  have htake : memcmp a.buf b.buf (min m n) = compareCommon a.toStdString b.toStdString := by
    rw [← compareCommon_take (n := min m n) (by rw [hmlen, hnlen]), hma, hnb, memcmp,
      List.take_take, List.take_take, Nat.min_eq_left (Nat.min_le_left m n),
      Nat.min_eq_left (Nat.min_le_right m n)]
  unfold blt
  rw [hmin, htake, beq_iff_eq]
  exact compareCommon_eq_lt

/-- `==` says that the contents are the same. -/
theorem beq_iff (ha : Filled a) (hb : Filled b) :
    a.beq b = true ↔ a.toStdString = b.toStdString := by
  obtain ⟨m, hm, hsm, hma, hmlen⟩ := ha.exists_length
  obtain ⟨n, hn, -, hnb, hnlen⟩ := hb.exists_length
  unfold beq
  by_cases hmn : m = n
  · subst hmn
    rw [if_pos (by rw [hm, hn]), hsm, memcmp, ← hma, ← hnb, beq_iff_eq]
    exact compareCommon_eq_eq (by rw [hmlen, hnlen])
  · rw [if_neg (by omega)]
    refine iff_of_false (by simp) fun he => hmn ?_
    rw [← hmlen, ← hnlen, he]

/-- The laws of a total order, for three strings. -/
structure Ordered (a b c : ByteString) : Prop where
  trichotomy : (a.blt b = true ∧ a.beq b = false ∧ b.blt a = false) ∨
    (a.blt b = false ∧ a.beq b = true ∧ b.blt a = false) ∨
    (a.blt b = false ∧ a.beq b = false ∧ b.blt a = true)
  trans : a.blt b = true → b.blt c = true → a.blt c = true
  gt : a.bgt b = true ↔ b.blt a = true
  le : a.ble b = true ↔ a.blt b = true ∨ a.beq b = true
  ge : a.bge b = true ↔ b.ble a = true

/-- The contents of one string are the beginning of those of the other one, and not all
of them. -/
def PrefixOf (a b : ByteString) : Prop :=
  a.toStdString <+: b.toStdString ∧ a.toStdString ≠ b.toStdString

/-- Of two strings that are no proper prefixes one is smaller, or they are equal. -/
theorem trichotomy (ha : Filled a) (hb : Filled b) (hab : ¬ a.PrefixOf b) (hba : ¬ b.PrefixOf a) :
    (a.blt b = true ∧ a.beq b = false ∧ b.blt a = false) ∨
      (a.blt b = false ∧ a.beq b = true ∧ b.blt a = false) ∨
      (a.blt b = false ∧ a.beq b = false ∧ b.blt a = true) := by
  simp only [Bool.eq_false_iff, ne_eq, blt_iff ha hb, blt_iff hb ha, beq_iff ha hb]
  have hself : ∀ x : Bytes, ¬ Below x x := fun x h => h.asymm h
  by_cases heq : a.toStdString = b.toStdString
  · rw [heq]
    exact .inr (.inl ⟨hself _, rfl, hself _⟩)
  · rcases below_or_isPrefix a.toStdString b.toStdString with h | h | h | h
    · exact .inl ⟨h, heq, h.asymm⟩
    · exact .inr (.inr ⟨h.asymm, heq, h⟩)
    · exact absurd ⟨h, heq⟩ hab
    · exact absurd ⟨h, fun he => heq he.symm⟩ hba

/-- A proper prefix is neither smaller nor equal nor greater. -/
theorem Ordered.not_prefixOf (ha : Filled a) (hb : Filled b) (h : Ordered a b c) :
    ¬ a.PrefixOf b ∧ ¬ b.PrefixOf a := by
  rcases h.trichotomy with ⟨h, -, -⟩ | ⟨-, h, -⟩ | ⟨-, -, h⟩
  · have hlt := ((blt_iff ha hb).1 h).not_isPrefix
    exact ⟨fun hp => hlt.1 hp.1, fun hp => hlt.2 hp.1⟩
  · have heq := (beq_iff ha hb).1 h
    exact ⟨fun hp => hp.2 heq, fun hp => hp.2 heq.symm⟩
  · have hgt := ((blt_iff hb ha).1 h).not_isPrefix
    exact ⟨fun hp => hgt.2 hp.1, fun hp => hgt.1 hp.1⟩

/-- The laws hold exactly if neither of the first two strings is a proper prefix of the
other; transitivity holds in any case. -/
theorem ordered_iff (ha : Filled a) (hb : Filled b) (hc : Filled c) :
    Ordered a b c ↔ ¬ a.PrefixOf b ∧ ¬ b.PrefixOf a := by
  constructor
  · exact fun h => h.not_prefixOf ha hb
  · intro h
    have htri := trichotomy ha hb h.1 h.2
    have hsymm : b.beq a = a.beq b := by
      rw [Bool.eq_iff_iff, beq_iff hb ha, beq_iff ha hb]
      exact eq_comm
    refine ⟨htri, fun h1 h2 => ?_, ?_, ?_, ?_⟩
    · rw [blt_iff ha hb] at h1
      rw [blt_iff hb hc] at h2
      exact (blt_iff ha hc).2 (h1.trans h2)
    · rcases htri with ⟨h1, h2, h3⟩ | ⟨h1, h2, h3⟩ | ⟨h1, h2, h3⟩ <;>
        simp [bgt, bne, h1, h2, h3]
    · rcases htri with ⟨h1, h2, h3⟩ | ⟨h1, h2, h3⟩ | ⟨h1, h2, h3⟩ <;>
        simp [ble, bgt, bne, h1, h2]
    · rcases htri with ⟨h1, h2, h3⟩ | ⟨h1, h2, h3⟩ | ⟨h1, h2, h3⟩ <;>
        simp [bge, ble, bgt, bne, hsymm, h1, h2, h3]

/-- `ac`, `ab` and `b`. -/
theorem ordered_small : ∃ a b c, ofStdString [97, 99] = .ok a ∧ ofStdString [97, 98] = .ok b ∧
    ofStdString [98] = .ok c ∧ Ordered a b c :=
  ⟨_, _, _, rfl, rfl, rfl, (ordered_iff ⟨by decide, by decide, by decide⟩
    ⟨by decide, by decide, by decide⟩ ⟨by decide, by decide, by decide⟩).2
    ⟨fun h => absurd h.1 (by decide), fun h => absurd h.1 (by decide)⟩⟩

/-- Counterexample: `a` is not smaller than `ab`, so it is greater, and the other way. -/
theorem not_ordered : ∃ a b, ofStdString [97] = .ok a ∧ ofStdString [97, 98] = .ok b ∧
    ¬ Ordered a b b := by
  refine ⟨_, _, rfl, rfl, fun h => ?_⟩
  have htri := h.trichotomy
  revert htri
  decide

end ByteString
end ShadowTalk.Sml
