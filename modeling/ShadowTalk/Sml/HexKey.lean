import ShadowTalk.Sml.Phases
import ShadowTalk.Sml.Trust

/-!
# Keys in hexadecimal

`hex_str_to_bytes` goes through an integer, and an integer does not know how wide its
text was.

* `hexStrToBytes_eq`: the key without its leading zero bytes.
* `key_kept_iff`: when the key, and the length of the blocks that `DH2::Agree` is given,
  come out whole.
* `key_not_kept`: a key of two bytes, the first of them zero.
-/
namespace ShadowTalk.Sml
open ShadowTalk.Core

/-! ## Hexadecimal digits -/

/-- Value of a hexadecimal digit, in either letter case. -/
def hexDigit (c : UInt8) : Option Nat :=
  if 48 ≤ c.toNat ∧ c.toNat ≤ 57 then some (c.toNat - 48)
  else if 65 ≤ c.toNat ∧ c.toNat ≤ 70 then some (c.toNat - 55)
  else if 97 ≤ c.toNat ∧ c.toNat ≤ 102 then some (c.toNat - 87)
  else none

/-- The digits of a text, most significant first. -/
def hexDigits : Bytes → Option (List Nat)
  | [] => some []
  | c :: s => (hexDigit c).bind fun d => (hexDigits s).map (d :: ·)

/-- The bytes that the digits stand for, two digits a byte. -/
def pairUp : List Nat → Option Bytes
  | [] => some []
  | [_] => none
  | hi :: lo :: ds => (pairUp ds).map (UInt8.ofNat (16 * hi + lo) :: ·)

/-- `0x` and the digits. -/
def hexText (t : Bytes) : Bytes := 48 :: 120 :: t

/-- `t` consists of the hexadecimal digits of `k`, two a byte. -/
def IsHexOf (t k : Bytes) : Prop := (hexDigits t).bind pairUp = some k

instance (t k : Bytes) : Decidable (IsHexOf t k) := inferInstanceAs (Decidable (_ = _))

theorem hexDigit_lt {c : UInt8} {d : Nat} (h : hexDigit c = some d) : d < 16 ∧ c ≠ 0 := by
  have hc : c ≠ 0 := by
    intro h0
    have hnul : hexDigit 0 = none := by decide
    rw [h0, hnul] at h
    cases h
  refine ⟨?_, hc⟩
  unfold hexDigit at h
  split at h
  · cases h
    omega
  · split at h
    · cases h
      omega
    · split at h
      · cases h
        omega
      · cases h

theorem hexDigits_cons {c : UInt8} {s : Bytes} {ds : List Nat} (h : hexDigits (c :: s) = some ds) :
    ∃ d ds', hexDigit c = some d ∧ hexDigits s = some ds' ∧ ds = d :: ds' := by
  obtain ⟨d, hd, h⟩ := Option.bind_eq_some_iff.1 h
  obtain ⟨ds', hs, h⟩ := Option.map_eq_some_iff.1 h
  exact ⟨d, ds', hd, hs, h.symm⟩

theorem hexDigits_spec {t : Bytes} {ds : List Nat} (h : hexDigits t = some ds) :
    (∀ d ∈ ds, d < 16) ∧ ∀ c ∈ t, c ≠ 0 := by
  induction t generalizing ds with
  | nil =>
    cases h
    simp
  | cons c s ih =>
    obtain ⟨d, ds', hd, hs, rfl⟩ := hexDigits_cons h
    obtain ⟨h1, h2⟩ := ih hs
    obtain ⟨hlt, hne⟩ := hexDigit_lt hd
    exact ⟨List.forall_mem_cons.2 ⟨hlt, h1⟩, List.forall_mem_cons.2 ⟨hne, h2⟩⟩

/-- Value of big-endian bytes. -/
def bigNat (k : Bytes) : Nat := Nat.ofDigits 256 (k.map UInt8.toNat).reverse

/-- Pairing up digits to base 16 gives digits to base 256. -/
theorem ofDigits_pairUp {ds : List Nat} {k : Bytes} (hd : ∀ d ∈ ds, d < 16)
    (h : pairUp ds = some k) :
    Nat.ofDigits 16 ds.reverse = bigNat k ∧ ds.length = 2 * k.length := by
  induction ds using pairUp.induct generalizing k with
  | case1 =>
    cases h
    exact ⟨rfl, rfl⟩
  | case2 => cases h
  | case3 hi lo ds ih =>
    obtain ⟨k, hk, rfl⟩ := Option.map_eq_some_iff.1 h
    simp only [List.forall_mem_cons] at hd
    obtain ⟨hhi, hlo, hds⟩ := hd
    obtain ⟨hval, hlen⟩ := ih hds hk
    have hbyte : (UInt8.ofNat (16 * hi + lo)).toNat = 16 * hi + lo := by
      rw [UInt8.toNat_ofNat']
      omega
    constructor
    · calc Nat.ofDigits 16 (hi :: lo :: ds).reverse
          = Nat.ofDigits 16 ds.reverse + 16 ^ ds.length * lo + 16 ^ (ds.length + 1) * hi := by
            rw [Nat.ofDigits_reverse_cons, Nat.ofDigits_reverse_cons, List.length_cons]
        _ = Nat.ofDigits 16 ds.reverse + 16 ^ ds.length * (16 * hi + lo) := by
            rw [pow_succ]
            ring
        _ = bigNat k + 256 ^ k.length * (16 * hi + lo) := by
            rw [hval, hlen, pow_mul, show 16 ^ 2 = 256 from rfl]
        _ = bigNat (UInt8.ofNat (16 * hi + lo) :: k) := by
            simp only [bigNat, List.map_cons, hbyte]
            rw [Nat.ofDigits_reverse_cons, List.length_map]
    · simp only [List.length_cons, hlen]
      omega

/-! ## Through the integer -/

/-- What an integer keeps of its bytes. -/
theorem encodeNat_bigNat (k : Bytes) : encodeNat (bigNat k) = k.dropWhile (· == 0) := by
  induction k with
  | nil => rfl
  | cons c k ih =>
    by_cases hc : c = 0
    · subst hc
      have : bigNat (0 :: k) = bigNat k := Nat.ofDigits_reverse_zero_cons _
      rw [this, ih]
      rfl
    · have hdigits : Nat.digits 256 (bigNat (c :: k)) = ((c :: k).map UInt8.toNat).reverse := by
        refine Nat.digits_ofDigits 256 (by decide) _ ?_ ?_
        · intro d hd
          obtain ⟨x, -, rfl⟩ := List.mem_map.1 (List.mem_reverse.1 hd)
          exact x.toNat_lt
        · intro _
          rw [List.getLast_reverse, List.head_map, List.head_cons]
          intro h0
          exact hc (UInt8.toNat_inj.1 h0)
      have hback : (List.map UInt8.toNat (c :: k)).map UInt8.ofNat = c :: k := by
        rw [List.map_map]
        exact List.map_id'' (fun x => UInt8.ofNat_toNat) _
      rw [encodeNat, hdigits, List.map_reverse, List.reverse_reverse, hback,
        List.dropWhile_cons_of_neg (by simpa using hc)]

/-- `CryptoPP::Integer` reads `0x` and hexadecimal digits as their value. -/
def Env.ReadsHex (env : Env) : Prop :=
  ∀ t ds, hexDigits t = some ds → env.integer (hexText t) = Nat.ofDigits 16 ds.reverse

theorem hexStrToBytes_eq {env : Env} (hread : env.ReadsHex) {t k : Bytes} (ht : IsHexOf t k) :
    env.hexStrToBytes (hexText t) = k.dropWhile (· == 0) := by
  obtain ⟨ds, hds, hk⟩ := Option.bind_eq_some_iff.1 ht
  obtain ⟨hlt, hne⟩ := hexDigits_spec hds
  have hstr : cStr (hexText t) = hexText t := by
    refine takeWhile_ne_zero ?_
    exact List.forall_mem_cons.2 ⟨by decide, List.forall_mem_cons.2 ⟨by decide, hne⟩⟩
  rw [Env.hexStrToBytes, hstr, hread t ds hds, (ofDigits_pairUp hlt hk).1, encodeNat_bigNat]

theorem dropWhile_zero_iff (k : Bytes) :
    (k.dropWhile (· == 0) = k ↔ k.head? ≠ some 0) ∧
      ((k.dropWhile (· == 0)).length = k.length ↔ k.head? ≠ some 0) := by
  cases k with
  | nil => simp
  | cons c k =>
    by_cases hc : c = 0
    · subst hc
      have hlt : ((0 :: k : Bytes).dropWhile (· == 0)).length < (0 :: k : Bytes).length :=
        Nat.lt_succ_of_le (List.dropWhile_suffix (l := k) _).length_le
      refine ⟨iff_of_false ?_ (by simp), iff_of_false (by omega) (by simp)⟩
      intro h
      rw [h] at hlt
      omega
    · rw [List.dropWhile_cons_of_neg (by simpa using hc)]
      simp [hc]

/-- When a key is decoded to itself, and when the blocks that `DH2::Agree` reads, a
peer's own static keys and the one configured for the other side, have its length. -/
theorem key_kept_iff {env : Env} (hread : env.ReadsHex) {t k : Bytes} (ht : IsHexOf t k) :
    (env.hexStrToBytes (hexText t) = k ↔ k.head? ≠ some 0) ∧
    (∀ conf p, (Peer.lts env conf).Reachable p → conf.privateKey = hexText t →
      ((p.dh.spriv.getD []).length = k.length ↔ k.head? ≠ some 0)) ∧
    (∀ conf p, ((Peer.lts env conf).guard (Peer.HelloConfigured conf)).Reachable p →
      ∀ x ∈ Peer.agrees p.out, conf.getPeerPublicKeyById x.1 = hexText t →
        (x.2.length = k.length ↔ k.head? ≠ some 0)) := by
  obtain ⟨hkey, hlen⟩ := dropWhile_zero_iff k
  rw [hexStrToBytes_eq hread ht]
  refine ⟨hkey, ?_, ?_⟩
  · intro conf p hp hconf
    have hinv := ((Peer.layers_inductive env conf).reachable hp).1
    rw [hinv.spriv, hconf, hexStrToBytes_eq hread ht]
    exact hlen
  · intro conf p hp x hx hconf
    obtain ⟨key, hfind, hspub⟩ := ((Peer.trusted_inductive env conf).reachable hp).2.log x hx
    obtain rfl : key = hexText t := by
      rw [← hconf, Configuration.getPeerPublicKeyById, hfind]
    rw [hspub, hexStrToBytes_eq hread ht]
    exact hlen

/-- A small environment whose integers read hexadecimal text. -/
def hexEnv : Env :=
  { smallEnv with
    integer s := ((hexDigits (s.drop 2)).map fun ds => Nat.ofDigits 16 ds.reverse).getD 0 }

theorem hexEnv_readsHex : hexEnv.ReadsHex := by
  intro t ds h
  show ((hexDigits t).map _).getD 0 = _
  rw [h]
  rfl

/-- The key 10, 11, as `0A0b`. -/
theorem key_kept_small : hexEnv.hexStrToBytes (hexText [48, 65, 48, 98]) = [10, 11] :=
  (key_kept_iff hexEnv_readsHex (k := [10, 11]) (by decide)).1.2 (by decide)

/-- Counterexample: the key 0, 10, as `000a`, becomes the one byte 10. -/
theorem key_not_kept : IsHexOf [48, 48, 48, 97] [0, 10] ∧ hexEnv.ReadsHex ∧
    hexEnv.hexStrToBytes (hexText [48, 48, 48, 97]) = [10] ∧
    hexEnv.hexStrToBytes (hexText [48, 48, 48, 97]) ≠ [0, 10] := by
  have ht : IsHexOf [48, 48, 48, 97] [0, 10] := by decide
  rw [hexStrToBytes_eq hexEnv_readsHex ht]
  exact ⟨ht, hexEnv_readsHex, rfl, by decide⟩

end ShadowTalk.Sml
