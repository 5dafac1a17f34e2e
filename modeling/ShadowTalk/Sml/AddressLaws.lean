import ShadowTalk.Core.OrderedMap
import ShadowTalk.Sml.Address

/-!
# Text form and order of addresses

* `text_exact`: an address survives its text form; and which texts are read as what they
  say.
* `text_misread`: a text without a colon, one with something behind the port, and one whose
  port does not fit, all of them accepted.
* `lt_ordered_iff`: `operator<` compares the ports whenever the first ip is not the smaller
  one, so two addresses are ordered exactly if ip and port do not disagree.
* `lt_not_ordered`: two addresses, each less than the other.
-/
namespace ShadowTalk.Sml
open ShadowTalk.Core

/-! ## Decimal numbers -/

theorem decimal_isDigit {n : Nat} {c : UInt8} (h : c ∈ decimal n) : isDigit c = true := by
  obtain ⟨x, hx, rfl⟩ := List.mem_map.1 h
  have hd := Char.isDigit_iff_toNat.1 (Nat.isDigit_of_mem_toDigits (by decide) (by decide) hx)
  have h0 : '0'.toNat = 48 := rfl
  have h9 : '9'.toNat = 57 := rfl
  rw [h0, h9] at hd
  have hc : (UInt8.ofNat x.toNat).toNat = x.toNat := by
    rw [UInt8.toNat_ofNat']
    omega
  simp only [isDigit, Bool.and_eq_true, decide_eq_true_eq, UInt8.le_iff_toNat_le, hc]
  exact hd

theorem decimal_ne_nil (n : Nat) : decimal n ≠ [] := by
  intro h
  exact Nat.toDigits_ne_nil (List.map_eq_nil_iff.1 h)

/-- The value of a text whose characters are digits, from a value on. -/
theorem foldl_digits {cs : List Char} (hcs : ∀ c ∈ cs, c.isDigit = true) (m : Nat) :
    (cs.map fun c => UInt8.ofNat c.toNat).foldl (fun n b => 10 * n + (b.toNat - 48)) m =
      Nat.ofDigitChars 10 cs m := by
  induction cs generalizing m with
  | nil => exact Nat.ofDigitChars_nil.symm
  | cons c cs ih =>
    obtain ⟨hc, hcs⟩ := List.forall_mem_cons.1 hcs
    have h9 : c.toNat ≤ 57 := (Char.isDigit_iff_toNat.1 hc).2
    have hnat : (UInt8.ofNat c.toNat).toNat = c.toNat := by
      rw [UInt8.toNat_ofNat']
      omega
    rw [List.map_cons, List.foldl_cons, ih hcs, Nat.ofDigitChars_cons, hnat]
    rfl

theorem decValue_decimal (n : Nat) : decValue (decimal n) = n := by
  have hdigits : ∀ c ∈ Nat.toDigits 10 n, c.isDigit = true :=
    fun c hc => Nat.isDigit_of_mem_toDigits (by decide) (by decide) hc
  rw [decValue, decimal, foldl_digits hdigits]
  exact Nat.ofDigitChars_ten_toDigits

theorem digit_bounds {c : UInt8} (h : isDigit c = true) : 48 ≤ c.toNat ∧ c.toNat ≤ 57 := by
  simpa [isDigit, UInt8.le_iff_toNat_le] using h

/-- A text of digits has neither white space nor a sign before them. -/
theorem unsigned_digits {t : Bytes} (hd : ∀ c ∈ t, isDigit c = true) : unsigned t = (false, t) := by
  have hstr : t.takeWhile (· != 0) = t := by
    refine takeWhile_ne_zero ?_
    intro c hc h0
    exact absurd (h0 ▸ (digit_bounds (hd c hc)).1) (by decide)
  unfold unsigned
  rw [hstr]
  cases t with
  | nil => rfl
  | cons c t =>
    obtain ⟨h1, h2⟩ := digit_bounds (hd c (List.mem_cons_self ..))
    have h32 : c ≠ 32 := by
      intro h
      exact absurd (h ▸ h1) (by decide)
    have h13 : ¬ c ≤ 13 := by
      show ¬ c.toNat ≤ 13
      omega
    rw [List.dropWhile_cons_of_neg (by simp [isSpace, h32, h13])]
    split
    · rename_i heq
      exact absurd ((List.cons.inj heq).1 ▸ h1) (by decide)
    · rename_i heq
      exact absurd ((List.cons.inj heq).1 ▸ h1) (by decide)
    · rfl

/-- A text that consists of digits only is read as their value. -/
theorem stoul_digits {t : Bytes} (hne : t ≠ []) (hd : ∀ c ∈ t, isDigit c = true)
    (hlt : decValue t < 2 ^ 64) : stoul t = .ok (decValue t) := by
  have hdig : t.takeWhile isDigit = t := List.takeWhile_eq_self_iff.2 hd
  unfold stoul
  simp only [unsigned_digits hd, hdig]
  rw [if_neg hne, if_neg (by omega)]
  rfl

theorem digits_no_colon {t : Bytes} (hd : ∀ c ∈ t, isDigit c = true) : 58 ∉ t :=
  fun h => absurd (hd 58 h) (by decide)

namespace Address

/-! ## Text form -/

/-- mirrors client/sml/address.cpp:51-53 -/
def toString (a : Address) : Bytes := a.ip ++ 58 :: decimal a.port.toNat

/-- `s` is `ip ':' digits`, with the last colon between them. -/
theorem colon_append (ip : Bytes) {t : Bytes} (ht : 58 ∉ t) :
    afterColon (ip ++ 58 :: t) = t ∧ beforeColon (ip ++ 58 :: t) = ip := by
  have hafter : afterColon (ip ++ 58 :: t) = t := by
    have hrev : (ip ++ 58 :: t).reverse = t.reverse ++ 58 :: ip.reverse := by simp
    have hpos : ∀ c ∈ t.reverse, (c != 58) = true := by
      intro c hc
      have : c ≠ 58 := by
        intro h
        exact ht (h ▸ List.mem_reverse.1 hc)
      simpa using this
    rw [afterColon, hrev, List.takeWhile_append_of_pos hpos,
      List.takeWhile_cons_of_neg (by decide), List.append_nil, List.reverse_reverse]
  refine ⟨hafter, ?_⟩
  have hlen : (ip ++ 58 :: t).length - t.length - 1 = ip.length := by
    simp only [List.length_append, List.length_cons]
    omega
  rw [beforeColon, if_pos (by simp), hafter, hlen, List.take_left]

theorem split_colon {s : Bytes} (h : 58 ∈ s) : s = beforeColon s ++ 58 :: afterColon s := by
  obtain ⟨t, ip, hs, ht⟩ := List.eq_append_cons_of_mem (List.mem_reverse.2 h)
  have hback : s = ip.reverse ++ 58 :: t.reverse := by
    rw [← List.reverse_reverse s, hs]
    simp
  obtain ⟨hafter, hbefore⟩ := colon_append ip.reverse (mt List.mem_reverse.1 ht)
  rw [← hback] at hafter hbefore
  rw [hafter, hbefore]
  exact hback

/-- What a text says: `ip ':' digits` is the ip and the number, if it is a port. -/
def Says (s : Bytes) (a : Address) : Prop :=
  ∃ ds, s = a.ip ++ 58 :: ds ∧ ds ≠ [] ∧ (∀ c ∈ ds, isDigit c = true) ∧ decValue ds = a.port.toNat

theorem Says.behind {s : Bytes} {a : Address} (h : Says s a) : 58 ∈ s ∧
    (∀ c ∈ afterColon s, isDigit c = true) ∧ decValue (afterColon s) = a.port.toNat := by
  obtain ⟨ds, hs, -, hd, hv⟩ := h
  obtain ⟨hafter, -⟩ := colon_append a.ip (digits_no_colon hd)
  rw [← hs] at hafter
  rw [hafter]
  exact ⟨hs ▸ by simp, hd, hv⟩

/-- Nothing but the digits of a port is behind the last colon. -/
def PortText (s : Bytes) : Prop :=
  58 ∈ s ∧ (∀ c ∈ afterColon s, isDigit c = true) ∧ decValue (afterColon s) ≤ 65535

theorem parse_digits (ip : Bytes) {ds : Bytes} (hne : ds ≠ []) (hd : ∀ c ∈ ds, isDigit c = true)
    (hle : decValue ds ≤ 65535) : parse (ip ++ 58 :: ds) = .ok ⟨ip, .ofNat (decValue ds)⟩ := by
  obtain ⟨hafter, hbefore⟩ := colon_append ip (digits_no_colon hd)
  unfold parse
  rw [hafter, hbefore, stoul_digits hne hd (by omega)]

theorem parse_toString (a : Address) : parse a.toString = .ok a := by
  have hport := a.port.toNat_lt
  rw [toString, parse_digits _ (decimal_ne_nil _) (fun c => decimal_isDigit)
    (by rw [decValue_decimal]; omega), decValue_decimal, UInt16.ofNat_toNat]

/-- When a text is read as what it says, or rejected. -/
theorem parse_says_iff (s : Bytes) :
    (∀ a, parse s = .ok a → Says s a) ↔ (NumberText (afterColon s) → PortText s) := by
  constructor
  · intro h hn
    obtain ⟨a, ha⟩ := (parse_ok_iff s).2 hn
    obtain ⟨hc, hd, hv⟩ := (h a ha).behind
    have hport := a.port.toNat_lt
    exact ⟨hc, hd, by omega⟩
  · intro h a ha
    have hn := (parse_ok_iff s).1 ⟨a, ha⟩
    obtain ⟨hc, hd, hle⟩ := h hn
    have hne : afterColon s ≠ [] := by
      intro h0
      rw [h0] at hn
      exact hn.1 rfl
    have hs := split_colon hc
    have hread := parse_digits (beforeColon s) hne hd hle
    rw [← hs, ha] at hread
    obtain rfl := Except.ok.inj hread
    refine ⟨afterColon s, hs, hne, hd, ?_⟩
    rw [UInt16.toNat_ofNat', Nat.mod_eq_of_lt (by omega)]

/-- Every address is read back from its text form; and a text that starts with a number
behind the last colon, or at its start if there is none, is read as what it says exactly if
there is a colon, and only the digits of a port behind it. -/
theorem text_exact (a : Address) (s : Bytes) : parse a.toString = .ok a ∧
    ((∀ b, parse s = .ok b → Says s b) ↔ (NumberText (afterColon s) → PortText s)) :=
  ⟨parse_toString a, parse_says_iff s⟩

/-- Counterexample: `80`, `1:80x` and `1:65616` are all accepted, with port 80. -/
theorem text_misread :
    (parse [56, 48] = .ok ⟨[56, 48], 80⟩ ∧ ¬ Says [56, 48] ⟨[56, 48], 80⟩) ∧
    (parse [49, 58, 56, 48, 120] = .ok ⟨[49], 80⟩ ∧ ¬ Says [49, 58, 56, 48, 120] ⟨[49], 80⟩) ∧
    (parse [49, 58, 54, 53, 54, 49, 54] = .ok ⟨[49], 80⟩ ∧
      ¬ Says [49, 58, 54, 53, 54, 49, 54] ⟨[49], 80⟩) := by
  refine ⟨⟨by decide, ?_⟩, ⟨by decide, ?_⟩, by decide, ?_⟩
  · intro h
    exact absurd h.behind.1 (by decide)
  · intro h
    exact absurd (h.behind.2.1 120 (by decide)) (by decide)
  · intro h
    have hv : 65616 = 80 := h.behind.2.2
    omega

/-! ## Order -/

/-- mirrors client/sml/address.cpp:32-38 -/
def eq (a b : Address) : Bool := if a.ip = b.ip ∧ a.port = b.port then true else false

/-- mirrors client/sml/address.cpp:42-44 -/
def lt (a b : Address) : Bool :=
  if a.ip < b.ip then true else if a.port < b.port then true else false

variable {a b c : Address}

theorem eq_iff : eq a b = true ↔ a = b := by
  cases a
  cases b
  simp [eq]

theorem lt_iff : lt a b = true ↔ a.ip < b.ip ∨ a.port < b.port := by
  unfold lt
  split
  · rename_i h
    exact iff_of_true rfl (.inl h)
  · rename_i h
    simp [h]

/-- The laws of a strict total order that is consistent with `==`, for three addresses. -/
structure Ordered (a b c : Address) : Prop where
  asymm : ¬ (lt a b = true ∧ lt b a = true)
  trans : lt a b = true → lt b c = true → lt a c = true
  total : ¬ lt a b = true ∧ ¬ lt b a = true ↔ eq a b = true

/-- The order of the ips is not that of the ports. -/
def Disagree (a b : Address) : Prop :=
  a.ip < b.ip ∧ b.port < a.port ∨ b.ip < a.ip ∧ a.port < b.port

/-- Being less in neither direction is being equal, for all addresses. -/
theorem lt_total : ¬ lt a b = true ∧ ¬ lt b a = true ↔ eq a b = true := by
  rw [lt_iff, lt_iff, eq_iff]
  constructor
  · intro h
    obtain ⟨h1, h2⟩ := h
    have hip : a.ip = b.ip :=
      le_antisymm (not_lt.1 fun h => h2 (.inl h)) (not_lt.1 fun h => h1 (.inl h))
    have hport : a.port = b.port :=
      UInt16.le_antisymm (UInt16.not_lt.1 fun h => h2 (.inr h))
        (UInt16.not_lt.1 fun h => h1 (.inr h))
    cases a
    cases b
    simp_all
  · intro h
    subst h
    simp

theorem lt_asymm_iff : ¬ (lt a b = true ∧ lt b a = true) ↔ ¬ Disagree a b := by
  rw [lt_iff, lt_iff, not_iff_not]
  constructor
  · intro h
    obtain ⟨h1, h2⟩ := h
    rcases h1 with h1 | h1
    · exact h2.elim (fun h2 => absurd h2 (lt_asymm h1)) fun h2 => .inl ⟨h1, h2⟩
    · exact h2.elim (fun h2 => .inr ⟨h2, h1⟩) fun h2 => absurd h2 (UInt16.lt_asymm h1)
  · intro h
    rcases h with h | h
    · exact ⟨.inl h.1, .inr h.2⟩
    · exact ⟨.inr h.2, .inl h.1⟩

/-- What is less than something is less than everything that is more, unless the first two
disagree. -/
theorem lt_trans_of_agree (hag : ¬ Disagree a b) (hab : lt a b = true) (hbc : lt b c = true) :
    lt a c = true := by
  rw [lt_iff] at hab hbc ⊢
  rcases hab with hab | hab
  · rcases hbc with hbc | hbc
    · exact .inl (lt_trans hab hbc)
    · have hle : a.port ≤ b.port := UInt16.not_lt.1 fun h => hag (.inl ⟨hab, h⟩)
      exact .inr (UInt16.lt_of_le_of_lt hle hbc)
  · rcases hbc with hbc | hbc
    · have hle : a.ip ≤ b.ip := not_lt.1 fun h => hag (.inr ⟨h, hab⟩)
      exact .inl (lt_of_le_of_lt hle hbc)
    · exact .inr (UInt16.lt_trans hab hbc)

/-- The laws hold of `a`, `b` and any third address exactly if ip and port of `a` and `b`
do not disagree. -/
theorem lt_ordered_iff (a b c : Address) : Ordered a b c ↔ ¬ Disagree a b := by
  constructor
  · exact fun h => lt_asymm_iff.1 h.asymm
  · intro h
    exact ⟨lt_asymm_iff.2 h, lt_trans_of_agree h, lt_total⟩

/-- Counterexample: `1:2` and `2:1`, each less than the other. -/
theorem lt_not_ordered : lt ⟨[49], 2⟩ ⟨[50], 1⟩ = true ∧ lt ⟨[50], 1⟩ ⟨[49], 2⟩ = true ∧
    ∀ c, ¬ Ordered ⟨[49], 2⟩ ⟨[50], 1⟩ c := by
  have h12 : lt ⟨[49], 2⟩ ⟨[50], 1⟩ = true := by decide
  have h21 : lt ⟨[50], 1⟩ ⟨[49], 2⟩ = true := by decide
  exact ⟨h12, h21, fun c h => h.asymm ⟨h12, h21⟩⟩

end Address

/-! ## Addresses of asio -/

/-- `udp::endpoint`, `tcp::endpoint` -/
structure IpEndpoint (Addr : Type) where
  address : Addr
  port : UInt16
  deriving DecidableEq

/-- `ip::address`; `fromString` is `none` where `from_string` throws. -/
structure Asio (Addr : Type) where
  toString : Addr → Bytes
  fromString : Bytes → Option Addr
  isV4 : Addr → Bool
  fromString_toString : ∀ a, fromString (toString a) = some a

abbrev Ipv4 := UInt8 × UInt8 × UInt8 × UInt8

/-- A number below 256 without leading zeros. -/
def octet (t : Bytes) : Option UInt8 :=
  if decimal (UInt8.ofNat (decValue t)).toNat = t then some (.ofNat (decValue t)) else none

theorem octet_decimal (b : UInt8) : octet (decimal b.toNat) = some b := by
  rw [octet, decValue_decimal, UInt8.ofNat_toNat, if_pos rfl]

/-- Dotted decimals. -/
def asioV4 : Asio Ipv4 where
  toString x := [46].intercalate
    [decimal x.1.toNat, decimal x.2.1.toNat, decimal x.2.2.1.toNat, decimal x.2.2.2.toNat]
  fromString s :=
    match s.splitOn 46 with
    | [a, b, c, d] =>
      (octet a).bind fun a => (octet b).bind fun b => (octet c).bind fun c =>
        (octet d).map fun d => (a, b, c, d)
    | _ => none
  isV4 _ := true
  fromString_toString x := by
    have hdot : ∀ n, 46 ∉ decimal n := fun n h => absurd (decimal_isDigit h) (by decide)
    rw [List.splitOn_intercalate 46 (by simp [hdot]) (by simp)]
    simp [octet_decimal]

end ShadowTalk.Sml
