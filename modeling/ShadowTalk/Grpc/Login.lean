import ShadowTalk.Core.OrderedMap
import ShadowTalk.Grpc.Message
import Mathlib.Data.List.Induction
import Mathlib.Tactic.Common

/-!
# Logging in

The server keeps two maps to its `PeerInfo`s, one by access token and one by
name; a token is the digest of the name in hexadecimal. SHA1 is a parameter.

* `handleLogin_spec`: what a login leaves in the two maps.
* `token_eq_iff`: two digests give the same token if both are cut from one
  sequence of hexadecimal digits, and only then: bytes below 16 are written with
  one digit.
* `tokens_identify_iff`: after any logins the two maps agree on every name that
  logged in if and only if no two of the names have such digests.
-/
namespace ShadowTalk.Grpc
open ShadowTalk.Core

/-- What `SHA1` writes into a buffer of `SHA_DIGEST_LENGTH` bytes. -/
structure Digest where
  bytes : Bytes
  size : bytes.length = 20
  deriving DecidableEq, Repr

/-- `writer` points to the `PeerMessageWriter` of a call, named by its number;
`last_active` is never read.
mirrors grpc-server/GRPCServer.cpp:37-45 -/
structure PeerInfo where
  name : Bytes
  writer : Option Nat
  deriving DecidableEq, Repr

/-- The two maps, and the `PeerInfo`s that were made, which the maps point into.
mirrors grpc-server/GRPCServer.cpp:69-70 -/
structure PeerMaps where
  peers : List PeerInfo
  peerIdMap : OMap Bytes Nat
  peerNameMap : OMap Bytes Nat
  deriving DecidableEq

/-! ## Tokens -/

/-- A hexadecimal digit as text. -/
def hexDigit (n : Nat) : UInt8 := if n < 10 then .ofNat (48 + n) else .ofNat (87 + n)

/-- The digits of a byte, as many as it needs. -/
def hexDigits (b : UInt8) : List Nat :=
  if b.toNat < 16 then [b.toNat] else [b.toNat / 16, b.toNat % 16]

/-- `ss << std::hex << (unsigned int)b`. -/
def hexText (b : UInt8) : Bytes := (hexDigits b).map hexDigit

/-- mirrors grpc-server/GRPCServer.cpp:161-166 -/
def Digest.token (d : Digest) : Bytes := d.bytes.flatMap hexText

/-- A digest for short examples: the first letter of the name, and 16 nineteen times. -/
def Digest.sample (name : Bytes) : Digest := ⟨name.headD 0 :: List.replicate 19 16, by simp⟩

namespace PeerMaps

def new : PeerMaps := ⟨[], .empty, .empty⟩

/-- The maps after the login and the token of the response.
mirrors grpc-server/GRPCServer.cpp:156-173 -/
def handleLogin (SHA1 : Bytes → Digest) (t : PeerMaps) (name : Bytes) : PeerMaps × Bytes :=
  let toString := (SHA1 name).token
  let peerInfo := t.peers.length
  (⟨t.peers ++ [⟨name, none⟩], t.peerIdMap.insert toString peerInfo,
    t.peerNameMap.insert name peerInfo⟩, toString)

/-- A sequence of logins. -/
def logins (SHA1 : Bytes → Digest) (names : List Bytes) : PeerMaps :=
  names.foldl (fun t n => (t.handleLogin SHA1 n).1) new

/-- `GetPeerInfo`; a call without the metadata has the token `""`.
mirrors grpc-server/GRPCServer.cpp:55-78 -/
def getPeerInfo (t : PeerMaps) (token : Option Bytes) : Option Nat :=
  t.peerIdMap.find? (token.getD [])

end PeerMaps

/-! ## Reading digits -/

/-- A sequence of digits, cut into numbers of one digit, or of two digits with
the first not 0. -/
inductive Cut : List Nat → Bytes → Prop
  | nil : Cut [] []
  | one {x : Nat} {s : List Nat} {b : UInt8} {d : Bytes} :
      b.toNat = x → x < 16 → Cut s d → Cut (x :: s) (b :: d)
  | two {x y : Nat} {s : List Nat} {b : UInt8} {d : Bytes} :
      b.toNat = 16 * x + y → 0 < x → y < 16 → Cut s d → Cut (x :: y :: s) (b :: d)

/-- Both digests are cut from one sequence of digits. -/
def Ambiguous (d d' : Digest) : Prop := ∃ s, Cut s d.bytes ∧ Cut s d'.bytes

theorem hexDigits_lt {b : UInt8} {x : Nat} (h : x ∈ hexDigits b) : x < 16 := by
  have hb := b.toNat_lt
  unfold hexDigits at h
  split at h
  · rw [List.mem_singleton] at h; omega
  · rcases List.mem_cons.1 h with rfl | h
    · omega
    · rw [List.mem_singleton] at h; omega

theorem cut_iff {s : List Nat} {d : Bytes} : Cut s d ↔ s = d.flatMap hexDigits := by
  constructor
  · intro h
    induction h with
    | nil => rfl
    | one hb hx _ ih =>
      rw [ih, List.flatMap_cons, hexDigits, if_pos (by omega), hb]
      rfl
    | two hb hx hy _ ih =>
      rw [ih, List.flatMap_cons, hexDigits, if_neg (by omega), hb]
      have h1 : ∀ x y, y < 16 → (16 * x + y) / 16 = x := by intros; omega
      have h2 : ∀ x y, y < 16 → (16 * x + y) % 16 = y := by intros; omega
      rw [h1 _ _ hy, h2 _ _ hy]
      rfl
  · rintro rfl
    induction d with
    | nil => exact .nil
    | cons b d ih =>
      rw [List.flatMap_cons]
      unfold hexDigits
      split
      · rename_i hb
        exact .one rfl hb ih
      · rename_i hb
        exact .two (by omega) (by omega) (by omega) ih

theorem hexDigit_inj {x y : Nat} (hx : x < 16) (hy : y < 16) (h : hexDigit x = hexDigit y) :
    x = y := by
  have key : ∀ x < 16, ∀ y < 16, hexDigit x = hexDigit y → x = y := by decide
  exact key x hx y hy h

theorem map_hexDigit_inj {s t : List Nat} (hs : ∀ x ∈ s, x < 16) (ht : ∀ x ∈ t, x < 16)
    (h : s.map hexDigit = t.map hexDigit) : s = t := by
  induction s generalizing t with
  | nil => simpa using h.symm
  | cons x s ih =>
    cases t with
    | nil => simp at h
    | cons y t =>
      simp only [List.map_cons, List.cons.injEq] at h
      have hxy := hexDigit_inj (hs x List.mem_cons_self) (ht y List.mem_cons_self) h.1
      have hst := ih (fun z hz => hs z (List.mem_cons_of_mem _ hz))
        (fun z hz => ht z (List.mem_cons_of_mem _ hz)) h.2
      rw [hxy, hst]

theorem token_eq_map (d : Digest) : d.token = (d.bytes.flatMap hexDigits).map hexDigit := by
  unfold Digest.token hexText
  rw [List.map_flatMap]

theorem flatMap_hexDigits_lt {d : Bytes} {x : Nat} (h : x ∈ d.flatMap hexDigits) : x < 16 := by
  obtain ⟨b, -, hx⟩ := List.mem_flatMap.1 h
  exact hexDigits_lt hx

theorem token_eq_iff (d d' : Digest) : d.token = d'.token ↔ Ambiguous d d' := by
  rw [token_eq_map, token_eq_map]
  constructor
  · intro h
    have := map_hexDigit_inj (fun _ => flatMap_hexDigits_lt) (fun _ => flatMap_hexDigits_lt) h
    exact ⟨_, cut_iff.2 rfl, cut_iff.2 this⟩
  · rintro ⟨s, h, h'⟩
    rw [← cut_iff.1 h, ← cut_iff.1 h']

/-- Where the bytes below 16 stand, which are written with one digit. -/
def Digest.narrowAt (d : Digest) : List Bool := d.bytes.map (decide <| ·.toNat < 16)

theorem ambiguous_refl (d : Digest) : Ambiguous d d := ⟨_, cut_iff.2 rfl, cut_iff.2 rfl⟩

/-- Digests whose bytes below 16 stand at the same places are told apart. -/
theorem Ambiguous.eq_of_narrowAt {d d' : Digest} (h : Ambiguous d d')
    (hw : d.narrowAt = d'.narrowAt) : d = d' := by
  obtain ⟨s, hs, hs'⟩ := h
  have key : ∀ {s : List Nat} {b b' : Bytes}, Cut s b → Cut s b' →
      b.map (decide <| ·.toNat < 16) = b'.map (decide <| ·.toNat < 16) → b = b' := by
    intro s b b' h
    induction h generalizing b' with
    | nil => rintro ⟨⟩ -; rfl
    | one hb hx _ ih =>
      intro h' hw
      cases h' with
      | one hb' _ h' =>
        rw [List.map_cons, List.map_cons, List.cons.injEq] at hw
        rw [UInt8.toNat_inj.1 (hb.trans hb'.symm), ih h' hw.2]
      | two hb' hx' _ h' =>
        rw [List.map_cons, List.map_cons, List.cons.injEq, decide_eq_decide] at hw
        omega
    | two hb hx hy _ ih =>
      intro h' hw
      cases h' with
      | one hb' hx' h' =>
        rw [List.map_cons, List.map_cons, List.cons.injEq, decide_eq_decide] at hw
        omega
      | two hb' _ _ h' =>
        rw [List.map_cons, List.map_cons, List.cons.injEq] at hw
        rw [UInt8.toNat_inj.1 (hb.trans hb'.symm), ih h' hw.2]
  have := key hs hs' hw
  cases d; cases d'
  simpa using this

/-! ## The maps after some logins -/

namespace PeerMaps

variable {SHA1 : Bytes → Digest}

/-- The token of `name` and `name` itself lead to one `PeerInfo`, which has that name. -/
def Identified (SHA1 : Bytes → Digest) (t : PeerMaps) (name : Bytes) : Prop :=
  ∃ p, t.peerIdMap.find? (SHA1 name).token = some p ∧ t.peerNameMap.find? name = some p ∧
    (t.peers[p]?).map PeerInfo.name = some name

/-- The `PeerInfo`s are those of `names`, in this order, and each map leads to the
first one of its key. -/
structure Holds (SHA1 : Bytes → Digest) (names : List Bytes) (t : PeerMaps) : Prop where
  made : t.peers.map PeerInfo.name = names
  ids : ∀ k, t.peerIdMap.find? k = names.findIdx? fun n => (SHA1 n).token = k
  byName : ∀ k, t.peerNameMap.find? k = names.findIdx? fun n => n = k

/-- `emplace` at the end of a list: the first entry of a key stays. -/
theorem find?_insert_eq_findIdx? {β : Type} {m : OMap Bytes Nat} {l : List β} {f : β → Bytes}
    (h : ∀ k, m.find? k = l.findIdx? fun x => f x = k) (x : β) (k : Bytes) :
    (m.insert (f x) l.length).find? k = (l ++ [x]).findIdx? fun x => f x = k := by
  rw [List.findIdx?_append]
  by_cases hk : k = f x
  · subst hk
    rw [OMap.find?_insert_self, h]
    cases l.findIdx? fun y => f y = f x <;> simp
  · rw [OMap.find?_insert_ne m _ hk, h]
    have : [x].findIdx? (fun y => f y = k) = none := by simp [Ne.symm hk]
    rw [this]
    simp

theorem handleLogin_spec {names : List Bytes} {t : PeerMaps} (h : Holds SHA1 names t)
    (name : Bytes) : Holds SHA1 (names ++ [name]) (t.handleLogin SHA1 name).1 := by
  have hlen : t.peers.length = names.length := by rw [← h.made, List.length_map]
  refine ⟨?_, fun k => ?_, fun k => ?_⟩
  · simp [handleLogin, h.made]
  · simp only [handleLogin, hlen]
    exact find?_insert_eq_findIdx? (f := fun n => (SHA1 n).token) h.ids name k
  · simp only [handleLogin, hlen]
    exact find?_insert_eq_findIdx? (f := fun n => n) h.byName name k

theorem logins_holds (SHA1 : Bytes → Digest) (names : List Bytes) :
    Holds SHA1 names (logins SHA1 names) := by
  induction names using List.reverseRecOn with
  | nil => exact ⟨rfl, fun _ => rfl, fun _ => rfl⟩
  | append_singleton names n ih =>
    rw [logins, List.foldl_append]
    exact handleLogin_spec ih n

theorem findIdx?_congr {β : Type} {l : List β} {p q : β → Bool} (h : ∀ x ∈ l, p x = q x) :
    l.findIdx? p = l.findIdx? q := by
  induction l with
  | nil => rfl
  | cons x l ih =>
    rw [List.findIdx?_cons, List.findIdx?_cons, h x List.mem_cons_self,
      ih fun y hy => h y (List.mem_cons_of_mem _ hy)]

/-- Where names with one token are one name, the two maps agree. -/
theorem Holds.identified {names : List Bytes} {t : PeerMaps} (h : Holds SHA1 names t)
    {n : Bytes} (hn : n ∈ names) (hd : ∀ m ∈ names, (SHA1 m).token = (SHA1 n).token → m = n) :
    Identified SHA1 t n := by
  have hsame : names.findIdx? (fun m => (SHA1 m).token = (SHA1 n).token) =
      names.findIdx? (fun m => m = n) := by
    refine findIdx?_congr fun m hm => ?_
    simp only [decide_eq_decide]
    exact ⟨hd m hm, fun h => by rw [h]⟩
  cases hf : names.findIdx? (fun m => m = n) with
  | none =>
    have := List.findIdx?_eq_none_iff.1 hf n hn
    simp at this
  | some p =>
    obtain ⟨hp, he, -⟩ := List.findIdx?_eq_some_iff_getElem.1 hf
    refine ⟨p, by rw [h.ids, hsame, hf], by rw [h.byName, hf], ?_⟩
    rw [← List.getElem?_map, h.made, List.getElem?_eq_getElem hp]
    simpa using he

/-- Two names that are both identified have different tokens. -/
theorem Identified.eq_of_token {t : PeerMaps} {m n : Bytes} (hm : Identified SHA1 t m)
    (hn : Identified SHA1 t n) (h : (SHA1 m).token = (SHA1 n).token) : m = n := by
  obtain ⟨p, hp, -, hpn⟩ := hm
  obtain ⟨q, hq, -, hqn⟩ := hn
  rw [h, hq] at hp
  cases hp
  rw [hpn] at hqn
  exact Option.some.inj hqn

/-- Names are told apart by their tokens, and by the maps, exactly where their
digests are not cut from one sequence of digits; with the bytes below 16 at the same
places these are the names whose digests differ. -/
theorem tokens_identify_iff (SHA1 : Bytes → Digest) :
    (∀ (t u : PeerMaps) (m n : Bytes), (t.handleLogin SHA1 m).2 ≠ (u.handleLogin SHA1 n).2 ↔
      ¬ Ambiguous (SHA1 m) (SHA1 n)) ∧
    (∀ m n : Bytes, (SHA1 m).narrowAt = (SHA1 n).narrowAt →
      (Ambiguous (SHA1 m) (SHA1 n) ↔ SHA1 m = SHA1 n)) ∧
    ∀ names : List Bytes, (∀ n ∈ names, Identified SHA1 (logins SHA1 names) n) ↔
      ∀ m ∈ names, ∀ n ∈ names, m ≠ n → ¬ Ambiguous (SHA1 m) (SHA1 n) := by
  refine ⟨fun t u m n => not_congr (token_eq_iff _ _), fun m n hw => ?_, fun names => ?_⟩
  · exact ⟨fun h => h.eq_of_narrowAt hw, fun h => h ▸ ambiguous_refl _⟩
  constructor
  · intro h m hm n hn hne ha
    exact hne ((h m hm).eq_of_token (h n hn) ((token_eq_iff _ _).2 ha))
  · intro h n hn
    refine (logins_holds SHA1 names).identified hn fun m hm ht => ?_
    by_contra hne
    exact h m hm n hn hne ((token_eq_iff _ _).1 ht)

/-- The digests of two names: 01 23 00 .. 00 and 12 03 00 .. 00. -/
def narrow (name : Bytes) : Digest :=
  if name = [97] then ⟨[0x01, 0x23] ++ List.replicate 18 0, by decide⟩
  else ⟨[0x12, 0x03] ++ List.replicate 18 0, by decide⟩

/-- Both names get the token 123000.., and the second name's `PeerInfo` cannot be
found by it. -/
theorem tokens_not_identify :
    narrow [97] ≠ narrow [98] ∧
      (new.handleLogin narrow [97]).2 = (new.handleLogin narrow [98]).2 ∧
      (logins narrow [[97], [98]]).peerIdMap.find? (narrow [98]).token = some 0 ∧
      (logins narrow [[97], [98]]).peerNameMap.find? [98] = some 1 := by
  decide +kernel

end PeerMaps
end ShadowTalk.Grpc
