import ShadowTalk.Core.BiMap
import ShadowTalk.Core.LTS
import ShadowTalk.Core.Slots
import ShadowTalk.Sml.AddressLaws
import Mathlib.Data.Prod.Lex

/-!
# The peers of the UDP service

The service keeps its peers twice: in a set, and in a two-sided map to their endpoints. Both
order peers by address and port. An endpoint has a port of 16 bits, a peer one of 32, and
an address may have several texts, so two peers can have one endpoint.

A `shared_ptr` to a peer is the number of the object in `peers`; objects are also made by
the callers of `send_message`. Each of the four operations is one step.

* `registry_exact`: set and map have the same peers, and `live_peers` keeps those heard of
  in the last 30 seconds, exactly as long as no peer is sent to for the first time whose
  endpoint already belongs to another one.
* `registry_split`: a peer with port 65616, sent to after one with port 80.
-/
namespace ShadowTalk.Whisper
open ShadowTalk.Core
open ShadowTalk.Sml (Asio IpEndpoint Ipv4 asioV4)

/-! ## Peers -/

/-- mirrors server/peer.h:35-42; the members that are used. -/
structure Peer where
  address : Bytes
  port : UInt32
  lastBeat : Int
  deriving DecidableEq

namespace Peer

/-- mirrors server/peer.cpp:4-11 -/
def new (address : Bytes) (port : UInt32) (now : Int) : Peer := ⟨address, port, now⟩

/-- mirrors server/peer.cpp:18-20 -/
def update (p : Peer) (now : Int) : Peer := { p with lastBeat := now }

/-- mirrors server/peer.cpp:21-23 -/
def dead (p : Peer) (now : Int) : Bool := decide (30 < now - p.lastBeat)

/-- mirrors server/peer.cpp:35-41 -/
def eq (p q : Peer) : Bool := if p.address = q.address ∧ p.port = q.port then true else false

/-- mirrors server/peer.cpp:45-55 -/
def lt (p q : Peer) : Bool :=
  if eq p q then false
  else if p.address < q.address ∨ p.address = q.address ∧ p.port < q.port then true
  else false

/-- What the operators compare. -/
abbrev Key := Bytes ×ₗ UInt32

def key (p : Peer) : Key := toLex (p.address, p.port)

theorem eq_iff (p q : Peer) : eq p q = true ↔ p.key = q.key := by
  simp [eq, key]

/-- The order of the set and of the map. -/
theorem lt_iff (p q : Peer) : lt p q = true ↔ p.key < q.key := by
  have hlex : p.key < q.key ↔
      p.address < q.address ∨ p.address = q.address ∧ p.port < q.port := Prod.Lex.toLex_lt_toLex
  unfold lt
  split
  · rename_i h
    rw [eq_iff] at h
    rw [h]
    simp
  · rw [hlex]
    split
    · rename_i h
      exact iff_of_true rfl h
    · rename_i h
      exact iff_of_false (by decide) h

/-- The endpoint that `send_message` makes of a peer, `none` if `from_string` throws. -/
def endpoint {Addr : Type} (asio : Asio Addr) (p : Peer) : Option (IpEndpoint Addr) :=
  (asio.fromString p.address).map fun a => ⟨a, p.port.toUInt16⟩

end Peer

/-! ## The service -/

/-- `content` is a pointer, compared as such; `dstPeer` is not null.
mirrors server/message.h:8-29 -/
structure UdpMessage where
  content : Nat
  dstPeer : Nat
  deriving DecidableEq

/-- `sent`, `received` and `confirmed` are what is handed to the socket, to the receive
handlers and to the send handlers; `log` records when a peer was created or heard of.
mirrors server/sml.h:56-80 -/
structure UdpService (Addr : Type) where
  peers : List Peer
  livePeers : OMap Peer.Key Nat
  peerEndpointBm : BiMap (IpEndpoint Addr) Peer.Key Nat
  toBeSent : OMap Nat UdpMessage
  sent : List (Nat × IpEndpoint Addr)
  received : List (Nat × Bytes)
  confirmed : List UdpMessage
  log : List (Nat × Int)

namespace UdpService

variable {Addr : Type}

def start : UdpService Addr := ⟨[], .empty, .empty, .empty, [], [], [], []⟩

/-- A new object. -/
def makePeer (s : UdpService Addr) (address : Bytes) (port : UInt32) (now : Int) :
    UdpService Addr :=
  { s with
    peers := s.peers ++ [Peer.new address port now]
    log := s.log ++ [(s.peers.length, now)] }

section
variable [DecidableEq Addr]

/-- `p` is the peer that `msg` is for.
mirrors server/sml.cpp:16-32 -/
def sendMessage (asio : Asio Addr) (s : UdpService Addr) (msg : UdpMessage) (p : Peer) :
    UdpService Addr :=
  let s := { s with toBeSent := s.toBeSent.insert msg.content msg }
  match s.peerEndpointBm.findRight p.key with
  | none =>
    match p.endpoint asio with
    | none => s
    | some remote =>
      { s with
        peerEndpointBm := s.peerEndpointBm.insert remote p.key msg.dstPeer
        livePeers := s.livePeers.insert p.key msg.dstPeer
        sent := s.sent ++ [(msg.content, remote)] }
  | some (remote, _) => { s with sent := s.sent ++ [(msg.content, remote)] }

/-- mirrors server/sml.cpp:42-62 -/
def receiveHandler (asio : Asio Addr) (s : UdpService Addr) (bytes : Bytes)
    (remote : IpEndpoint Addr) (now : Int) : UdpService Addr :=
  match s.peerEndpointBm.findLeft remote with
  | none =>
    let address := asio.toString remote.address
    let port := remote.port.toUInt32
    let i := s.peers.length
    let k := (Peer.new address port now).key
    { s.makePeer address port now with
      peerEndpointBm := s.peerEndpointBm.insert remote k i
      livePeers := s.livePeers.insert k i
      received := s.received ++ [(i, bytes)] }
  | some (_, i) =>
    { s with
      peers := s.peers.modify i (·.update now)
      received := s.received ++ [(i, bytes)]
      log := s.log ++ [(i, now)] }

end

/-- mirrors server/sml.cpp:63-71 -/
def sendHandler (s : UdpService Addr) (content : Nat) : UdpService Addr :=
  match s.toBeSent.find? content with
  | some msg => { s with confirmed := s.confirmed ++ [msg], toBeSent := s.toBeSent.erase content }
  | none => s

/-- The loop of `live_peers` over the rest of the set. -/
def purge (dead : Nat → Bool) : List (Peer.Key × Nat) →
    OMap Peer.Key Nat × BiMap (IpEndpoint Addr) Peer.Key Nat →
    OMap Peer.Key Nat × BiMap (IpEndpoint Addr) Peer.Key Nat
  | [], r => r
  | (k, i) :: es, r => purge dead es (if dead i then (r.1.erase k, r.2.eraseRight k) else r)

/-- `dead()` of the object behind a pointer. -/
def deadAt (s : UdpService Addr) (now : Int) (i : Nat) : Bool := s.peers[i]?.any (·.dead now)

/-- The set that is returned is the new `livePeers`.
mirrors server/sml.cpp:72-85 -/
def purgeDead (s : UdpService Addr) (now : Int) : UdpService Addr :=
  let r := purge (s.deadAt now) s.livePeers.entries (s.livePeers, s.peerEndpointBm)
  { s with livePeers := r.1, peerEndpointBm := r.2 }

inductive Event (Addr : Type) where
  /-- a caller makes a peer -/
  | newPeer (address : Bytes) (port : UInt32) (now : Int)
  | sendMessage (msg : UdpMessage)
  | receive (bytes : Bytes) (remote : IpEndpoint Addr) (now : Int)
  | sendDone (content : Nat)
  | livePeers (now : Int)

section
variable [DecidableEq Addr]

def step (asio : Asio Addr) (s : UdpService Addr) : Event Addr → Option (UdpService Addr)
  | .newPeer address port now => some (s.makePeer address port now)
  | .sendMessage msg => s.peers[msg.dstPeer]?.map fun p => s.sendMessage asio msg p
  | .receive bytes remote now => some (s.receiveHandler asio bytes remote now)
  | .sendDone content => some (s.sendHandler content)
  | .livePeers now => some (s.purgeDead now)

def lts (asio : Asio Addr) : LTS (UdpService Addr) (Event Addr) := .ofFn (· = start) (step asio)

end

/-! ## What `live_peers` keeps -/

variable {asio : Asio Addr} {s : UdpService Addr}

theorem purge_mem (dead : Nat → Bool) (es : List (Peer.Key × Nat))
    (r : OMap Peer.Key Nat × BiMap (IpEndpoint Addr) Peer.Key Nat) :
    (∀ e, e ∈ (purge dead es r).1.entries ↔
      e ∈ r.1.entries ∧ ∀ i, (e.1, i) ∈ es → dead i = false) ∧
    ∀ e, e ∈ (purge dead es r).2.entries ↔
      e ∈ r.2.entries ∧ ∀ i, (e.2.1, i) ∈ es → dead i = false := by
  induction es generalizing r with
  | nil => simp [purge]
  | cons x es ih =>
    obtain ⟨k, j⟩ := x
    have hcons : ∀ c, (∀ i, (c, i) ∈ (k, j) :: es → dead i = false) ↔
        (dead j = true → c ≠ k) ∧ ∀ i, (c, i) ∈ es → dead i = false := by
      intro c
      simp only [List.mem_cons, Prod.mk.injEq]
      constructor
      · intro h
        refine ⟨fun hd hc => ?_, fun i hi => h i (.inr hi)⟩
        rw [h j (.inl ⟨hc, rfl⟩)] at hd
        cases hd
      · intro h i hi
        obtain ⟨h1, h2⟩ := h
        rcases hi with ⟨hc, rfl⟩ | hi
        · exact Bool.eq_false_iff.2 fun hd => h1 hd hc
        · exact h2 i hi
    obtain ⟨ih1, ih2⟩ := ih (if dead j then (r.1.erase k, r.2.eraseRight k) else r)
    constructor
    · intro e
      rw [purge, ih1, hcons, ← and_assoc]
      refine and_congr_left' ?_
      cases dead j with
      | true => simpa using OMap.mem_erase
      | false => simp
    · intro e
      rw [purge, ih2, hcons, ← and_assoc]
      refine and_congr_left' ?_
      cases dead j with
      | true => simpa using BiMap.mem_eraseRight
      | false => simp

/-- When the peer was created, or heard of last. -/
def lastHeard (log : List (Nat × Int)) (i : Nat) : Option Int :=
  (log.reverse.find? fun x => x.1 == i).map Prod.snd

theorem lastHeard_append (log : List (Nat × Int)) (j : Nat) (t : Int) (i : Nat) :
    lastHeard (log ++ [(j, t)]) i = if j = i then some t else lastHeard log i := by
  by_cases h : j = i
  · simp [lastHeard, h]
  · simp [lastHeard, h]

/-- A peer equal to one with key `k` is in the set. -/
def Live (s : UdpService Addr) (k : Peer.Key) : Prop := ∃ i, (k, i) ∈ s.livePeers.entries

/-- The registered peer with key `k` was created or heard of at most 30 seconds ago. -/
def Fresh (s : UdpService Addr) (now : Int) (k : Peer.Key) : Prop :=
  ∃ e i t, (e, k, i) ∈ s.peerEndpointBm.entries ∧ lastHeard s.log i = some t ∧ now - t ≤ 30

/-- Set and map have the same peers, every live peer has one endpoint and every endpoint one
live peer, and `live_peers` keeps the fresh ones. -/
structure Consistent (s : UdpService Addr) : Prop where
  same : ∀ k, Live s k ↔ ∃ e, s.peerEndpointBm.Rel e k
  oneEndpoint : ∀ k, Live s k → ∃! e, s.peerEndpointBm.Rel e k
  onePeer : ∀ e k, s.peerEndpointBm.Rel e k → ∃! k, Live s k ∧ s.peerEndpointBm.Rel e k
  kept : ∀ now k, (Live (s.purgeDead now) k ↔ Fresh s now k) ∧
    ((∃ e, (s.purgeDead now).peerEndpointBm.Rel e k) ↔ Fresh s now k)

/-! ## The invariant -/

/-- Set and map have the same objects, each with its own endpoint. -/
structure Inv (asio : Asio Addr) (s : UdpService Addr) : Prop where
  pairs : ∀ e k i, (e, k, i) ∈ s.peerEndpointBm.entries →
    ∃ p, s.peers[i]? = some p ∧ p.key = k ∧ p.endpoint asio = some e
  same : ∀ k i, (k, i) ∈ s.livePeers.entries ↔ ∃ e, (e, k, i) ∈ s.peerEndpointBm.entries
  clock : ∀ i p, s.peers[i]? = some p → lastHeard s.log i = some p.lastBeat

theorem Inv.makePeer (h : Inv asio s) (address : Bytes) (port : UInt32) (now : Int) :
    Inv asio (s.makePeer address port now) where
  pairs e k i hm := by
    obtain ⟨p, hp, hk, he⟩ := h.pairs e k i hm
    exact ⟨p, Slots.getElem?_append_of_some hp, hk, he⟩
  same := h.same
  clock i p hp := by
    change (s.peers ++ [_])[i]? = some p at hp
    change lastHeard (s.log ++ [_]) i = _
    rw [lastHeard_append]
    by_cases hi : s.peers.length = i
    · subst hi
      rw [List.getElem?_concat_length] at hp
      obtain rfl := Option.some.inj hp
      rw [if_pos rfl]
      rfl
    · rw [if_neg hi]
      refine h.clock i p ?_
      rwa [List.getElem?_append_left] at hp
      have hlt := (List.getElem?_eq_some_iff.1 hp).1
      rw [List.length_append, List.length_singleton] at hlt
      omega

theorem Inv.sendHandler (h : Inv asio s) (content : Nat) : Inv asio (s.sendHandler content) := by
  unfold UdpService.sendHandler
  split
  · exact ⟨h.pairs, h.same, h.clock⟩
  · exact h

/-- The key of a registered peer tells its endpoint. -/
theorem Inv.endpoint_of_key (h : Inv asio s) {e e' : IpEndpoint Addr} {p : Peer} {i : Nat}
    (he : p.endpoint asio = some e) (hm : (e', p.key, i) ∈ s.peerEndpointBm.entries) :
    e' = e := by
  obtain ⟨q, -, hk, he'⟩ := h.pairs e' p.key i hm
  have haddr : q.address = p.address := congrArg (fun k => (ofLex k).1) hk
  have hport : q.port = p.port := congrArg (fun k => (ofLex k).2) hk
  unfold Peer.endpoint at he he'
  rw [haddr, hport, he] at he'
  exact (Option.some.inj he').symm

theorem Inv.dead_iff (h : Inv asio s) {e : IpEndpoint Addr} {k : Peer.Key} {i : Nat}
    (hm : (e, k, i) ∈ s.peerEndpointBm.entries) (now : Int) :
    s.deadAt now i = false ↔ ∃ t, lastHeard s.log i = some t ∧ now - t ≤ 30 := by
  obtain ⟨p, hp, -, -⟩ := h.pairs e k i hm
  rw [deadAt, hp, Option.any_some, h.clock i p hp]
  simp [Peer.dead]

/-- Peers are found in the set, so what is dead is erased from both. -/
theorem Inv.mem_purgeDead (h : Inv asio s) (now : Int) :
    (∀ k i, (k, i) ∈ (s.purgeDead now).livePeers.entries ↔
      (k, i) ∈ s.livePeers.entries ∧ s.deadAt now i = false) ∧
    ∀ e k i, (e, k, i) ∈ (s.purgeDead now).peerEndpointBm.entries ↔
      (e, k, i) ∈ s.peerEndpointBm.entries ∧ s.deadAt now i = false := by
  obtain ⟨hlive, hbm⟩ := purge_mem (s.deadAt now) s.livePeers.entries
    (s.livePeers, s.peerEndpointBm)
  constructor
  · intro k i
    rw [purgeDead, hlive]
    refine and_congr_right fun hm => ?_
    constructor
    · exact fun hall => hall i hm
    · intro hd j hj
      rwa [OMap.key_unique hj hm]
  · intro e k i
    rw [purgeDead, hbm]
    refine and_congr_right fun hm => ?_
    constructor
    · exact fun hall => hall i ((h.same k i).2 ⟨e, hm⟩)
    · intro hd j hj
      obtain ⟨e', hm'⟩ := (h.same k j).1 hj
      rwa [(BiMap.right_unique hm' hm).2]

theorem Inv.purgeDead (h : Inv asio s) (now : Int) : Inv asio (s.purgeDead now) := by
  obtain ⟨hlive, hbm⟩ := h.mem_purgeDead now
  refine ⟨?_, ?_, h.clock⟩
  · intro e k i hm
    exact h.pairs e k i ((hbm e k i).1 hm).1
  · intro k i
    rw [hlive, h.same]
    simp only [hbm, exists_and_right]

theorem Inv.consistent (h : Inv asio s) : Consistent s := by
  have hsame : ∀ k, Live s k ↔ ∃ e, s.peerEndpointBm.Rel e k := by
    intro k
    unfold Live
    simp only [h.same]
    exact exists_comm
  refine ⟨hsame, ?_, ?_, ?_⟩
  · intro k hk
    obtain ⟨e, i, hm⟩ := (hsame k).1 hk
    refine ⟨e, ⟨i, hm⟩, ?_⟩
    intro e' hr
    obtain ⟨j, hm'⟩ := hr
    exact (BiMap.right_unique hm' hm).1
  · intro e k hr
    refine ⟨k, ⟨(hsame k).2 ⟨e, hr⟩, hr⟩, ?_⟩
    intro k' hk'
    obtain ⟨-, j, hm'⟩ := hk'
    obtain ⟨i, hm⟩ := hr
    exact congrArg Prod.fst (BiMap.left_unique hm' hm)
  · intro now k
    obtain ⟨hlive, hbm⟩ := h.mem_purgeDead now
    have hfresh : Fresh s now k ↔
        ∃ e i, (e, k, i) ∈ s.peerEndpointBm.entries ∧ s.deadAt now i = false := by
      refine exists_congr fun e => exists_congr fun i => ?_
      rw [exists_and_left]
      exact and_congr_right fun hm => (h.dead_iff hm now).symm
    constructor
    · rw [hfresh, exists_comm]
      refine exists_congr fun i => ?_
      rw [hlive, h.same, exists_and_right]
    · rw [hfresh]
      exact exists_congr fun e => exists_congr fun i => hbm e k i

variable [DecidableEq Addr]

/-- A peer that was not there, and an endpoint that was not there. -/
theorem Inv.register (h : Inv asio s) {e : IpEndpoint Addr} {i : Nat} {p : Peer}
    (hp : s.peers[i]? = some p) (he : p.endpoint asio = some e)
    (hl : s.peerEndpointBm.findLeft e = none) (hr : s.peerEndpointBm.findRight p.key = none) :
    Inv asio { s with
      peerEndpointBm := s.peerEndpointBm.insert e p.key i
      livePeers := s.livePeers.insert p.key i } where
  pairs e' k j hm := by
    rcases (BiMap.mem_insert hl hr).1 hm with hm | hm
    · cases hm
      exact ⟨p, hp, rfl, he⟩
    · exact h.pairs e' k j hm
  same k j := by
    have hnone : s.livePeers.find? p.key = none := by
      rw [Option.eq_none_iff_forall_ne_some]
      intro j hj
      obtain ⟨e', hm⟩ := (h.same p.key j).1 (OMap.find?_eq_some.1 hj)
      exact BiMap.findRight_eq_none.1 hr e' j hm
    rw [OMap.mem_insert, h.same]
    simp only [BiMap.mem_insert hl hr, hnone, true_and, exists_or, Prod.mk.injEq, exists_eq_left]
    exact or_comm
  clock := h.clock

theorem Inv.sendMessage (h : Inv asio s) {msg : UdpMessage} {p : Peer}
    (hp : s.peers[msg.dstPeer]? = some p)
    (hc : s.peerEndpointBm.findRight p.key = none →
      ∀ e, p.endpoint asio = some e → s.peerEndpointBm.findLeft e = none) :
    Inv asio (s.sendMessage asio msg p) := by
  unfold UdpService.sendMessage
  simp only
  cases hr : s.peerEndpointBm.findRight p.key with
  | some x => exact ⟨h.pairs, h.same, h.clock⟩
  | none =>
    cases he : p.endpoint asio with
    | none => exact ⟨h.pairs, h.same, h.clock⟩
    | some e =>
      have hnew := h.register hp he (hc hr e he) hr
      exact ⟨hnew.pairs, hnew.same, hnew.clock⟩

/-- An unknown endpoint has an unknown peer. -/
theorem Inv.receiveHandler (h : Inv asio s) (bytes : Bytes) (remote : IpEndpoint Addr)
    (now : Int) : Inv asio (s.receiveHandler asio bytes remote now) := by
  unfold UdpService.receiveHandler
  simp only
  cases hl : s.peerEndpointBm.findLeft remote with
  | none =>
    have hmade := h.makePeer (asio.toString remote.address) remote.port.toUInt32 now
    have he : (Peer.new (asio.toString remote.address) remote.port.toUInt32 now).endpoint asio =
        some remote := by
      simp [Peer.endpoint, Peer.new, asio.fromString_toString]
    have hr : s.peerEndpointBm.findRight
        (Peer.new (asio.toString remote.address) remote.port.toUInt32 now).key = none := by
      rw [BiMap.findRight_eq_none]
      intro e' i hm
      obtain rfl := h.endpoint_of_key he hm
      exact BiMap.findLeft_eq_none.1 hl _ hm
    have hnew := hmade.register (i := s.peers.length) List.getElem?_concat_length he hl hr
    exact ⟨hnew.pairs, hnew.same, hnew.clock⟩
  | some x =>
    obtain ⟨k, i⟩ := x
    refine ⟨?_, h.same, ?_⟩
    · intro e k' j hm
      obtain ⟨p, hp, hk, he⟩ := h.pairs e k' j hm
      by_cases hij : i = j
      · subst hij
        exact ⟨p.update now, by simp [hp], hk, he⟩
      · exact ⟨p, by simp [hij, hp], hk, he⟩
    · intro j p hp
      obtain ⟨q, hq, rfl⟩ := Slots.getElem?_modify_some hp
      change lastHeard (s.log ++ [_]) j = _
      rw [lastHeard_append]
      split
      · rfl
      · exact h.clock j q hq

/-- The first message to a peer is to an endpoint that no other peer has. -/
def Registrable (asio : Asio Addr) (s : UdpService Addr) : Event Addr → Prop
  | .sendMessage msg => ∀ p, s.peers[msg.dstPeer]? = some p →
      s.peerEndpointBm.findRight p.key = none →
      ∀ e, p.endpoint asio = some e → s.peerEndpointBm.findLeft e = none
  | _ => True

instance decidableRegistrable (asio : Asio Addr) (s : UdpService Addr) (ev : Event Addr) :
    Decidable (Registrable asio s ev) :=
  match ev with
  | .sendMessage msg => inferInstanceAs (Decidable (∀ p ∈ s.peers[msg.dstPeer]?,
      s.peerEndpointBm.findRight p.key = none →
        ∀ e ∈ p.endpoint asio, s.peerEndpointBm.findLeft e = none))
  | .newPeer .. | .receive .. | .sendDone _ | .livePeers _ => .isTrue trivial

theorem inv_inductive (asio : Asio Addr) : ((lts asio).guard (Registrable asio)).Inductive
    (Inv asio) where
  init := forall_eq.2 ⟨fun _ _ _ hm => absurd hm List.not_mem_nil,
    fun _ _ => iff_of_false List.not_mem_nil fun ⟨_, hm⟩ => absurd hm List.not_mem_nil,
    fun _ _ hp => by cases hp⟩
  step s l s' h hs := by
    have hst : step asio s l = some s' := hs.1
    cases l with
    | newPeer address port now =>
      obtain rfl := Option.some.inj hst
      exact h.makePeer address port now
    | sendMessage msg =>
      obtain ⟨p, hp, rfl⟩ := Option.map_eq_some_iff.1 hst
      exact h.sendMessage hp (hs.2 p hp)
    | receive bytes remote now =>
      obtain rfl := Option.some.inj hst
      exact h.receiveHandler bytes remote now
    | sendDone content =>
      obtain rfl := Option.some.inj hst
      exact h.sendHandler content
    | livePeers now =>
      obtain rfl := Option.some.inj hst
      exact h.purgeDead now

/-- A first message to an endpoint that another peer has enters its peer into the set only. -/
theorem Consistent.registrable {msg : UdpMessage} {p : Peer} {e : IpEndpoint Addr}
    (h : Consistent (s.sendMessage asio msg p)) (hr : s.peerEndpointBm.findRight p.key = none)
    (he : p.endpoint asio = some e) : s.peerEndpointBm.findLeft e = none := by
  by_contra hl
  have hpeers : (s.sendMessage asio msg p).livePeers = s.livePeers.insert p.key msg.dstPeer := by
    unfold UdpService.sendMessage
    simp only [hr, he]
  have hbm : (s.sendMessage asio msg p).peerEndpointBm = s.peerEndpointBm := by
    unfold UdpService.sendMessage
    simp only [hr, he]
    exact BiMap.insert_of_left hl
  have hlive : Live (s.sendMessage asio msg p) p.key := by
    unfold Live
    rw [hpeers]
    cases hf : s.livePeers.find? p.key with
    | none => exact ⟨_, OMap.mem_insert.2 (.inr ⟨hf, rfl⟩)⟩
    | some i => exact ⟨i, OMap.mem_insert.2 (.inl (OMap.find?_eq_some.1 hf))⟩
  obtain ⟨e', i, hm⟩ := (h.same p.key).1 hlive
  rw [hbm] at hm
  exact BiMap.findRight_eq_none.1 hr e' i hm

/-- The registry is consistent in every run in which no first message to a peer is to an
endpoint of another peer, and no longer after such a message. -/
theorem registry_exact (asio : Asio Addr) :
    (lts asio).Exact (Registrable asio) Consistent :=
  (inv_inductive asio).exact (fun _ => Inv.consistent) fun s l s' _ hst hc => by
    have hst : step asio s l = some s' := hst
    cases l with
    | sendMessage msg =>
      intro p hp hr e he
      obtain ⟨q, hq, rfl⟩ := Option.map_eq_some_iff.1 hst
      obtain rfl := Option.some.inj (hp.symm.trans hq)
      exact hc.registrable hr he
    | newPeer address port now => trivial
    | receive bytes remote now => trivial
    | sendDone content => trivial
    | livePeers now => trivial

/-- A peer is made and sent to, another one is heard of; the first one answers, and after 40
seconds the live ones are asked for. -/
def purgeTrace : List (Event Ipv4) :=
  [.newPeer [49, 46, 50, 46, 51, 46, 52] 80 0, .sendMessage ⟨0, 0⟩,
    .receive [] ⟨(5, 6, 7, 8), 90⟩ 5, .sendDone 0, .receive [] ⟨(1, 2, 3, 4), 80⟩ 20,
    .livePeers 40]

/-- The first one is kept, the second one is gone. -/
theorem registry_exact_purge : ∃ s : UdpService Ipv4, s.peers.length = 2 ∧
    s.livePeers.entries.map Prod.snd = [0] ∧
    s.peerEndpointBm.findLeft ⟨(5, 6, 7, 8), 90⟩ = none ∧ Consistent s := by
  have hrun : ∃ s, ((lts asioV4).guard (Registrable asioV4)).Reachable s ∧
      s.peers.length = 2 ∧ s.livePeers.entries.map Prod.snd = [0] ∧
      s.peerEndpointBm.findLeft ⟨(5, 6, 7, 8), 90⟩ = none :=
    LTS.exists_reachable_of_execGuard purgeTrace rfl (by decide +kernel)
  obtain ⟨s, hr, hlen, hlive, hgone⟩ := hrun
  exact ⟨s, hlen, hlive, hgone, (registry_exact asioV4).sound s hr⟩

/-- A datagram from 1.2.3.4:80, and a message to the peer 1.2.3.4 with port 65616. -/
def splitTrace : List (Event Ipv4) :=
  [.receive [] ⟨(1, 2, 3, 4), 80⟩ 0, .newPeer [49, 46, 50, 46, 51, 46, 52] 65616 0,
    .sendMessage ⟨0, 1⟩]

/-- Counterexample: the second peer is live and has no endpoint. -/
theorem registry_split : ∃ s, (lts asioV4).Reachable s ∧
    (∃ k, Live s k ∧ ∀ e, ¬ s.peerEndpointBm.Rel e k) ∧ ¬ Consistent s := by
  have hrun : ∃ s, (lts asioV4).Reachable s ∧
      s.livePeers.find? (toLex ([49, 46, 50, 46, 51, 46, 52], 65616)) = some 1 ∧
      s.peerEndpointBm.findRight (toLex ([49, 46, 50, 46, 51, 46, 52], 65616)) = none :=
    LTS.exists_reachable_of_exec splitTrace rfl (by decide +kernel)
  obtain ⟨s, hreach, hlive, hnone⟩ := hrun
  have hl : Live s (toLex ([49, 46, 50, 46, 51, 46, 52], 65616)) :=
    ⟨1, OMap.find?_eq_some.1 hlive⟩
  have hr : ∀ e, ¬ s.peerEndpointBm.Rel e (toLex ([49, 46, 50, 46, 51, 46, 52], 65616)) := by
    intro e h
    obtain ⟨i, hm⟩ := h
    exact BiMap.findRight_eq_none.1 hnone e i hm
  refine ⟨s, hreach, ⟨_, hl, hr⟩, fun h => ?_⟩
  obtain ⟨e, h⟩ := (h.same _).1 hl
  exact hr e h

end UdpService
end ShadowTalk.Whisper
