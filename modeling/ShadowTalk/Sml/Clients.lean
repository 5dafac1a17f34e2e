import ShadowTalk.Sml.EndToEnd
import ShadowTalk.Sml.PeerIsolation
import ShadowTalk.Sml.PeerList

/-!
# Two clients among other hosts

Two whole layers, each with as many peers as there are: the two clients talk to each other
over a wire that loses, repeats, delays and reorders, while any other host sends whatever
it likes to either, and either application does whatever it likes with other peers. A peer
is there from the time it is added, or its first datagram arrives.

* `tracks_inductive`: such a run projects to a run of the tunnel, with a step for each event
  of the two peers, and none for any other.
* `received_prefix`: so the bytes that come out at one client are a prefix of those that
  went in at the other, whatever other hosts do.

Limitations: nobody else sends from the addresses of the two. All trusted keys are added
before.
-/
namespace ShadowTalk.Sml
open ShadowTalk.Core

/-! ## What is put out for one address -/

def UdpEff.effect (a : Address) : UdpEff → Option PeerEff
  | .peer addr e => if addr = a then some e else none
  | .noSuchPeer _ => none

namespace UdpLayer

variable {env : Env} {conf : Configuration} {server a addr : Address} {s s' t : UdpLayer}
  {p : Peer} {d : Datagram} {msg wire priv : Bytes} {e : Endpoint}

/-- What the peer of `a` has put out. -/
def effects (a : Address) (out : List UdpEff) : List PeerEff := out.filterMap (UdpEff.effect a)

theorem effects_append (a : Address) (l m : List UdpEff) :
    effects a (l ++ m) = effects a l ++ effects a m := List.filterMap_append

@[simp] theorem effects_peer (a : Address) (es : List PeerEff) :
    effects a (es.map (.peer a)) = es := by
  unfold effects
  rw [List.filterMap_map]
  have hsome : UdpEff.effect a ∘ UdpEff.peer a = some := by
    funext e
    exact if_pos rfl
  rw [hsome, List.filterMap_some]

theorem effects_outputFor (a : Address) (out : List UdpEff) :
    effects a (outputFor a out) = effects a out := by
  unfold effects outputFor
  rw [List.filterMap_filter]
  congr 1
  funext e
  cases e with
  | noSuchPeer addr => exact ite_self none
  | peer addr e =>
    by_cases h : addr = a
    · simp [concerned, h]
    · simp [concerned, h, UdpEff.effect]

/-- The peer of `a`; if there is none, the one that would be made. -/
def peerAt (env : Env) (s : UdpLayer) (a : Address) : Peer :=
  (s.peerMap a).getD (Peer.new env s.conf).flush

/-- What the constructor puts out, if there is no peer of `a`. -/
def hellos (env : Env) (s : UdpLayer) (a : Address) : List PeerEff :=
  if (s.peerMap a).isSome then [] else (Peer.new env s.conf).out

/-- From `s` to `s'` the peer of `a` has become `q`, and has put out `es`. -/
structure Becomes (a : Address) (s : UdpLayer) (q : Peer) (es : List PeerEff) (s' : UdpLayer) :
    Prop where
  peer : s'.peerMap a = some q
  out : effects a s'.out = effects a s.out ++ es

theorem becomes_putPeer (s : UdpLayer) (a : Address) (q : Peer) :
    Becomes a s q.flush q.out (s.putPeer a q) where
  peer := Function.update_self _ _ _
  out := by
    show effects a (s.out ++ _) = _
    rw [effects_append, effects_peer]

/-- A datagram `msg` from `a`: there is no peer, and none can be made; or `msg` is too short;
or the peer takes the datagram. -/
theorem feedPeer_becomes (hi : PeersOk env s) (hst : Peers (Stored env) s) (a : Address)
    (msg priv : Bytes) :
    ((s.feedPeer env a msg priv).1.peerMap a = s.peerMap a ∧
      effects a (s.feedPeer env a msg priv).1.out = effects a s.out) ∨
    (∃ x, Datagram.parse env.endian msg = .error x ∧
      Becomes a s (s.peerAt env a) (s.hellos env a) (s.feedPeer env a msg priv).1) ∨
    ∃ d, Datagram.parse env.endian msg = .ok d ∧ (d.type ≠ .abort →
      Becomes a s ((s.peerAt env a).recv env s.conf d priv).1.flush
        (s.hellos env a ++ ((s.peerAt env a).recv env s.conf d priv).1.out)
        (s.feedPeer env a msg priv).1) := by
  -- what the peer does, once it is there
  have feed : ∀ (u : UdpLayer) (p : Peer), u.conf = s.conf → u.peerMap a = some p → p.out = [] →
      p.Inv env s.conf → (∃ x, Datagram.parse env.endian msg = .error x ∧
        Becomes a u p [] (u.peerFeed env a p msg priv).1) ∨
      ∃ d, Datagram.parse env.endian msg = .ok d ∧ (d.type ≠ .abort →
        Becomes a u (p.recv env s.conf d priv).1.flush (p.recv env s.conf d priv).1.out
          (u.peerFeed env a p msg priv).1) := by
    intro u p hc hp hout hinv
    unfold UdpLayer.peerFeed
    generalize Datagram.parse env.endian msg = r
    cases r with
    | error x => exact .inl ⟨x, rfl, hp, (List.append_nil _).symm⟩
    | ok d =>
      refine .inr ⟨d, rfl, fun hd => ?_⟩
      have hturn := Peer.turn_of_recv hinv d priv
      have hdel : .delPeer ∉ (p.recv env s.conf d priv).1.out := fun h =>
        hd (hturn.abort_of_delPeer hout h).2
      show Becomes a u _ _ (u.peerRecv env a p d priv).1
      unfold UdpLayer.peerRecv
      rw [hc]
      simp only [if_neg hdel]
      exact becomes_putPeer u a _
  unfold UdpLayer.feedPeer
  cases hp : s.peerMap a with
  | some p =>
    have hat : s.peerAt env a = p := by rw [peerAt, hp]; rfl
    have hno : s.hellos env a = [] := by rw [hellos, hp]; rfl
    rw [hat, hno]
    exact .inr (feed s p rfl hp (hst a p hp).2 (hi a p hp))
  | none =>
    cases hc : s.createPeer env a with
    | error x => exact .inl ⟨hp, rfl⟩
    | ok s₁ =>
      obtain ⟨-, rfl⟩ := createPeer_ok hc
      have hat : s.peerAt env a = (Peer.new env s.conf).flush := by rw [peerAt, hp]; rfl
      have hno : s.hellos env a = (Peer.new env s.conf).out := by rw [hellos, hp]; rfl
      have hput := becomes_putPeer s a (Peer.new env s.conf)
      have hout : ∀ {q : Peer} {es : List PeerEff} {v : UdpLayer},
          Becomes a (s.putPeer a (.new env s.conf)) q es v →
          Becomes a s q ((Peer.new env s.conf).out ++ es) v := fun h =>
        ⟨h.peer, by rw [h.out, hput.out, List.append_assoc]⟩
      rw [hat, hno]
      rcases feed (s.putPeer a (.new env s.conf)) (Peer.new env s.conf).flush rfl hput.peer rfl
        (Peer.inv_new env s.conf).flush with
        ⟨x, hx, hb⟩ | ⟨d, hd, hb⟩
      · exact .inr (.inl ⟨x, hx, by simpa using hout hb⟩)
      · exact .inr (.inr ⟨d, hd, fun h => hout (hb h)⟩)

/-- A datagram that the socket has received. -/
theorem receive_becomes (hi : PeersOk env s) (hst : Peers (Stored env) s)
    (hs : s.step env (.receive e wire priv) = some s') :
    (s'.peerMap (.ofEndpoint e) = s.peerMap (.ofEndpoint e) ∧
      effects (.ofEndpoint e) s'.out = effects (.ofEndpoint e) s.out) ∨
    (∃ x, Datagram.parse env.endian (wire.take bufferSize) = .error x ∧
      Becomes (.ofEndpoint e) s (s.peerAt env (.ofEndpoint e)) (s.hellos env (.ofEndpoint e)) s') ∨
    ∃ d, Datagram.parse env.endian (wire.take bufferSize) = .ok d ∧ (d.type ≠ .abort →
      Becomes (.ofEndpoint e) s ((s.peerAt env (.ofEndpoint e)).recv env s.conf d priv).1.flush
        (s.hellos env (.ofEndpoint e) ++
          ((s.peerAt env (.ofEndpoint e)).recv env s.conf d priv).1.out) s') := by
  simp only [UdpLayer.step] at hs
  split at hs
  · cases hs
    by_cases ha : Address.ofEndpoint e = s.server
    · rw [handleReceive_server ha]
      generalize Address.parse (wire.take bufferSize) = r
      cases r <;> exact .inl ⟨rfl, rfl⟩
    · have hfeed := feedPeer_becomes (s := { s with receiving := false }) hi hst
        (Address.ofEndpoint e) (wire.take bufferSize) priv
      generalize hq : UdpLayer.feedPeer env { s with receiving := false } (Address.ofEndpoint e)
        (wire.take bufferSize) priv = r at hfeed
      have hsame : (s.handleReceive env e wire priv).1.peerMap = r.1.peerMap ∧
          (s.handleReceive env e wire priv).1.out = r.1.out := by
        rw [handleReceive_peer ha hq]
        cases r.2 <;> exact ⟨rfl, rfl⟩
      have hstart : ∀ {q : Peer} {es : List PeerEff},
          Becomes (Address.ofEndpoint e) { s with receiving := false } q es r.1 →
          Becomes (Address.ofEndpoint e) s q es (s.handleReceive env e wire priv).1 := fun h =>
        ⟨by rw [hsame.1]; exact h.peer, by rw [hsame.2]; exact h.out⟩
      rcases hfeed with h | ⟨x, hx, h⟩ | ⟨d, hd, h⟩
      · exact .inl ⟨by rw [hsame.1]; exact h.1, by rw [hsame.2]; exact h.2⟩
      · exact .inr (.inl ⟨x, hx, hstart h⟩)
      · exact .inr (.inr ⟨d, hd, fun hab => hstart (h hab)⟩)
  · cases hs

end UdpLayer

/-- Neither side ever sends an abort. -/
theorem Tunnel.Sim.not_abort {env : Env} {conf : Side → Configuration} {t : Tunnel} {n : PeerNet}
    {str : Lines} {w : Side × Bytes} {d : Datagram} (h : Sim env conf t n str) (hcfb : Cfb env)
    (hw : w ∈ t.wire) (hd : Datagram.parse env.endian (w.2.take bufferSize) = .ok d) :
    d.type ≠ .abort := by
  cases h.wire w hw with
  | raw u hu hx hr hb =>
    obtain ⟨hle, hparse⟩ := Tunnel.parse_raw hr hb
    rw [List.take_of_length_le hle, hparse] at hd
    obtain rfl := Except.ok.inj hd
    rcases hr.type with ht | ht | ht | ht | ht <;> rw [ht] <;> decide
  | sealed key v u ha hk hs hb =>
    obtain ⟨wire, m, hwire, hle, hparse, hdec⟩ := lossless_of_le hcfb hs.le v v.2
    obtain rfl : wire = w.2 := Except.ok.inj (hwire.symm.trans hb)
    rw [List.take_of_length_le hle, hparse] at hd
    obtain rfl := Except.ok.inj hd
    have htype : m.type = .data ∨ m.type = .dataAck :=
      (Peer.decryptPayload_ok (hdec _ hk)).2 ▸ h.explains.said_type hs
    rcases htype with ht | ht <;> rw [ht] <;> decide

/-! ## The two -/

/-- The `n`th effect of the second list comes after the whole first one. -/
theorem wires_append (env : Env) (iv : Nat → Iv) (l m : List PeerEff) :
    wires env iv (l ++ m) = wires env iv l ++ wires env (fun n => iv (l.length + n)) m := by
  unfold wires
  rw [List.zipIdx_append, List.filterMap_append, List.zipIdx_eq_map_add (l := m),
    List.filterMap_map, Nat.zero_add]
  rfl

structure Clients where
  layer : Two UdpLayer
  /-- what the two have sent to each other, and who -/
  wire : List (Side × Bytes)
  /-- the calls of `stream::send` for the other one -/
  sent : Two (List (UInt32 × Bytes))

namespace Clients

inductive Label where
  /-- a copy of datagram number `i` arrives -/
  | recv (i : Nat) (priv : Bytes) (iv : Nat → Iv)
  /-- any other event of the layer of `x`, no matter which peer or host it is about -/
  | own (x : Side) (ev : UdpLayer.Event) (iv : Nat → Iv)

section
variable (env : Env) (ep : Side → Endpoint)

/-- Under this address `x` has the other one as a peer. -/
def far (x : Side) : Address := .ofEndpoint (ep x.other)

/-- The layer of `x` has become `l`: what it has put out for the other one is on the wire. -/
def put (s : Clients) (x : Side) (iv : Nat → Iv) (l : UdpLayer) : Clients where
  layer := s.layer.set x l
  wire := s.wire ++ (wires env iv
    (UdpLayer.effects (far ep x) (l.out.drop (s.layer.get x).out.length))).map (x, ·)
  sent := s.sent

/-- The record of a call of `send`. -/
def call (s : Clients) (x : Side) : UdpLayer.Event → Clients
  | .peer addr (.send id data) =>
    if addr = far ep x then { s with sent := s.sent.set x (s.sent.get x ++ [(id, data)]) } else s
  | _ => s

/-- A datagram that comes from the other one. -/
def isFar (x : Side) : UdpLayer.Event → Bool
  | .receive e _ _ => Address.ofEndpoint e = far ep x
  | _ => false

def step (s : Clients) : Label → Option Clients
  | .recv i priv iv => s.wire[i]?.bind fun w =>
    ((s.layer.get w.1.other).step env (.receive (ep w.1) w.2 priv)).map
      (s.put env ep w.1.other iv)
  | .own x ev iv =>
    if isFar ep x ev then none
    else ((s.layer.get x).step env ev).map ((s.call ep x ev).put env ep x iv)

/-- The two peers, the bytes between them, and nothing of other peers. -/
def view (s : Clients) : Tunnel where
  peer := ⟨(s.layer.get .a).peerAt env (far ep .a), (s.layer.get .b).peerAt env (far ep .b)⟩
  wire := s.wire
  sent := s.sent
  ring := ⟨Peer.ringPuts (UdpLayer.effects (far ep .a) (s.layer.get .a).out),
    Peer.ringPuts (UdpLayer.effects (far ep .b) (s.layer.get .b).out)⟩

/-- Between the two: one session, and every `send` on an acknowledged stream; the trusted
keys are known. With other peers anything may be done. -/
def Clean (s : Clients) : Label → Prop
  | .recv i priv iv => Tunnel.Clean env (s.view env ep) (.recv i priv iv)
  | .own x ev iv =>
    match ev with
    | .peer addr e => addr = far ep x → Tunnel.Clean env (s.view env ep) (.act x e iv)
    | .delPeer addr => addr ≠ far ep x
    | .addTrustedPeerPublicKey _ _ => False
    | _ => True

instance decidableClean (s : Clients) (l : Label) : Decidable (Clean env ep s l) :=
  match l with
  | .recv i priv iv =>
    inferInstanceAs (Decidable (Tunnel.Clean env (s.view env ep) (.recv i priv iv)))
  | .own x ev iv =>
    match ev with
    | .peer addr e => inferInstanceAs
        (Decidable (addr = far ep x → Tunnel.Clean env (s.view env ep) (.act x e iv)))
    | .delPeer _ => inferInstanceAs (Decidable (_ ≠ _))
    | .addTrustedPeerPublicKey _ _ => .isFalse id
    | .receive _ _ _ | .addPeer _ | .queryServer => .isTrue trivial

end

/-- Neither knows any peer. -/
def start (conf : Side → Configuration) (server : Side → Address) : Clients where
  layer := ⟨.new (conf .a) (server .a), .new (conf .b) (server .b)⟩
  wire := []
  sent := ⟨[], []⟩

def lts (env : Env) (ep : Side → Endpoint) (conf : Side → Configuration)
    (server : Side → Address) : LTS Clients Label :=
  .ofFn (· = start conf server) (step env ep)

/-- What `x` has sent to the other one on stream `id`. -/
def sentOn (s : Clients) (x : Side) (id : UInt32) : List Bytes :=
  (s.sent.get x).filterMap fun c => if c.1 = id then some c.2 else none

/-- What was put into the ring of `x` as coming from stream `id` of the other one. -/
def delivered (ep : Side → Endpoint) (s : Clients) (x : Side) (id : UInt32) : List Bytes :=
  Peer.payloads id (UdpLayer.effects (far ep x) (s.layer.get x).out)

/-! ## The tunnel between them -/

section
variable (env : Env) (ep : Side → Endpoint) (conf : Side → Configuration)
  (server : Side → Address)

/-- A clean run of the tunnel has the same two peers and calls, has put the same into the
rings, and has on its wire all that is on the wire here. -/
structure Tracks (s : Clients) (t : Tunnel) : Prop where
  reachable : ((Tunnel.lts env conf).guard (Tunnel.Clean env)).Reachable t
  layer : ∀ x, (UdpLayer.lts env (conf x) (server x)).Reachable (s.layer.get x)
  peer : ∀ x, t.peer.get x = (s.layer.get x).peerAt env (far ep x)
  wire : ∀ w ∈ s.wire, w ∈ t.wire
  /-- whenever a peer is made, it says hello -/
  hello : ∀ x iv, ∀ b ∈ wires env iv (Peer.new env (conf x)).out, (x, b) ∈ t.wire
  sent : t.sent = s.sent
  ring : ∀ x, t.ring.get x =
    Peer.ringPuts (UdpLayer.effects (far ep x) (s.layer.get x).out)
  conf : ∀ x, (s.layer.get x).conf = conf x

end

variable {env : Env} {ep : Side → Endpoint} {conf : Side → Configuration}
  {server : Side → Address} {s : Clients} {t : Tunnel} {x : Side} {l : UdpLayer}
  {ev : UdpLayer.Event} {es : List PeerEff} {q : Peer}

@[simp] theorem view_peer (s : Clients) (x : Side) :
    (s.view env ep).peer.get x = (s.layer.get x).peerAt env (far ep x) := by
  cases x <;> rfl

/-- The peer has put out `es` since. -/
theorem put_wire (iv : Nat → Iv) (hs : (s.layer.get x).out <+: l.out)
    (hout : UdpLayer.effects (far ep x) l.out =
      UdpLayer.effects (far ep x) (s.layer.get x).out ++ es) :
    (s.put env ep x iv l).wire = s.wire ++ (wires env iv es).map (x, ·) := by
  obtain ⟨delta, hd⟩ := hs
  have hes : UdpLayer.effects (far ep x) (l.out.drop (s.layer.get x).out.length) = es := by
    rw [← hd, List.drop_left]
    rw [← hd, UdpLayer.effects_append] at hout
    exact List.append_cancel_left hout
  unfold put
  rw [hes]

theorem peerAt_eq {l l' : UdpLayer} {a : Address} (hc : l'.conf = l.conf)
    (hp : l'.peerMap a = l.peerMap a) : l'.peerAt env a = l.peerAt env a := by
  rw [UdpLayer.peerAt, UdpLayer.peerAt, hc, hp]

theorem peerAt_some {l : UdpLayer} {a : Address} {p : Peer} (h : l.peerMap a = some p) :
    l.peerAt env a = p := by
  rw [UdpLayer.peerAt, h]
  rfl

/-- What the constructor puts out is a hello. -/
def Hellos (env : Env) (c : Configuration) (es : List PeerEff) : Prop :=
  es = [] ∨ es = (Peer.new env c).out

theorem hellos_hellos (l : UdpLayer) (a : Address) : Hellos env l.conf (l.hellos env a) := by
  unfold UdpLayer.hellos
  split
  · exact .inl rfl
  · exact .inr rfl

theorem Hellos.ringPuts {c : Configuration} (h : Hellos env c es) : Peer.ringPuts es = [] := by
  rcases h with rfl | rfl <;> rfl

theorem Tracks.hellos (h : Tracks env ep conf server s t) (hes : Hellos env (conf x) es)
    (iv : Nat → Iv) : ∀ b ∈ wires env iv es, (x, b) ∈ t.wire := by
  rcases hes with rfl | rfl
  · intro b hb
    cases hb
  · exact h.hello x iv

/-- A step of the layer of `x` that the peer of the other one takes no part in; at most, it
is made. -/
theorem Tracks.idle (h : Tracks env ep conf server s t) (iv : Nat → Iv)
    (hs : (s.layer.get x).step env ev = some l) (hconf : l.conf = (s.layer.get x).conf)
    (hpeer : l.peerAt env (far ep x) = (s.layer.get x).peerAt env (far ep x))
    (hout : UdpLayer.effects (far ep x) l.out =
      UdpLayer.effects (far ep x) (s.layer.get x).out ++ es)
    (hes : Hellos env (conf x) es) : Tracks env ep conf server (s.put env ep x iv l) t where
  reachable := h.reachable
  layer y := by
    rcases Side.eq_or_eq_other x y with rfl | rfl
    · rw [put, Two.get_set_self]
      exact (h.layer _).step hs
    · rw [put, Two.get_set_other]
      exact h.layer _
  conf y := by
    rcases Side.eq_or_eq_other x y with rfl | rfl
    · rw [put, Two.get_set_self, hconf, h.conf]
    · rw [put, Two.get_set_other, h.conf]
  peer y := by
    rcases Side.eq_or_eq_other x y with rfl | rfl
    · rw [put, Two.get_set_self, hpeer, h.peer]
    · rw [put, Two.get_set_other, h.peer]
  wire w hw := by
    rw [put_wire iv (UdpLayer.step_out hs) hout] at hw
    rcases List.mem_append.1 hw with hw | hw
    · exact h.wire w hw
    · obtain ⟨b, hb, rfl⟩ := List.mem_map.1 hw
      exact h.hellos hes iv b hb
  hello := h.hello
  sent := h.sent
  ring y := by
    rcases Side.eq_or_eq_other x y with rfl | rfl
    · rw [put, Two.get_set_self, hout, Peer.ringPuts_append, hes.ringPuts, List.append_nil, h.ring]
    · rw [put, Two.get_set_other, h.ring]

/-- A step of the layer of `x` that the peer of the other one takes, once it is made: the
tunnel takes it too. -/
theorem Tracks.move {s₁ : Clients} {t₁ : Tunnel} {k : Tunnel.Label}
    (h : Tracks env ep conf server s t) (iv : Nat → Iv)
    (hs : (s.layer.get x).step env ev = some l) (hconf : l.conf = (s.layer.get x).conf)
    (hb : UdpLayer.Becomes (far ep x) (s.layer.get x) q.flush (es ++ q.out) l)
    (hes : Hellos env (conf x) es) (hlayer : s₁.layer = s.layer) (hwire : s₁.wire = s.wire)
    (htpeer : t₁.peer = t.peer) (htwire : t₁.wire = t.wire) (htring : t₁.ring = t.ring)
    (hsent : t₁.sent = s₁.sent)
    (ht : ((Tunnel.lts env conf).guard (Tunnel.Clean env)).step t k
      (t₁.put env x (fun n => iv (es.length + n)) q)) :
    Tracks env ep conf server (s₁.put env ep x iv l)
      (t₁.put env x (fun n => iv (es.length + n)) q) where
  reachable := h.reachable.step ht
  layer y := by
    rcases Side.eq_or_eq_other x y with rfl | rfl
    · rw [put, Two.get_set_self]
      exact (h.layer _).step hs
    · rw [put, Two.get_set_other, hlayer]
      exact h.layer _
  conf y := by
    rcases Side.eq_or_eq_other x y with rfl | rfl
    · rw [put, Two.get_set_self, hconf, h.conf]
    · rw [put, Two.get_set_other, hlayer, h.conf]
  peer y := by
    rcases Side.eq_or_eq_other x y with rfl | rfl
    · rw [put, Two.get_set_self, Tunnel.put_peer_self, peerAt_some hb.peer]
    · rw [put, Two.get_set_other, Tunnel.put_peer_other, htpeer, hlayer, h.peer]
  wire w hw := by
    have hout := UdpLayer.step_out hs
    have hb := hb.out
    rw [← hlayer] at hout hb
    rw [put_wire iv hout hb, wires_append, List.map_append] at hw
    show w ∈ t₁.wire ++ _
    rw [htwire]
    rcases List.mem_append.1 hw with hw | hw
    · rw [hwire] at hw
      exact List.mem_append_left _ (h.wire w hw)
    · rcases List.mem_append.1 hw with hw | hw
      · obtain ⟨b, hb, rfl⟩ := List.mem_map.1 hw
        exact List.mem_append_left _ (h.hellos hes iv b hb)
      · exact List.mem_append_right _ hw
  hello y iv b hb := by
    show _ ∈ t₁.wire ++ _
    rw [htwire]
    exact List.mem_append_left _ (h.hello y iv b hb)
  sent := hsent
  ring y := by
    rcases Side.eq_or_eq_other x y with rfl | rfl
    · rw [put, Two.get_set_self, Tunnel.put, Two.get_set_self, htring, h.ring, hb.out,
        Peer.ringPuts_append, Peer.ringPuts_append, hes.ringPuts, List.nil_append]
    · rw [put, Two.get_set_other, Tunnel.put, Two.get_set_other, htring, hlayer, h.ring]

/-- The other one's datagram number `i` arrives at `x`. -/
theorem Tracks.recv {i : Nat} {bytes priv : Bytes} {iv : Nat → Iv} (hp : PeerNet.Paired env conf)
    (hcfb : Cfb env) (hf : ∀ x, Fits env (conf x)) (h : Tracks env ep conf server s t)
    (hi : s.wire[i]? = some (x.other, bytes)) (hc : Clean env ep s (.recv i priv iv))
    (hs : (s.layer.get x).step env (.receive (ep x.other) bytes priv) = some l) :
    ∃ t', Tracks env ep conf server (s.put env ep x iv l) t' := by
  have hpeers := (UdpLayer.peersOk_inductive env (conf x) (server x)).reachable (h.layer x)
  have hstored := (UdpLayer.peers_inductive (UdpLayer.stored_rule env) (conf x)
    (server x)).reachable (h.layer x)
  have hconf : l.conf = (s.layer.get x).conf :=
    (UdpLayer.step_lists hs).conf fun _ _ hev => by cases hev
  have hes : Hellos env (conf x) ((s.layer.get x).hellos env (far ep x)) := by
    rw [← h.conf]
    exact hellos_hellos _ _
  have hmem : (x.other, bytes) ∈ t.wire := h.wire _ (List.mem_of_getElem? hi)
  rcases UdpLayer.receive_becomes hpeers hstored hs with
    ⟨hpeer, hout⟩ | ⟨e, -, hb⟩ | ⟨d, hd, hb⟩
  · exact ⟨t, h.idle iv hs hconf (peerAt_eq hconf hpeer) (hout.trans (List.append_nil _).symm)
      (.inl rfl)⟩
  · exact ⟨t, h.idle iv hs hconf (peerAt_some hb.peer) hb.out hes⟩
  · obtain ⟨n, str, hsim⟩ := (Tunnel.sim_inductive hp hcfb hf).reachable h.reachable
    have hb : UdpLayer.Becomes (far ep x) (s.layer.get x)
        ((t.peer.get x).recv env (conf x) d priv).1.flush
        ((s.layer.get x).hellos env (far ep x) ++
          ((t.peer.get x).recv env (conf x) d priv).1.out) l := by
      rw [h.peer, ← h.conf]
      exact hb (hsim.not_abort hcfb hmem hd)
    obtain ⟨j, hj⟩ := List.getElem?_of_mem hmem
    -- the tunnel's wire has it at another place, and what is put out is numbered from there
    refine ⟨_, h.move (k := .recv j priv fun n =>
      iv (((s.layer.get x).hellos env (far ep x)).length + n)) iv hs hconf hb hes rfl rfl rfl rfl
      rfl h.sent ⟨?_, ?_⟩⟩
    · show t.wire[j]?.map (fun w => t.recv env conf w.1.other w.2 priv _) = some _
      rw [hj, Option.map_some, Side.other_other, Tunnel.recv, hd]
      rfl
    · intro w hw u hu ht
      obtain rfl : (x.other, bytes) = w := Option.some.inj (hj.symm.trans hw)
      have hno := hc (x.other, bytes) hi u hu ht
      rwa [view_peer, ← h.peer] at hno

theorem call_layer (ep : Side → Endpoint) (s : Clients) (x : Side) (ev : UdpLayer.Event) :
    (s.call ep x ev).layer = s.layer := by
  unfold call
  split
  · split <;> rfl
  · rfl

theorem call_wire (ep : Side → Endpoint) (s : Clients) (x : Side) (ev : UdpLayer.Event) :
    (s.call ep x ev).wire = s.wire := by
  unfold call
  split
  · split <;> rfl
  · rfl

theorem call_other (h : ¬ ev.Concerns (far ep x)) : s.call ep x ev = s := by
  unfold call
  split
  · exact if_neg h
  · rfl

/-- `add_peer` makes a peer, or drops the one that it has made. -/
theorem addPeer_hellos (env : Env) (l : UdpLayer) (a : Address) :
    (l.addPeer env a).1.peerAt env a = l.peerAt env a ∧
      ∃ es, Hellos env l.conf es ∧
        UdpLayer.effects a (l.addPeer env a).1.out = UdpLayer.effects a l.out ++ es := by
  unfold UdpLayer.addPeer
  split
  · cases hp : l.peerMap a with
    | some p =>
      refine ⟨rfl, _, .inr rfl, ?_⟩
      rw [UdpLayer.effects_append, UdpLayer.effects_peer]
    | none =>
      have hb := UdpLayer.becomes_putPeer l a (Peer.new env l.conf)
      refine ⟨?_, _, .inr rfl, hb.out⟩
      rw [peerAt_some hb.peer, UdpLayer.peerAt, hp]
      rfl
  · exact ⟨rfl, [], .inl rfl, (List.append_nil _).symm⟩

/-- A call, or a timer, of the peer that is the other one. -/
theorem Tracks.peer_event {e : Peer.Event} {iv : Nat → Iv} (h : Tracks env ep conf server s t)
    (hc : Tunnel.Clean env (s.view env ep) (.act x e iv))
    (hs : (s.layer.get x).step env (.peer (far ep x) e) = some l) :
    ∃ t', Tracks env ep conf server ((s.call ep x (.peer (far ep x) e)).put env ep x iv l) t' := by
  have hrecv : ∀ d priv, e ≠ .recv d priv := by
    rintro d priv rfl
    cases hs
  have key : (((s.layer.get x).peerMap (far ep x)).bind fun p =>
      (p.handle env (s.layer.get x).conf e).map fun r =>
        (s.layer.get x).putPeer (far ep x) r.1) = some l := by
    cases e with
    | recv d priv => exact absurd rfl (hrecv d priv)
    | _ => exact hs
  obtain ⟨p, hp, hq⟩ := Option.bind_eq_some_iff.1 key
  obtain ⟨r, hr, rfl⟩ := Option.map_eq_some_iff.1 hq
  rw [h.conf] at hr
  have hat : t.peer.get x = p := by rw [h.peer, peerAt_some hp]
  have hclean : Tunnel.Clean env t (.act x e fun n => iv (0 + n)) := by
    cases e with
    | send id data =>
      show ((t.sentOn x id).flatten ++ data).length < 2 ^ 32 ∧ _
      have hc : ((s.sentOn x id).flatten ++ data).length < 2 ^ 32 ∧ (data = [] ∨
          (((s.view env ep).peer.get x).stream id).sendDatagramQueue = .empty ∧
            (((s.view env ep).peer.get x).stream id).sendOffset.toNat =
              (s.sentOn x id).flatten.length) := hc
      rw [view_peer, ← h.peer] at hc
      rw [Tunnel.sentOn, h.sent]
      exact hc
    | delStream id => exact hc
    | _ => trivial
  have hstep : Tunnel.step env conf t (.act x e fun n => iv (0 + n)) =
      some ((t.call x e).put env x (fun n => iv (0 + n)) r.1) := by
    have hmap : ((t.peer.get x).handle env (conf x) e).map
        (fun r => (t.call x e).put env x (fun n => iv (0 + n)) r.1) =
          some ((t.call x e).put env x (fun n => iv (0 + n)) r.1) := by
      rw [hat, hr]
      rfl
    cases e with
    | recv d priv => exact absurd rfl (hrecv d priv)
    | _ => exact hmap
  have hsent : (t.call x e).sent = (s.call ep x (.peer (far ep x) e)).sent := by
    cases e with
    | send id data =>
      show t.sent.set x (t.sent.get x ++ [(id, data)]) = Clients.sent (if _ then _ else _)
      rw [if_pos rfl, h.sent]
    | _ => exact h.sent
  have hlayer := call_layer ep s x (.peer (far ep x) e)
  have hwire := call_wire ep s x (.peer (far ep x) e)
  have hb : UdpLayer.Becomes (far ep x) (s.layer.get x) r.1.flush ([] ++ r.1.out)
      ((s.layer.get x).putPeer (far ep x) r.1) := UdpLayer.becomes_putPeer _ _ _
  exact ⟨_, h.move iv hs rfl hb (.inl rfl) hlayer hwire (by cases e <;> rfl) (by cases e <;> rfl)
    (by cases e <;> rfl) hsent ⟨hstep, hclean⟩⟩

/-- An event that is no datagram of the other one. -/
theorem Tracks.own {iv : Nat → Iv} (h : Tracks env ep conf server s t)
    (hc : Clean env ep s (.own x ev iv)) (hfar : isFar ep x ev = false)
    (hs : (s.layer.get x).step env ev = some l) :
    ∃ t', Tracks env ep conf server ((s.call ep x ev).put env ep x iv l) t' := by
  have hconf : l.conf = (s.layer.get x).conf := (UdpLayer.step_lists hs).conf (by
    rintro id key rfl
    exact hc)
  by_cases hev : ev.Concerns (far ep x)
  · cases ev with
    | receive e wire priv => exact absurd hev (of_decide_eq_false hfar)
    | addPeer addr =>
      obtain rfl : addr = far ep x := hev
      obtain ⟨hpeer, es, hes, hout⟩ := addPeer_hellos env (s.layer.get x) (far ep x)
      obtain rfl : ((s.layer.get x).addPeer env (far ep x)).1 = l := Option.some.inj hs
      rw [h.conf] at hes
      exact ⟨t, h.idle iv hs hconf hpeer hout hes⟩
    | delPeer addr => exact absurd hev hc
    | addTrustedPeerPublicKey id key => exact hc.elim
    | peer addr e =>
      obtain rfl : addr = far ep x := hev
      exact h.peer_event (hc rfl) hs
    | queryServer => exact hev.elim
  · have hsame := UdpLayer.step_other hs hev
    have hout : UdpLayer.effects (far ep x) l.out =
        UdpLayer.effects (far ep x) (s.layer.get x).out ++ [] := by
      rw [← UdpLayer.effects_outputFor, hsame.out, UdpLayer.effects_outputFor, List.append_nil]
    rw [call_other hev]
    exact ⟨t, h.idle iv hs hconf (peerAt_eq hconf hsame.peer) hout (.inl rfl)⟩

/-! ## Runs -/

theorem tracks_start (env : Env) (ep : Side → Endpoint) (conf : Side → Configuration)
    (server : Side → Address) :
    Tracks env ep conf server (start conf server) (Tunnel.start env conf) where
  reachable := .ofInit rfl
  layer x := by cases x <;> exact .ofInit rfl
  peer x := by cases x <;> rfl
  wire w hw := by cases hw
  hello x iv b hb := by
    have hb : b ∈ wires env (fun _ => Tunnel.noIv) (Peer.new env (conf x)).out := hb
    cases x with
    | a => exact List.mem_append_left _ (List.mem_map_of_mem hb)
    | b => exact List.mem_append_right _ (List.mem_map_of_mem hb)
  sent := rfl
  ring x := by cases x <;> rfl
  conf x := by cases x <;> rfl

/-- A clean run of the two layers, whatever else they do, projects to a clean run of the
tunnel. -/
theorem tracks_inductive (server : Side → Address) (hp : PeerNet.Paired env conf) (hcfb : Cfb env)
    (hf : ∀ x, Fits env (conf x)) :
    ((lts env ep conf server).guard (Clean env ep)).Inductive fun s =>
      ∃ t, Tracks env ep conf server s t where
  init := forall_eq.2 ⟨_, tracks_start env ep conf server⟩
  step s l s' h hs := by
    obtain ⟨t, h⟩ := h
    obtain ⟨hs, hc⟩ := hs
    cases l with
    | recv i priv iv =>
      obtain ⟨⟨y, bytes⟩, hi, hs⟩ := Option.bind_eq_some_iff.1
        (show (s.wire[i]?.bind fun w =>
          ((s.layer.get w.1.other).step env (.receive (ep w.1) w.2 priv)).map
            (s.put env ep w.1.other iv)) = some s' from hs)
      obtain ⟨l, hl, rfl⟩ := Option.map_eq_some_iff.1 hs
      have hy := (Side.other_other y).symm
      exact h.recv hp hcfb hf (hi.trans (by rw [← hy])) hc (by rwa [← hy])
    | own x ev iv =>
      have hs : (if isFar ep x ev then none
          else ((s.layer.get x).step env ev).map ((s.call ep x ev).put env ep x iv)) = some s' := hs
      split at hs
      · cases hs
      · rename_i hfar
        obtain ⟨l, hl, rfl⟩ := Option.map_eq_some_iff.1 hs
        exact h.own hc (Bool.not_eq_true _ ▸ hfar) hl

/-- The rings of the two clients are those of the tunnel. -/
theorem Tracks.delivered_prefix {id : UInt32} (h : Tracks env ep conf server s t)
    (hp : PeerNet.Paired env conf) (hcfb : Cfb env) (hf : ∀ x, Fits env (conf x)) :
    (delivered ep s x.other id).flatten <+: (s.sentOn x id).flatten := by
  obtain ⟨n, str, hsim⟩ := (Tunnel.sim_inductive hp hcfb hf).reachable h.reachable
  have hprefix := hsim.delivered_prefix x id
  have hdel : t.delivered x.other id = delivered ep s x.other id := by
    rw [Tunnel.delivered, h.ring, Peer.payloads_ringPuts]
    rfl
  have hsent : t.sentOn x id = s.sentOn x id := by
    rw [Tunnel.sentOn, h.sent]
    rfl
  rwa [hdel, hsent] at hprefix

/-- Whatever other hosts send and whatever is done with them: the bytes that one client
puts into its ring, as coming from a stream of the other one, are a prefix of those that
were sent there. -/
theorem received_prefix {id : UInt32} (hp : PeerNet.Paired env conf) (hcfb : Cfb env)
    (hf : ∀ x, Fits env (conf x))
    (h : ((lts env ep conf server).guard (Clean env ep)).Reachable s) :
    (delivered ep s x.other id).flatten <+: (s.sentOn x id).flatten := by
  obtain ⟨t, ht⟩ := (tracks_inductive server hp hcfb hf).reachable h
  exact ht.delivered_prefix hp hcfb hf

/-! ## Two clients of the small group -/

def smallEp : Side → Endpoint
  | .a => ⟨127, 0, 0, 1, 7⟩
  | .b => ⟨127, 0, 0, 1, 9⟩

/-- A third host says hello to `b`; then `a` adds `b`, and sends it two bytes. -/
def thirdTrace : List Label :=
  [.own .b (.receive ⟨127, 0, 0, 1, 8⟩ [2, 0, 0, 0, 0, 0, 0, 0, 0, 1, 0, 0, 0, 98] [5])
      fun _ => Tunnel.noIv,
    .own .a (.addPeer (far smallEp .a)) fun _ => Tunnel.noIv] ++
  (List.range 12).map (fun i =>
    .recv i (if i = 2 then [7] else if i = 3 then [9] else []) fun _ => Tunnel.noIv) ++
  [.own .a (.peer (far smallEp .a) (.addStream 0)) fun _ => Tunnel.noIv,
    .own .a (.peer (far smallEp .a) (.send 0 [1, 2])) fun _ => Tunnel.noIv,
    .recv 12 [] fun _ => Tunnel.noIv]

theorem received_prefix_thirdTrace : ∃ s : Clients, s.sentOn .a 0 = [[1, 2]] ∧
    delivered smallEp s .b 0 = [[1, 2]] ∧
    (delivered smallEp s .b 0).flatten <+: (s.sentOn .a 0).flatten := by
  have hrun : ∃ s, ((lts smallEnv smallEp PeerNet.smallConf fun _ => ⟨[], 0⟩).guard
      (Clean smallEnv smallEp)).Reachable s ∧
      s.sentOn .a 0 = [[1, 2]] ∧ delivered smallEp s .b 0 = [[1, 2]] :=
    LTS.exists_reachable_of_execGuard thirdTrace rfl (by decide +kernel)
  obtain ⟨s, hr, hsent, hdel⟩ := hrun
  exact ⟨s, hsent, hdel,
    received_prefix (x := .a) PeerNet.paired_small cfb_small Tunnel.fits_small hr⟩

end Clients

end ShadowTalk.Sml
