import ShadowTalk.Sml.UdpLayer
import ShadowTalk.Sml.Codec

/-!
# `add_peer` for a known address

`add_peer` makes the new peer before `insert` finds that there is one already, and the
constructor of a peer sends a hello.

* `addPeer_known`: the map stays as it is, and a hello is sent.
* `handleReceive_hello`: an established peer that gets a hello starts over.
* `addPeer_resets`: so adding a known peer is never without effect, and it ends the
  session at the other party.
-/
namespace ShadowTalk.Sml
open ShadowTalk.Core

namespace UdpLayer

variable {env env' : Env} {conf conf' : Configuration} {server server' addr : Address}
  {s t : UdpLayer} {p q : Peer} {e : Endpoint} {wire priv : Bytes}

/-- asio has accepted the address of a stored peer, and its output is recorded. -/
def Stored (env : Env) (_ : Configuration) (addr : Address) (p : Peer) : Prop :=
  env.validIp addr.ip = true ∧ p.out = []

theorem stored_rule (env : Env) : PeerRule env (Stored env) where
  new _ _ hip := ⟨hip, rfl⟩
  handle _ _ _ _ _ h _ := ⟨h.1, rfl⟩
  conf _ _ _ _ _ h := h

/-- `add_peer` neither touches the peers nor puts anything out. -/
structure AddsNothing (env : Env) (s : UdpLayer) (addr : Address) : Prop where
  peerMap : (s.addPeer env addr).1.peerMap = s.peerMap
  out : (s.addPeer env addr).1.out = s.out

/-- The hello of the dropped peer is sent. -/
theorem addPeer_known (h : (lts env conf server).Reachable s) (hp : s.peerMap addr = some p) :
    s.addPeer env addr =
      ({ s with out := s.out ++ [.peer addr (.send (.createHello s.conf.id))] }, none) := by
  have hip := ((peers_inductive (stored_rule env) conf server).reachable h addr p hp).1
  unfold UdpLayer.addPeer
  simp only [hip, hp, if_true]
  rfl

theorem feedPeer_known {msg : Bytes} (hq : s.peerMap addr = some q) :
    s.feedPeer env addr msg priv = s.peerFeed env addr q msg priv := by
  unfold UdpLayer.feedPeer
  simp only [hq]

/-- A hello, at least its header, for a peer that is established. -/
theorem handleReceive_hello (priv : Bytes) (h : (lts env conf server).Reachable t)
    (ha : Address.ofEndpoint e ≠ t.server) (hq : t.peerMap (Address.ofEndpoint e) = some q)
    (hh : q.datagramHandler = .established) (hlen : 13 ≤ wire.length)
    (htype : (Datagram.decode env.endian (wire.take bufferSize)).type = .hello) :
    (t.handleReceive env e wire priv).1.peerMap (Address.ofEndpoint e) =
      some (q.restarted env t.conf (Datagram.decode env.endian (wire.take bufferSize))).flush := by
  have hinv := (peersOk_inductive env conf server).reachable h _ q hq
  have hout := ((peers_inductive (stored_rule env) conf server).reachable h _ q hq).2
  generalize hmsg : wire.take bufferSize = msg at htype ⊢
  have hlt : msg.length < 2 ^ 31 ∧ 13 ≤ msg.length := by
    rw [← hmsg, List.length_take, bufferSize]
    omega
  have hparse : Datagram.parse env.endian msg = .ok (Datagram.decode env.endian msg) := by
    rw [Datagram.parse_eq env.endian hlt.1, if_pos hlt.2]
  generalize Datagram.decode env.endian msg = d at htype hparse ⊢
  have hrecv := Peer.recv_hello hinv hh htype priv
  have hdel : PeerEff.delPeer ∉ (q.restarted env t.conf d).out := by
    simp [Peer.restarted_out, hout]
  have hfeed : UdpLayer.feedPeer env { t with receiving := false } (Address.ofEndpoint e)
      (wire.take bufferSize) priv = (UdpLayer.putPeer { t with receiving := false }
        (Address.ofEndpoint e) (q.restarted env t.conf d), none) := by
    rw [hmsg, feedPeer_known (s := { t with receiving := false }) hq, UdpLayer.peerFeed, hparse]
    show UdpLayer.peerRecv env _ _ q d priv = _
    unfold UdpLayer.peerRecv
    rw [hrecv]
    simp only [if_neg hdel]
  rw [handleReceive_peer ha hfeed]
  exact Function.update_self _ _ _

/-- The other party has forgotten the session of this address. -/
def Forgotten (t : UdpLayer) (addr : Address) : Prop :=
  ∃ q, t.peerMap addr = some q ∧ q.datagramHandler = .hello ∧ q.key = none ∧
    q.encryptLayer = none ∧ q.streamMap = .empty

theorem decode_encode_type (e e' : Endian) (d : Datagram) :
    (Datagram.decode e' ((d.encode e).take bufferSize)).type = d.type := by
  have hcons : d.encode e = d.type.toByte :: (d.encode e).drop 1 := rfl
  rw [hcons, bufferSize, List.take_succ_cons]
  exact MsgType.ofByte_toByte d.type

/-- Adding a known peer is never without effect: whatever its phase, a hello is sent, and
an established peer at the other end that gets it forgets its session. -/
theorem addPeer_resets (env' : Env) (h : (lts env conf server).Reachable s) (hp : s.peerMap addr = some p) :
    ¬ AddsNothing env s addr ∧ (s.addPeer env addr).1.peerMap = s.peerMap ∧
      ∃ d, (s.addPeer env addr).1.out = s.out ++ [.peer addr (.send d)] ∧
        ∀ wire, d.payload.length < 2 ^ 29 → d.toBytes env.endian = .ok wire →
          ∀ conf' server' t e q priv, (lts env' conf' server').Reachable t →
            Address.ofEndpoint e ≠ t.server → t.peerMap (Address.ofEndpoint e) = some q →
            q.datagramHandler = .established →
            Forgotten (t.handleReceive env' e wire priv).1 (Address.ofEndpoint e) := by
  have hadd := addPeer_known h hp
  refine ⟨fun hn => ?_, by rw [hadd], .createHello s.conf.id, by rw [hadd], ?_⟩
  · have hout := hn.out
    rw [hadd] at hout
    simp at hout
  · intro wire hlen hw conf' server' t e q priv ht ha hq hh
    rw [Datagram.toBytes_eq _ _ (by omega)] at hw
    obtain rfl := Except.ok.inj hw
    have h13 : 13 ≤ (Datagram.encode env.endian (.createHello s.conf.id)).length := by
      rw [Datagram.encode_length]
      exact Nat.le_add_right _ _
    have hmap := handleReceive_hello priv ht ha hq hh h13
      (decode_encode_type env.endian env'.endian (.createHello s.conf.id))
    exact ⟨_, hmap, rfl, rfl, rfl, rfl⟩

/-- A handshake with the host at 127.0.0.1:9, who calls himself `b`. -/
def handshakeTrace : List Event :=
  [.receive ⟨127, 0, 0, 1, 9⟩ [2, 0, 0, 0, 0, 0, 0, 0, 0, 1, 0, 0, 0, 98] [7],
    .receive ⟨127, 0, 0, 1, 9⟩ [1, 0, 0, 0, 0, 0, 0, 0, 0, 0, 0, 0, 0] [7],
    .receive ⟨127, 0, 0, 1, 9⟩ ([3, 0, 0, 0, 0, 0, 0, 0, 0, 1, 0, 0, 0] ++ smallPub [9]) [],
    .receive ⟨127, 0, 0, 1, 9⟩ [1, 0, 0, 0, 0, 0, 0, 0, 0, 0, 0, 0, 0] [],
    .receive ⟨127, 0, 0, 1, 9⟩ ([6, 0, 0, 0, 0, 0, 0, 0, 0, 10, 0, 0, 0] ++ Peer.echoContent) []]

/-- The host at 127.0.0.1:9 after the handshake. -/
def peer9 : Address := Address.ofEndpoint ⟨127, 0, 0, 1, 9⟩

/-- He sends byte `x` on stream `id`, with the key of the handshake. -/
def peer9Data (id x : UInt8) : Event :=
  .receive ⟨127, 0, 0, 1, 9⟩ ([7, id, 0, 0, 0, 0, 0, 0, 0, 1, 0, 0, 0] ++
    smallEnv.encrypt (List.replicate 8 18 ++ List.replicate 8 7) (List.replicate 16 1) [x]) []

theorem reachable_established : ∃ t q, (lts smallEnv smallConfA ⟨[], 0⟩).Reachable t ∧
    t.server = ⟨[], 0⟩ ∧ t.peerMap peer9 = some q ∧ q.datagramHandler = .established := by
  have hrun : ∃ t, (lts smallEnv smallConfA ⟨[], 0⟩).Reachable t ∧ t.server = ⟨[], 0⟩ ∧
      (t.peerMap peer9).any (fun q => decide (q.datagramHandler = .established)) = true :=
    LTS.exists_reachable_of_exec handshakeTrace rfl (by decide +kernel)
  obtain ⟨t, hr, hserver, hq⟩ := hrun
  obtain ⟨q, hq, hh⟩ := (Option.any_eq_true _ _).1 hq
  exact ⟨t, q, hr, hserver, hq, of_decide_eq_true hh⟩

theorem addPeer_resets_small : ∃ s t : UdpLayer, (s.peerMap peer9).isSome = true ∧
    ¬ AddsNothing smallEnv s peer9 ∧
    (t.peerMap peer9).any (fun q => decide (q.datagramHandler = .established)) = true ∧
    ∃ wire, Forgotten (t.handleReceive smallEnv ⟨127, 0, 0, 1, 9⟩ wire []).1 peer9 := by
  have hrun : ∃ s, (lts smallEnv smallConfB ⟨[], 0⟩).Reachable s ∧ s.conf.id = [98] ∧
      (s.peerMap peer9).isSome = true :=
    LTS.exists_reachable_of_exec [.addPeer peer9] rfl (by decide +kernel)
  obtain ⟨s, hr, hid, hsome⟩ := hrun
  obtain ⟨p, hp⟩ := Option.isSome_iff_exists.1 hsome
  obtain ⟨t, q, ht, hserver, hq, hh⟩ := reachable_established
  obtain ⟨hn, -, d, hout, hreset⟩ := addPeer_resets smallEnv hr hp
  rw [addPeer_known hr hp, hid] at hout
  obtain rfl : d = .createHello [98] := by simpa using hout.symm
  refine ⟨s, t, hsome, hn, by rw [hq]; exact decide_eq_true hh,
    Datagram.encode .little (.createHello [98]), ?_⟩
  exact hreset _ (by decide) (Datagram.toBytes_eq _ _ (by decide)) _ _ t ⟨127, 0, 0, 1, 9⟩ q [] ht
    (by rw [hserver]; decide +kernel) hq hh

/-- Counterexample: `b` has the peer already, and adds it once more; the other party,
which has a key for `b`, has none any more. -/
theorem addPeer_not_noop :
    (∃ s, (lts smallEnv smallConfB ⟨[], 0⟩).Reachable s ∧ (s.peerMap peer9).isSome = true ∧
      (s.addPeer smallEnv peer9).1.out = s.out ++ [.peer peer9 (.send (.createHello [98]))]) ∧
    ∃ t, (lts smallEnv smallConfA ⟨[], 0⟩).Reachable t ∧
      (t.peerMap peer9).any (fun q => decide (q.datagramHandler = .established ∧
        q.key.isSome = true)) = true ∧
      ((t.handleReceive smallEnv ⟨127, 0, 0, 1, 9⟩ [2, 0, 0, 0, 0, 0, 0, 0, 0, 1, 0, 0, 0, 98]
        []).1.peerMap peer9).any (fun q => decide (q.datagramHandler = .hello ∧ q.key = none)) =
        true :=
  ⟨LTS.exists_reachable_of_exec [.addPeer peer9] rfl (by decide +kernel),
    LTS.exists_reachable_of_exec handshakeTrace rfl (by decide +kernel)⟩

end UdpLayer
end ShadowTalk.Sml
