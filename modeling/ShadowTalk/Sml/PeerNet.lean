import ShadowTalk.Sml.HandshakeNet
import ShadowTalk.Sml.Turn
import Mathlib.Data.List.InsertIdx

/-!
# Two peers over a lossy network

Two `peer` objects with their configurations. Handshake datagrams travel over
the network of `Duplex`; datagrams of streams are not tracked, instead any such
datagram, with any content, may arrive at any time (`junk`). A handler that
throws leaves its state behind, and the run goes on.

* `netOk_inductive`: every hello under way carries the id of its sender, and so
  both sides use the static key they have configured for the other.
* `view_step`, `view_act_stream`, `view_reachable`: the two peers run exactly the
  two handshakes of `HandshakeNet`.
-/
namespace ShadowTalk.Sml
open ShadowTalk.Core

inductive PeerAct where
  /-- the deadline of `timer_` passes -/
  | expire
  /-- the oldest queued `retransmit_raw_datagram` runs -/
  | retransmit
  /-- a call or a timer of a stream -/
  | stream (e : Peer.Event)
  /-- a datagram arrives that is none of the handshake's -/
  | junk (d : Datagram) (priv : Bytes)
  deriving DecidableEq

namespace Peer

/-- How often a datagram resets a peer. -/
def resetBy (p : Peer) (d : Datagram) : Nat :=
  if p.datagramHandler = .established ∧ d.type = .hello then 1 else 0

/-- Neither a datagram of the handshake nor an abort. -/
def isJunk (d : Datagram) : Bool := decide (Msg.of d = .other ∧ d.type ≠ .abort)

end Peer

def peerMachine (env : Env) (conf : Side → Configuration) :
    Machine (Party Peer) Datagram Bytes PeerAct (Tag Datagram) where
  recv x p d priv :=
    let q := (p.state.recv env (conf x) d priv).1
    (⟨q.flush, p.resets + p.state.resetBy d⟩, Peer.rawSends q.out)
  act x p l :=
    let put (q : Peer) : Party Peer × List Datagram := (⟨q.flush, p.resets⟩, Peer.rawSends q.out)
    match l with
    | .expire => (p.state.handle env (conf x) .expire).map fun r => put r.1
    | .retransmit => (p.state.handle env (conf x) .retransmit).map fun r => put r.1
    | .stream e =>
      if e.isStream then (p.state.handle env (conf x) e).map fun r => put r.1 else none
    | .junk d priv =>
      if Peer.isJunk d then some (put (p.state.recv env (conf x) d priv).1) else none
  tag p q c := ⟨p.resets, q.resets, p.state.datagramHandler, c⟩

abbrev PeerNet := Net (Party Peer) Datagram (Tag Datagram)
abbrev PeerLabel := Net.Label Bytes PeerAct

namespace PeerNet

/-- Both constructors have run. -/
def start (env : Env) (conf : Side → Configuration) : PeerNet where
  party := ⟨⟨(Peer.new env (conf .a)).flush, 0⟩, ⟨(Peer.new env (conf .b)).flush, 0⟩⟩
  net := [⟨.a, .createHello (conf .a).id, ⟨0, 0, .hello, none⟩⟩,
    ⟨.b, .createHello (conf .b).id, ⟨0, 0, .hello, none⟩⟩]

def lts (env : Env) (conf : Side → Configuration) : LTS PeerNet PeerLabel :=
  Net.lossy (· = start env conf) (peerMachine env conf)

end PeerNet

/-! ## Hellos carry the id of their sender -/

namespace Peer

variable {env : Env} {conf : Configuration} {spub : Bytes} {p : Peer} {d : Datagram} {priv : Bytes}

/-- `d` is not a hello, or a hello with this id. -/
def HelloId (i : Bytes) (d : Datagram) : Prop := d.type = .hello → d.payload = i

/-- Every hello that `p` has sent, or may send again, carries its own id. -/
structure OwnHello (conf : Configuration) (p : Peer) : Prop where
  timer : ∀ d ∈ p.timer.pending, HelloId conf.id d
  out : ∀ d ∈ rawSends p.out, HelloId conf.id d

theorem OwnHello.of_eq {q : Peer} (h : OwnHello conf p) (ht : q.timer = p.timer)
    (ho : rawSends q.out = rawSends p.out) : OwnHello conf q :=
  ⟨by rw [ht]; exact h.timer, by rw [ho]; exact h.out⟩

theorem OwnHello.cancel {q : Peer} (h : OwnHello conf p) (ht : q.timer = p.timer.cancel)
    (ho : rawSends q.out = rawSends p.out) : OwnHello conf q := by
  refine ⟨fun x hx => h.timer x ?_, by rw [ho]; exact h.out⟩
  rw [ht, Timer.mem_pending] at hx
  exact Timer.mem_pending.2 (.inr (hx.resolve_left (by simp)))

theorem OwnHello.sendRaw (h : OwnHello conf p) (hd : HelloId conf.id d) :
    OwnHello conf (p.sendRawDatagram d) := by
  refine ⟨h.timer, fun x hx => ?_⟩
  simp only [sendRawDatagram, put, rawSends_append, rawSends_send, rawSends_nil, List.mem_append,
    List.mem_singleton] at hx
  rcases hx with hx | rfl
  · exact h.out x hx
  · exact hd

theorem OwnHello.sendRawWithRetransmit (h : OwnHello conf p) (hd : HelloId conf.id d) :
    OwnHello conf (p.sendRawDatagramWithRetransmit d) := by
  have hc : OwnHello conf { p with timer := p.timer.cancel } := h.cancel rfl rfl
  refine ⟨fun x hx => ?_, (hc.sendRaw hd).out⟩
  rw [Timer.mem_pending] at hx
  rcases hx with hx | hx
  · rw [← Option.some.inj hx]; exact hd
  · exact h.timer x (Timer.mem_pending.2 (.inr hx))

theorem OwnHello.sendAck (h : OwnHello conf p) : OwnHello conf p.sendAck :=
  h.sendRaw fun hd => by cases hd

theorem ownHello_new (env : Env) (conf : Configuration) : OwnHello conf (new env conf) := by
  have : OwnHello conf (sendRawDatagramWithRetransmit _ (.createHello conf.id)) :=
    OwnHello.sendRawWithRetransmit (p := {
      currentState := .initial, datagramHandler := .hello, timer := .new
      dh := DhKeyAgreement.new.setStaticKeyPairs (env.hexStrToBytes conf.privateKey)
        (env.hexStrToBytes conf.publicKey)
      id := [], peerSpub := [], sentEchoDatagram := none, key := none, encryptLayer := none
      streamMap := .empty, out := [] })
      ⟨List.forall_mem_nil _, List.forall_mem_nil _⟩ fun _ => rfl
  exact this.of_eq rfl rfl

theorem OwnHello.helloTake {q : Peer} (h : OwnHello conf p) (ht : HelloTake env conf p d q) :
    OwnHello conf q := by
  cases ht with
  | hello ht => exact OwnHello.sendAck (h.of_eq rfl rfl)
  | ack ht => exact h.cancel rfl rfl

theorem OwnHello.helloCompleteHandler (h : OwnHello conf p) :
    OwnHello conf (p.helloCompleteHandler env priv) := by
  have hq : OwnHello conf { p with dh := p.dh.generateEphemeralKeyPairs env priv } :=
    h.of_eq rfl rfl
  have hs := hq.sendRawWithRetransmit (d := .createPublicKey (env.ephemeralPub priv))
    fun hd => by cases hd
  exact hs.of_eq rfl rfl

theorem OwnHello.keyTake {q : Peer} (h : OwnHello conf p) (ht : KeyTake p d q) :
    OwnHello conf q := by
  cases ht with
  | key ht => exact OwnHello.sendAck (h.of_eq rfl rfl)
  | ack ht => exact h.cancel rfl rfl
  | hello ht => exact h.sendAck
  | ignore => exact h

theorem OwnHello.keyed (h : OwnHello conf p) (v k : Bytes) : OwnHello conf (p.keyed v k) := by
  have hq : OwnHello conf { p with sentEchoDatagram := some (.createEcho echoContent) } :=
    h.of_eq rfl rfl
  have hs := hq.sendRawWithRetransmit (d := .createEcho echoContent) fun hd => by cases hd
  refine hs.of_eq rfl ?_
  simp [Peer.keyed, agreeing, sendEcho, sendRawDatagramWithRetransmit, sendRawDatagram, put]

theorem OwnHello.restarted (h : OwnHello conf p) : OwnHello conf (p.restarted env conf d) := by
  have hq : OwnHello conf ({ p.reset env conf with
      currentState := { Bits.initial with receivedHello := true } } : Peer) := h.cancel rfl rfl
  have hs : OwnHello conf (Peer.sendHello conf { p.reset env conf with
      currentState := { Bits.initial with receivedHello := true } }) :=
    (hq.sendRawWithRetransmit (d := .createHello conf.id) fun _ => rfl).of_eq rfl rfl
  exact OwnHello.sendAck (hs.of_eq rfl rfl)

theorem OwnHello.turn {r : Peer × Option Exc} (h : OwnHello conf p)
    (ht : Turn env conf p d priv r) : OwnHello conf r.1 := by
  cases ht with
  | hello hp ht hn => exact h.helloTake ht
  | helloDone hp ht hc => exact (h.helloTake ht).helloCompleteHandler
  | key hp ht hn => exact h.keyTake ht
  | keyFailed hp ht hc shared key hx => exact (h.keyTake ht).of_eq rfl (by simp [agreeing, put])
  | keyDone hp ht hc v k => exact (h.keyTake ht).keyed v k
  | echoDone hp ht hc => exact h.cancel rfl (by simp [finish, put])
  | reset hp ht => exact h.restarted
  | answer hp ht => exact h.sendRaw fun hd => by cases hd
  | keyAgain hp ht => exact h.sendAck
  | abort hp ht => exact h.of_eq rfl (by simp [put])
  | feed hp ht payload =>
    have hs := feedStream_same p { d with payload := payload }
    exact h.of_eq hs.timer hs.rawSends
  | undecryptable hp ht => exact h
  | ignore hp he => exact h

theorem OwnHello.recv (hi : Inv env conf p) (h : OwnHello conf p) :
    OwnHello conf (p.recv env conf d priv).1 := h.turn (turn_of_recv hi d priv)

/-! ## The static key of the other side -/

theorem Knows.of_eq {q : Peer} (h : Knows spub p)
    (hr : q.currentState.receivedHello = p.currentState.receivedHello)
    (hk : q.currentState.receivedPublicKey = p.currentState.receivedPublicKey)
    (hs : q.peerSpub = p.peerSpub) (hd : q.dh.peerSpub = p.dh.peerSpub) : Knows spub q :=
  ⟨by rw [hr, hs]; exact h.peerSpub, by rw [hk, hd]; exact h.dhSpub⟩

theorem Knows.turn {r : Peer × Option Exc} (hi : Inv env conf p) (h : Knows spub p)
    (hd : HelloOf env conf spub d) (ht : Turn env conf p d priv r) : Knows spub r.1 := by
  have hello : ∀ {q}, p.datagramHandler = .hello → HelloTake env conf p d q → Knows spub q := by
    intro q hp ht
    cases ht with
    | hello ht =>
      obtain ⟨ha, hr, hb⟩ := hi.helloBits hp
      refine ⟨fun _ => hd ht, fun hk => ?_⟩
      change p.currentState.receivedPublicKey = true at hk
      rw [hb] at hk
      cases hk
    | ack ht => exact h.of_eq rfl rfl rfl rfl
  have key : ∀ {q}, p.datagramHandler = .publicKeyExchange → KeyTake p d q → Knows spub q := by
    intro q hp ht
    cases ht with
    | key ht => exact h.receivedPublicKeyHandler hi hp
    | ack ht => exact h.of_eq rfl rfl rfl rfl
    | hello ht => exact h.of_eq rfl rfl rfl rfl
    | ignore => exact h
  cases ht with
  | hello hp ht hn => exact hello hp ht
  | helloDone hp ht hc => exact (hello hp ht).of_eq rfl rfl rfl rfl
  | key hp ht hn => exact key hp ht
  | keyFailed hp ht hc shared k hx => exact (key hp ht).of_eq rfl rfl rfl rfl
  | keyDone hp ht hc v k => exact (key hp ht).of_eq rfl rfl rfl rfl
  | echoDone hp ht hc => exact h.of_eq rfl rfl rfl rfl
  | reset hp ht => exact ⟨fun _ => hd ht, fun hk => by cases hk⟩
  | answer hp ht => exact h.of_eq rfl rfl rfl rfl
  | keyAgain hp ht => exact h.of_eq rfl rfl rfl rfl
  | abort hp ht => exact h.of_eq rfl rfl rfl rfl
  | feed hp ht payload => exact h.of_same (feedStream_same _ _)
  | undecryptable hp ht => exact h
  | ignore hp he => exact h

theorem Knows.recv (hi : Inv env conf p) (h : Knows spub p) (hd : HelloOf env conf spub d) :
    Knows spub (p.recv env conf d priv).1 := h.turn hi hd (turn_of_recv hi d priv)

end Peer

/-! ## The network -/

namespace PeerNet

variable {env : Env} {conf : Side → Configuration}

/-- The static key that `x` has configured for the id of the other side. -/
def spubOf (env : Env) (conf : Side → Configuration) (x : Side) : Bytes :=
  env.hexStrToBytes ((conf x).getPeerPublicKeyById (conf x.other).id)

/-- A peer of the pair. -/
structure PeerOk (env : Env) (conf : Side → Configuration) (x : Side) (p : Peer) : Prop where
  inv : p.Inv env (conf x)
  knows : p.Knows (spubOf env conf x)
  own : p.OwnHello (conf x)

structure NetOk (env : Env) (conf : Side → Configuration) (s : PeerNet) : Prop where
  peer : ∀ x, PeerOk env conf x (s.get x).state
  out : ∀ x, (s.get x).state.out = []
  hello : ∀ p ∈ s.net, Peer.HelloId (conf p.src).id p.msg

theorem PeerOk.flush {x : Side} {p : Peer} (h : PeerOk env conf x p) :
    PeerOk env conf x p.flush where
  inv := h.inv.flush
  knows := h.knows.of_eq rfl rfl rfl rfl
  own := ⟨h.own.timer, List.forall_mem_nil _⟩

theorem PeerOk.recv {x : Side} {p : Peer} {d : Datagram} {priv : Bytes} (h : PeerOk env conf x p)
    (hd : Peer.HelloId (conf x.other).id d) : PeerOk env conf x (p.recv env (conf x) d priv).1 where
  inv := h.inv.recv
  knows := h.knows.recv h.inv fun ht => by rw [hd ht]; rfl
  own := h.own.recv h.inv

theorem PeerOk.of_same {x : Side} {p q : Peer} (h : PeerOk env conf x p)
    (hs : p.SameHandshake q) : PeerOk env conf x q :=
  ⟨h.inv.of_same hs, h.knows.of_same hs, h.own.of_eq hs.timer hs.rawSends⟩

theorem PeerOk.expire {x : Side} {p : Peer} {r : Peer × Option Exc} (h : PeerOk env conf x p)
    (hr : p.handle env (conf x) .expire = some r) : PeerOk env conf x r.1 := by
  have hi := h.inv.handle hr
  simp only [Peer.handle, Option.map_eq_some_iff] at hr
  obtain ⟨t, ht, rfl⟩ := hr
  obtain ⟨d, ha, rfl⟩ := Timer.expire_eq_some ht
  refine ⟨hi, h.knows.of_eq rfl rfl rfl rfl, fun y hy => h.own.timer y ?_, h.own.out⟩
  rw [Timer.mem_pending] at hy ⊢
  simpa [ha, eq_comm, or_comm] using hy

theorem PeerOk.retransmit {x : Side} {p : Peer} {r : Peer × Option Exc} (h : PeerOk env conf x p)
    (hr : p.handle env (conf x) .retransmit = some r) : PeerOk env conf x r.1 := by
  have hi := h.inv.handle hr
  simp only [Peer.handle, Option.map_eq_some_iff] at hr
  obtain ⟨⟨d, t⟩, ht, rfl⟩ := hr
  obtain ⟨hq, ha⟩ := Timer.fire_eq_some ht
  have hmem : ∀ y ∈ d :: t.queued, y ∈ p.timer.pending := fun y hy =>
    Timer.mem_pending.2 (.inr (hq ▸ hy))
  have ho : Peer.OwnHello (conf x) { p with timer := t } := by
    refine ⟨fun y hy => ?_, h.own.out⟩
    rw [Timer.mem_pending, ha] at hy
    rcases hy with hy | hy
    · exact h.own.timer y (Timer.mem_pending.2 (.inl hy))
    · exact h.own.timer y (hmem y (List.mem_cons_of_mem _ hy))
  exact ⟨hi, h.knows.of_eq rfl rfl rfl rfl,
    ho.sendRawWithRetransmit (h.own.timer d (hmem d List.mem_cons_self))⟩

/-- A party acts on its own. -/
theorem act_ok {x : Side} {p : Party Peer} {l : PeerAct} {r : Party Peer × List Datagram}
    (h : PeerOk env conf x p.state) (hr : (peerMachine env conf).act x p l = some r) :
    ∃ q : Peer, PeerOk env conf x q ∧ r = (⟨q.flush, p.resets⟩, Peer.rawSends q.out) := by
  cases l with
  | expire =>
    obtain ⟨q, hq, rfl⟩ := Option.map_eq_some_iff.1
      (show (p.state.handle env (conf x) .expire).map _ = some r from hr)
    exact ⟨q.1, h.expire hq, rfl⟩
  | retransmit =>
    obtain ⟨q, hq, rfl⟩ := Option.map_eq_some_iff.1
      (show (p.state.handle env (conf x) .retransmit).map _ = some r from hr)
    exact ⟨q.1, h.retransmit hq, rfl⟩
  | stream e =>
    simp only [peerMachine] at hr
    split at hr
    · rename_i he
      obtain ⟨q, hq, rfl⟩ := Option.map_eq_some_iff.1 hr
      exact ⟨q.1, h.of_same (Peer.handle_stream_same hq he), rfl⟩
    · cases hr
  | junk d priv =>
    simp only [peerMachine] at hr
    split at hr
    · rename_i hj
      cases hr
      refine ⟨_, h.recv fun hd => ?_, rfl⟩
      have hm : Msg.of d = .other := (of_decide_eq_true hj).1
      simp [Msg.of, hd] at hm
    · cases hr

/-- A party takes a step: the pair stays as it should be. -/
theorem NetOk.move {s : PeerNet} {x : Side} {q : Peer} {n : Nat} {c : Option Datagram}
    (h : NetOk env conf s) (hq : PeerOk env conf x q) :
    NetOk env conf (s.move (peerMachine env conf) x (⟨q.flush, n⟩, Peer.rawSends q.out) c) where
  peer y := by
    rcases Side.eq_or_eq_other x y with rfl | rfl
    · rw [Net.get_move_self]; exact hq.flush
    · rw [Net.get_move_other]; exact h.peer _
  out y := by
    rcases Side.eq_or_eq_other x y with rfl | rfl
    · rw [Net.get_move_self]; rfl
    · rw [Net.get_move_other]; exact h.out _
  hello p hp := by
    rcases Net.mem_move.1 hp with hp | ⟨rfl, hm, -⟩
    · exact h.hello p hp
    · exact hq.own.out _ hm

theorem NetOk.arrive {s : PeerNet} {p : Packet Datagram (Tag Datagram)} {priv : Bytes}
    (h : NetOk env conf s) (hp : Peer.HelloId (conf p.src).id p.msg) :
    NetOk env conf (s.arrive (peerMachine env conf) p priv) :=
  h.move ((h.peer _).recv (by rw [Side.other_other]; exact hp))

theorem netOk_start (env : Env) (conf : Side → Configuration) : NetOk env conf (start env conf) where
  peer x := by
    have hnew : PeerOk env conf x (Peer.new env (conf x)) :=
      ⟨Peer.inv_new _ _, ⟨fun h => (by cases h), fun h => (by cases h)⟩, Peer.ownHello_new _ _⟩
    cases x <;> exact hnew.flush
  out x := by cases x <;> rfl
  hello p hp := by
    simp only [start, List.mem_cons, List.not_mem_nil, or_false] at hp
    rcases hp with rfl | rfl <;> exact fun _ => rfl

theorem netOk_inductive (env : Env) (conf : Side → Configuration) :
    (lts env conf).Inductive (NetOk env conf) where
  init := forall_eq.2 (netOk_start env conf)
  step s l s' h hs := by
    rcases Net.lossy_cases hs with ⟨i, priv, p, rfl, -, hp, rfl⟩ | ⟨x, k, r, rfl, hr, rfl⟩
    · exact h.arrive (h.hello p hp)
    · obtain ⟨q, hq, rfl⟩ := act_ok (h.peer x) hr
      exact h.move hq

/-! ## The handshakes of the two peers -/

def viewParty (p : Party Peer) : Party Hs := ⟨p.state.view, p.resets⟩

def viewTag (t : Tag Datagram) : Tag Msg :=
  ⟨t.srcResets, t.dstResets, t.srcPhase, t.cause.map Msg.of⟩

def view (s : PeerNet) : HsNet := s.map viewParty Msg.of viewTag

/-- The step of the handshakes, if it is one. -/
def viewLabel : PeerLabel → Option HsLabel
  | .deliver i r => some (.deliver i r)
  | .consume i r => some (.consume i r)
  | .act x .expire => some (.act x .expire)
  | .act x .retransmit => some (.act x .retransmit)
  | .act x (.junk _ priv) => some (.act x (.junk priv))
  | .act _ (.stream _) => none

/-- The handshakes of the pair. -/
abbrev hs (env : Env) (conf : Side → Configuration) : Machine (Party Hs) Msg Bytes HsAct (Tag Msg) :=
  hsMachine env.ephemeralPub fun x => Peer.agreeOk env (conf x) (spubOf env conf x)

theorem view_flush (p : Peer) : p.flush.view = p.view.flush := rfl

@[simp] theorem view_get (s : PeerNet) (x : Side) : s.view.get x = viewParty (s.get x) :=
  Net.get_mapNet _ _ _ _ _

theorem msg_hello {d : Datagram} : Msg.of d = .hello ↔ d.type = .hello := by
  unfold Msg.of
  cases d.type <;> simp

theorem msg_ack {d : Datagram} (h : Msg.of d = .ack) : d.type = .ack := by
  unfold Msg.of at h
  split at h <;> simp_all

theorem msg_publicKey {d : Datagram} {k : Bytes} (h : Msg.of d = .publicKey k) :
    d.type = .publicKey ∧ d.payload = k := by
  unfold Msg.of at h
  split at h <;> simp_all

theorem msg_echoBack {d : Datagram} {c : Bytes} (h : Msg.of d = .echoBack c) :
    d.type = .echoBack ∧ d.payload = c := by
  unfold Msg.of at h
  split at h <;> simp_all

theorem resetBy_view (p : Peer) (d : Datagram) : p.view.resetBy (Msg.of d) = p.resetBy d := by
  unfold Hs.resetBy Peer.resetBy
  exact if_congr (and_congr Iff.rfl msg_hello) rfl rfl

theorem viewTag_tag (u v : Party Peer) (c : Option Datagram) :
    viewTag ((peerMachine env conf).tag u v c) =
      (hs env conf).tag (viewParty u) (viewParty v) (c.map Msg.of) := rfl

theorem view_recv {x : Side} {p : Party Peer} {d : Datagram} {priv : Bytes}
    (h : PeerOk env conf x p.state) :
    (hs env conf).recv x (viewParty p) (Msg.of d) priv =
      (viewParty ((peerMachine env conf).recv x p d priv).1,
        ((peerMachine env conf).recv x p d priv).2.map Msg.of) := by
  have hv := Peer.view_recv d priv h.inv h.knows
  simp only [hs, hsMachine, peerMachine, viewParty, ← hv, resetBy_view, view_flush]
  rfl

theorem view_arrive {s : PeerNet} {p : Packet Datagram (Tag Datagram)} {priv : Bytes}
    (h : PeerOk env conf p.src.other (s.get p.src.other).state) :
    view (s.arrive (peerMachine env conf) p priv) =
      s.view.arrive (hs env conf) ⟨p.src, Msg.of p.msg, viewTag p.tag⟩ priv :=
  Net.map_arrive viewTag_tag (view_recv h)

/-- A step of one peer on its own is the step of its handshake. -/
theorem view_act {x : Side} {p : Party Peer} {l : PeerAct} {k : HsAct}
    (h : PeerOk env conf x p.state) (hl : viewLabel (.act x l) = some (.act x k))
    (hj : ∀ d priv, l = .junk d priv → Peer.isJunk d = true) :
    (hs env conf).act x (viewParty p) k =
      ((peerMachine env conf).act x p l).map fun r => (viewParty r.1, r.2.map Msg.of) := by
  cases l with
  | expire =>
    cases hl
    have hv := Peer.view_expire env (conf x) p.state
    simp only [hs, hsMachine, peerMachine, viewParty, ← hv, Option.map_map]
    rfl
  | retransmit =>
    cases hl
    have hv := Peer.view_retransmit env (conf x) p.state
    simp only [hs, hsMachine, peerMachine, viewParty, ← hv, Option.map_map]
    rfl
  | junk d priv =>
    cases hl
    have hd : Msg.of d = .other := (of_decide_eq_true (hj d priv rfl)).1
    have hv := Peer.view_recv d priv h.inv h.knows
    rw [hd] at hv
    simp only [hs, hsMachine, peerMachine, viewParty, ← hv, hj d priv rfl, if_true, Option.map_some]
    rfl
  | stream e => cases hl

theorem view_act_stream {x : Side} {p : Party Peer} {e : Peer.Event}
    {r : Party Peer × List Datagram} (ho : p.state.out = [])
    (hr : (peerMachine env conf).act x p (.stream e) = some r) :
    viewParty r.1 = viewParty p ∧ r.2 = [] := by
  simp only [peerMachine] at hr
  split at hr
  · rename_i he
    obtain ⟨q, hq, rfl⟩ := Option.map_eq_some_iff.1 hr
    have hs := Peer.handle_stream_same hq he
    have hsend : Peer.rawSends q.1.out = [] := by rw [hs.rawSends, ho]; rfl
    refine ⟨?_, hsend⟩
    have hv : q.1.view = p.state.view := Peer.view_same hs
    simp only [viewParty, view_flush, hv]
    have hf : p.state.view.flush = p.state.view := by
      simp [Hs.flush, Peer.view, ho]
    rw [hf]
  · cases hr

/-- The steps of the handshakes and the steps of the peers are the same. -/
theorem view_step {s : PeerNet} {l : PeerLabel} {k : HsLabel} (h : NetOk env conf s)
    (hl : viewLabel l = some k)
    (hj : ∀ x d priv, l = .act x (.junk d priv) → Peer.isJunk d = true) :
    Net.step (hs env conf) s.view k = (Net.step (peerMachine env conf) s l).map view := by
  cases l with
  | deliver i priv =>
    cases hl
    simp only [Net.step, Option.map_map]
    rw [show s.view.net = s.net.map fun p => ⟨p.src, Msg.of p.msg, viewTag p.tag⟩ from rfl,
      List.getElem?_map, Option.map_map]
    exact Option.map_congr fun p _ => (view_arrive (h.peer _)).symm
  | consume i priv =>
    cases hl
    simp only [Net.step, Option.map_map]
    rw [show s.view.net = s.net.map fun p => ⟨p.src, Msg.of p.msg, viewTag p.tag⟩ from rfl,
      List.getElem?_map, Option.map_map]
    refine Option.map_congr fun p _ => ?_
    have he : view { s with net := s.net.eraseIdx i } =
        { view s with net := (view s).net.eraseIdx i } := by
      simp only [view, Net.map, List.eraseIdx_map]
    have ha : view (Net.arrive (peerMachine env conf) { s with net := s.net.eraseIdx i } p priv) = _ :=
      view_arrive (h.peer _)
    rw [he] at ha
    exact ha.symm
  | act x l =>
    have hk : ∃ k', k = .act x k' := by cases l <;> cases hl <;> exact ⟨_, rfl⟩
    obtain ⟨k, rfl⟩ := hk
    simp only [Net.step, view_get]
    rw [view_act (h.peer x) hl fun d priv he => hj x d priv (by rw [he]), Option.map_map,
      Option.map_map]
    refine Option.map_congr fun r _ => ?_
    exact (Net.map_move (c := none) (viewTag_tag _ _ _)).symm

/-- A step of the pair is a step of the handshakes, or leaves them alone. -/
theorem view_cases {s s' : PeerNet} {l : PeerLabel} (h : NetOk env conf s)
    (hs : (lts env conf).step s l s') :
    view s' = view s ∨ ∃ k, viewLabel l = some k ∧
      (HsNet.lts env.ephemeralPub fun x => Peer.agreeOk env (conf x) (spubOf env conf x)).step
        (view s) k (view s') := by
  rcases Net.lossy_cases hs with ⟨i, priv, p, rfl, hi, -, rfl⟩ | ⟨x, k, r, rfl, hr, rfl⟩
  · refine .inr ⟨.deliver i priv, rfl, ?_⟩
    refine (view_step h (l := .deliver i priv) rfl fun x d priv he => by cases he).trans ?_
    simp [Net.step, hi]
  · cases hl : viewLabel (.act x k) with
    | none =>
      cases k with
      | stream e =>
        obtain ⟨hv, hms⟩ := view_act_stream (h.out x) hr
        refine .inl ?_
        obtain ⟨q, ms⟩ := r
        obtain rfl : ms = [] := hms
        cases x <;> simpa [view, Net.move, Net.map, Two.map, Two.set, Net.get, Two.get] using hv
      | _ => cases hl
    | some k' =>
      have hj : ∀ y d priv, (.act x k : PeerLabel) = .act y (.junk d priv) →
          Peer.isJunk d = true := by
        intro y d priv he
        cases he
        simp only [peerMachine] at hr
        split at hr
        · assumption
        · cases hr
      have hk : ∃ k'', k' = .act x k'' := by cases k <;> cases hl <;> exact ⟨_, rfl⟩
      obtain ⟨k'', rfl⟩ := hk
      refine .inr ⟨.act x k'', rfl, ?_⟩
      refine (view_step h hl hj).trans ?_
      simp [Net.step, hr]

theorem view_start (env : Env) (conf : Side → Configuration) : view (start env conf) = HsNet.start :=
  rfl

/-- Runs of the pair are runs of the handshakes; a condition on the steps of the
handshakes holds of them if it holds of the steps of the pair. -/
theorem view_reachable {C : PeerNet → PeerLabel → Prop} {D : HsNet → HsLabel → Prop} {s : PeerNet}
    (hCD : ∀ s l k, NetOk env conf s → viewLabel l = some k → C s l → D (view s) k)
    (h : ((lts env conf).guard C).Reachable s) :
    ((HsNet.lts env.ephemeralPub fun x =>
      Peer.agreeOk env (conf x) (spubOf env conf x)).guard D).Reachable (view s) := by
  refine LTS.Reachable.map view (netOk_inductive env conf).of_guard (fun s hs => ?_)
    (fun s l s' hok hs => ?_) h
  · have hs' : s = start env conf := hs
    rw [hs']
    exact view_start env conf
  · rcases view_cases hok hs.1 with he | ⟨k, hk, hst⟩
    · exact .inl he
    · exact .inr ⟨k, hst, hCD s l k hok hk hs.2⟩

/-! ## Two peers of the small group -/

def smallConf : Side → Configuration
  | .a => smallConfA
  | .b => smallConfB

/-- A handshake without losses. -/
def handshakeTrace : List PeerLabel :=
  [.deliver 0 [], .deliver 1 [], .deliver 2 [7], .deliver 3 [9], .deliver 4 [], .deliver 5 [],
    .deliver 6 [], .deliver 7 [], .deliver 8 [], .deliver 9 [], .deliver 10 [], .deliver 11 []]

end PeerNet
end ShadowTalk.Sml
