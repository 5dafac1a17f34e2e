import ShadowTalk.Sml.OneSession
import ShadowTalk.Sml.StreamHalves
import ShadowTalk.Sml.StreamNet

/-!
# Two clients and the bytes between them

Two peers with all of their streams, and the bytes they put on the wire: datagrams of the
handshake as they are, datagrams of streams encrypted. Whatever was sent may arrive any
number of times, in any order, at any later time, or never.

* `Clean`: the runs of one session in which every `send` is made on an acknowledged stream.
* `Peer.Raws.turn`, `Peer.Raws.handle`: what goes out unencrypted is a small datagram of the
  handshake.
-/
namespace ShadowTalk.Sml
open ShadowTalk.Core

/-- What `encrypt` draws. -/
abbrev Iv := { v : Bytes // v.length = blockSize }

/-- The bytes that an effect puts on the wire.
mirrors client/sml/peer.cpp:272-292 -/
def PeerEff.wire (env : Env) (iv : Iv) : PeerEff → Option Bytes
  | .send d => (d.toBytes env.endian).toOption
  | .sendEncrypted (some key) d => ((d.encryptPayload env key iv).toBytes env.endian).toOption
  | _ => none

/-- What the effects put on the wire; `iv n` is drawn for the `n`th of them. -/
def wires (env : Env) (iv : Nat → Iv) (es : List PeerEff) : List Bytes :=
  es.zipIdx.filterMap fun e => e.1.wire env (iv e.2)

structure Tunnel where
  peer : Two Peer
  /-- everything that was sent, and by whom -/
  wire : List (Side × Bytes)
  /-- the calls of `stream::send` -/
  sent : Two (List (UInt32 × Bytes))
  /-- what was put into `output_ring` -/
  ring : Two (List PeerEff)

namespace Tunnel

inductive Label where
  /-- a copy of datagram number `i` arrives; `priv` is the private key drawn if one is -/
  | recv (i : Nat) (priv : Bytes) (iv : Nat → Iv)
  /-- a timer of `x`, or a call -/
  | act (x : Side) (e : Peer.Event) (iv : Nat → Iv)

section
variable (env : Env) (conf : Side → Configuration)

/-- The peer of `x` has become `q`. -/
def put (s : Tunnel) (x : Side) (iv : Nat → Iv) (q : Peer) : Tunnel where
  peer := s.peer.set x q.flush
  wire := s.wire ++ (wires env iv q.out).map (x, ·)
  sent := s.sent
  ring := s.ring.set x (s.ring.get x ++ Peer.ringPuts q.out)

/-- What does not parse throws before the peer sees it.
mirrors client/sml/peer.cpp:71-76 -/
def feed (s : Tunnel) (x : Side) (r : Except Exc Datagram) (priv : Bytes) (iv : Nat → Iv) :
    Tunnel :=
  match r with
  | .error _ => s
  | .ok d => s.put env x iv ((s.peer.get x).recv env (conf x) d priv).1

/-- The first 1500 bytes are in the buffer when `feed` is called.
mirrors client/sml/udp_layer.cpp:33-54 -/
def recv (s : Tunnel) (x : Side) (bytes priv : Bytes) (iv : Nat → Iv) : Tunnel :=
  s.feed env conf x (Datagram.parse env.endian (bytes.take bufferSize)) priv iv

/-- The record of a call of `send`. -/
def call (s : Tunnel) (x : Side) : Peer.Event → Tunnel
  | .send id data => { s with sent := s.sent.set x (s.sent.get x ++ [(id, data)]) }
  | _ => s

def step (s : Tunnel) : Label → Option Tunnel
  | .recv i priv iv => s.wire[i]?.map fun w => s.recv env conf w.1.other w.2 priv iv
  | .act x e iv =>
    match e with
    | .recv _ _ => none
    | e => ((s.peer.get x).handle env (conf x) e).map fun r => (s.call x e).put env x iv r.1

end

def noIv : Iv := ⟨List.replicate blockSize 0, by decide⟩

/-- Both constructors have run. -/
def start (env : Env) (conf : Side → Configuration) : Tunnel where
  peer := ⟨(Peer.new env (conf .a)).flush, (Peer.new env (conf .b)).flush⟩
  wire := (wires env (fun _ => noIv) (Peer.new env (conf .a)).out).map (.a, ·) ++
    (wires env (fun _ => noIv) (Peer.new env (conf .b)).out).map (.b, ·)
  sent := ⟨[], []⟩
  ring := ⟨[], []⟩

def lts (env : Env) (conf : Side → Configuration) : LTS Tunnel Label :=
  .ofFn (· = start env conf) (step env conf)

/-- What `x` has sent on stream `id`. -/
def sentOn (s : Tunnel) (x : Side) (id : UInt32) : List Bytes :=
  (s.sent.get x).filterMap fun c => if c.1 = id then some c.2 else none

/-- What was delivered at `x` from stream `id`. -/
def delivered (s : Tunnel) (x : Side) (id : UInt32) : List Bytes := Peer.payloads id (s.ring.get x)

/-- One session, and every `send` on an acknowledged stream: no hello reaches an established
peer, no stream is deleted, and whoever sends has the earlier bytes acknowledged, with
fewer than 2^32 in all. -/
def Clean (env : Env) (s : Tunnel) : Label → Prop
  | .recv i _ _ => ∀ w ∈ s.wire[i]?, ∀ d ∈ (Datagram.parse env.endian (w.2.take bufferSize)).toOption,
      d.type = .hello → (s.peer.get w.1.other).datagramHandler ≠ .established
  | .act x e _ =>
    match e with
    | .send id data => ((s.sentOn x id).flatten ++ data).length < 2 ^ 32 ∧ (data = [] ∨
        ((s.peer.get x).stream id).sendDatagramQueue = .empty ∧
          ((s.peer.get x).stream id).sendOffset.toNat = (s.sentOn x id).flatten.length)
    | .delStream _ => False
    | _ => True

instance decidableClean (env : Env) (s : Tunnel) (l : Label) : Decidable (Clean env s l) :=
  match l with
  | .recv _ _ _ => inferInstanceAs (Decidable (∀ _ ∈ _, ∀ _ ∈ _, _ → _))
  | .act _ e _ =>
    match e with
    | .send _ _ => inferInstanceAs (Decidable (_ ∧ _))
    | .delStream _ => .isFalse id
    | .recv _ _ | .expire | .retransmit | .addStream _ | .streamExpire _ | .streamRetransmit _ =>
      .isTrue trivial

end Tunnel

/-! ## What goes out unencrypted -/

/-- A datagram of the handshake that fits the receive buffer. -/
structure Raw (d : Datagram) : Prop where
  type : d.type = .hello ∨ d.type = .ack ∨ d.type = .publicKey ∨ d.type = .echo ∨
    d.type = .echoBack
  le : d.payload.length ≤ 1487

/-- The id of the host and its public keys fit a datagram. -/
structure Fits (env : Env) (conf : Configuration) : Prop where
  id : conf.id.length ≤ 1487
  publicKey : ∀ e, (env.ephemeralPub e).length ≤ 1487

namespace Peer

variable {env : Env} {conf : Configuration} {p q : Peer} {d : Datagram} {priv : Bytes}

/-- What `p` has sent unencrypted, or may send again, are such datagrams. -/
structure Raws (p : Peer) : Prop where
  timer : ∀ d ∈ p.timer.pending, Raw d
  out : ∀ d ∈ rawSends p.out, Raw d

theorem Raws.of_eq (h : Raws p) (ht : q.timer = p.timer) (ho : rawSends q.out = rawSends p.out) :
    Raws q := ⟨by rw [ht]; exact h.timer, by rw [ho]; exact h.out⟩

theorem Raws.cancel (h : Raws p) (ht : q.timer = p.timer.cancel)
    (ho : rawSends q.out = rawSends p.out) : Raws q := by
  refine ⟨fun x hx => h.timer x ?_, by rw [ho]; exact h.out⟩
  rw [ht, Timer.mem_pending] at hx
  exact Timer.mem_pending.2 (.inr (hx.resolve_left (by simp)))

theorem Raws.sendRaw (h : Raws p) (hd : Raw d) : Raws (p.sendRawDatagram d) := by
  refine ⟨h.timer, fun x hx => ?_⟩
  simp only [sendRawDatagram, put, rawSends_append, rawSends_send, rawSends_nil, List.mem_append,
    List.mem_singleton] at hx
  rcases hx with hx | rfl
  · exact h.out x hx
  · exact hd

theorem Raws.sendRawWithRetransmit (h : Raws p) (hd : Raw d) :
    Raws (p.sendRawDatagramWithRetransmit d) := by
  have hc : Raws { p with timer := p.timer.cancel } := h.cancel rfl rfl
  refine ⟨fun x hx => ?_, (hc.sendRaw hd).out⟩
  rw [Timer.mem_pending] at hx
  rcases hx with hx | hx
  · rw [← Option.some.inj hx]
    exact hd
  · exact h.timer x (Timer.mem_pending.2 (.inr hx))

theorem raw_hello (hf : Fits env conf) : Raw (.createHello conf.id) := ⟨.inl rfl, hf.id⟩

theorem raw_ack : Raw (.createAck 0 0) := ⟨.inr (.inl rfl), Nat.zero_le _⟩

theorem raw_publicKey (hf : Fits env conf) (e : Bytes) : Raw (.createPublicKey (env.ephemeralPub e)) :=
  ⟨.inr (.inr (.inl rfl)), hf.publicKey e⟩

theorem raw_echo : Raw (.createEcho echoContent) :=
  ⟨.inr (.inr (.inr (.inl rfl))), by decide⟩

theorem raws_new (hf : Fits env conf) : Raws (new env conf) := by
  have : Raws (sendRawDatagramWithRetransmit _ (.createHello conf.id)) :=
    Raws.sendRawWithRetransmit (p := {
      currentState := .initial, datagramHandler := .hello, timer := .new
      dh := DhKeyAgreement.new.setStaticKeyPairs (env.hexStrToBytes conf.privateKey)
        (env.hexStrToBytes conf.publicKey)
      id := [], peerSpub := [], sentEchoDatagram := none, key := none, encryptLayer := none
      streamMap := .empty, out := [] })
      ⟨List.forall_mem_nil _, List.forall_mem_nil _⟩ (raw_hello hf)
  exact this.of_eq rfl rfl

theorem Raws.sendAck (h : Raws p) : Raws p.sendAck := h.sendRaw raw_ack

theorem Raws.helloTake (h : Raws p) (ht : HelloTake env conf p d q) : Raws q := by
  cases ht with
  | hello ht => exact Raws.sendAck (h.of_eq rfl rfl)
  | ack ht => exact h.cancel rfl rfl

theorem Raws.keyTake (h : Raws p) (ht : KeyTake p d q) : Raws q := by
  cases ht with
  | key ht => exact Raws.sendAck (h.of_eq rfl rfl)
  | ack ht => exact h.cancel rfl rfl
  | hello ht => exact h.sendAck
  | ignore => exact h

theorem Raws.turn {r : Peer × Option Exc} (hf : Fits env conf) (h : Raws p)
    (hd : d.type = .echo → Raw d) (ht : Turn env conf p d priv r) : Raws r.1 := by
  cases ht with
  | hello hp ht hn => exact h.helloTake ht
  | @helloDone q hp ht hc =>
    have hq : Raws { q with dh := q.dh.generateEphemeralKeyPairs env priv } :=
      (h.helloTake ht).of_eq rfl rfl
    exact (hq.sendRawWithRetransmit (raw_publicKey hf priv)).of_eq rfl rfl
  | key hp ht hn => exact h.keyTake ht
  | keyFailed hp ht hc shared key hx => exact (h.keyTake ht).of_eq rfl (by simp [agreeing, put])
  | @keyDone q hp ht hc v k =>
    have hq : Raws { q with sentEchoDatagram := some (.createEcho echoContent) } :=
      (h.keyTake ht).of_eq rfl rfl
    refine (hq.sendRawWithRetransmit raw_echo).of_eq rfl ?_
    simp [Peer.keyed, agreeing, sendEcho, sendRawDatagramWithRetransmit, sendRawDatagram, put]
  | echoDone hp ht hc => exact h.cancel rfl (by simp [finish, put])
  | reset hp ht =>
    have hq : Raws ({ p.reset env conf with
        currentState := { Bits.initial with receivedHello := true } } : Peer) := h.cancel rfl rfl
    have hs : Raws (Peer.sendHello conf { p.reset env conf with
        currentState := { Bits.initial with receivedHello := true } }) :=
      (hq.sendRawWithRetransmit (raw_hello hf)).of_eq rfl rfl
    exact Raws.sendAck (hs.of_eq rfl rfl)
  | answer hp ht =>
    exact h.sendRaw ⟨.inr (.inr (.inr (.inr rfl))), (hd ht).le⟩
  | keyAgain hp ht => exact h.sendAck
  | abort hp ht => exact h.of_eq rfl (by simp [put])
  | feed hp ht payload =>
    have hs := feedStream_same p { d with payload := payload }
    exact h.of_eq hs.timer hs.rawSends
  | undecryptable hp ht => exact h
  | ignore hp he => exact h

theorem Raws.handle {e : Event} {r : Peer × Option Exc} (h : Raws p)
    (he : ∀ d priv, e ≠ .recv d priv) (hr : p.handle env conf e = some r) : Raws r.1 := by
  cases hs : e.isStream with
  | true =>
    have hsame := handle_stream_same hr hs
    exact h.of_eq hsame.timer hsame.rawSends
  | false =>
    cases e with
    | recv d priv => exact absurd rfl (he d priv)
    | expire =>
      obtain ⟨t, ht, rfl⟩ := Option.map_eq_some_iff.1 hr
      obtain ⟨m, ha, rfl⟩ := Timer.expire_eq_some ht
      exact ⟨fun y hy => h.timer y ((Timer.mem_pending_expire ha).1 hy), h.out⟩
    | retransmit =>
      obtain ⟨⟨m, t⟩, ht, rfl⟩ := Option.map_eq_some_iff.1 hr
      obtain ⟨hq, ha⟩ := Timer.fire_eq_some ht
      have hmem : ∀ y ∈ m :: t.queued, y ∈ p.timer.pending := fun y hy =>
        Timer.mem_pending.2 (.inr (hq ▸ hy))
      have hp : Raws { p with timer := t } := by
        refine ⟨fun y hy => ?_, h.out⟩
        rcases Timer.mem_pending.1 hy with hy | hy
        · exact h.timer y (Timer.mem_pending.2 (.inl (ha ▸ hy)))
        · exact h.timer y (hmem y (List.mem_cons_of_mem _ hy))
      exact hp.sendRawWithRetransmit (h.timer m (hmem m List.mem_cons_self))
    | _ => cases hs

theorem Raws.flush (h : Raws p) : Raws p.flush := ⟨h.timer, List.forall_mem_nil _⟩

end Peer
end ShadowTalk.Sml
