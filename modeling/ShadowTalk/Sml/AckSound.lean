import ShadowTalk.Sml.PeerNet

/-!
# What an acknowledgement proves

All acknowledgements are the same datagram: a handler takes any of them as the
one it waits for.

* `AckInv`: every packet and every bit is backed by the state of the side that
  sent it; in particular an answer to a public key is backed by a received key.
* `acks_sound_of_answers`: in every run without a reset in which the key exchange
  takes only answers to public keys, the bits mean what they say.
* `acks_not_sound`: without that, the acknowledgement of a hello, delivered once
  more, counts as the acknowledgement of a public key.
-/
namespace ShadowTalk.Sml
open ShadowTalk.Core

namespace Hs

/-- A handshake that was never reset. -/
structure Sound (pub : Bytes → Bytes) (s : Hs) : Prop where
  hello : s.phase = .hello → s.epriv = none
  exchange : s.phase ≠ .hello → s.receivedHello = true
  late : s.Late → s.receivedPublicKey = true
  key : ∀ k, .publicKey k ∈ s.timer.pending → s.Current pub k
  ack : .ack ∉ s.timer.pending

/-- What a step that is no reset does to the signals of a handshake; `m` is the
message that was taken. -/
structure Signals (pub : Bytes → Bytes) (s s' : Hs) (m : Option Msg) (ms : List Msg) : Prop where
  sound : s'.Sound pub
  hello : s.receivedHello = true → s'.receivedHello = true
  key : s.receivedPublicKey = true → s'.receivedPublicKey = true
  epriv : ∀ e, s.epriv = some e → s'.epriv = some e
  helloAck : s'.receivedHelloAck = true → s.receivedHelloAck = true ∨ m = some .ack
  keyAck : s'.receivedPublicKeyAck = true →
    s.receivedPublicKeyAck = true ∨ s.phase = .publicKeyExchange ∧ m = some .ack
  peerEpub : s'.receivedPublicKey = true → s.receivedPublicKey = true ∧ s'.peerEpub = s.peerEpub ∨
    ∃ k, m = some (.publicKey k) ∧ s'.peerEpub = some k
  sentAck : .ack ∈ ms → s'.receivedHello = true ∧
    ∀ k, m = some (.publicKey k) → s'.receivedPublicKey = true
  sentKey : ∀ k, .publicKey k ∈ ms → s'.Current pub k

variable {pub : Bytes → Bytes} {ok : Bytes → Bytes → Bool} {priv : Bytes} {s s' s₁ : Hs} {m : Msg}
  {ms : List Msg}

theorem sound_start (pub : Bytes → Bytes) : start.flush.Sound pub where
  hello _ := rfl
  exchange h := absurd rfl h
  late h := by rcases h with h | h <;> cases h
  key k h := by simp [start, sendWithRetransmit, flush, Timer.pending, Timer.new] at h
  ack h := by simp [start, sendWithRetransmit, flush, Timer.pending, Timer.new] at h

/-- Nothing but the timer changes, and what is sent is no signal. -/
theorem Sound.signals_keep (h : s.Sound pub) {t : Timer Msg} {c : Option Msg}
    (ht : ∀ x ∈ t.pending, x ∈ s.timer.pending)
    (ha : .ack ∈ ms → s.receivedHello = true ∧ (∀ k, c = some (.publicKey k) →
      s.receivedPublicKey = true))
    (hk : ∀ k, .publicKey k ∈ ms → s.Current pub k) :
    Signals pub s { s with timer := t } c ms where
  sound := ⟨h.hello, h.exchange, h.late, fun k hk => h.key k (ht _ hk), fun hk => h.ack (ht _ hk)⟩
  hello := id
  key := id
  epriv _ := id
  helloAck := .inl
  keyAck := .inl
  peerEpub hr := .inl ⟨hr, rfl⟩
  sentAck := ha
  sentKey := hk

theorem Sound.takeHello (h : s.Sound pub) (ht : s.TakeHello m s₁ ms) :
    Signals pub s s₁ (some m) ms := by
  cases ht with
  | hello =>
    exact ⟨⟨h.hello, fun _ => rfl, h.late, h.key, h.ack⟩, fun _ => rfl, id, fun _ => id, .inl, .inl,
      fun hr => .inl ⟨hr, rfl⟩, fun _ => ⟨rfl, fun k hk => by cases hk⟩, by simp⟩
  | ack =>
    exact ⟨⟨h.hello, h.exchange, h.late, fun k hk => h.key k (pending_cancel hk),
        fun hk => h.ack (pending_cancel hk)⟩, id, id, fun _ => id, fun _ => .inr rfl, .inl,
      fun hr => .inl ⟨hr, rfl⟩, by simp, by simp⟩

theorem Sound.takeKey (h : s.Sound pub) (hp : s.phase = .publicKeyExchange)
    (ht : s.TakeKey m s₁ ms) : Signals pub s s₁ (some m) ms := by
  have hh : s.receivedHello = true := h.exchange (by rw [hp]; decide)
  cases ht with
  | key k =>
    exact ⟨⟨h.hello, h.exchange, fun _ => rfl, h.key, h.ack⟩, id, fun _ => rfl, fun _ => id, .inl,
      .inl, fun _ => .inr ⟨k, rfl, rfl⟩, fun _ => ⟨hh, fun _ _ => rfl⟩, by simp⟩
  | ack =>
    exact ⟨⟨h.hello, h.exchange, h.late, fun k hk => h.key k (pending_cancel hk),
        fun hk => h.ack (pending_cancel hk)⟩, id, id, fun _ => id, .inl, fun _ => .inr ⟨hp, rfl⟩,
      fun hr => .inl ⟨hr, rfl⟩, by simp, by simp⟩
  | hello =>
    exact h.signals_keep (t := s.timer) (fun _ => id) (fun _ => ⟨hh, fun k hk => by cases hk⟩)
      (by simp)
  | ignore => exact h.signals_keep (t := s.timer) (fun _ => id) (by simp) (by simp)

/-- The hello phase ends, or the key exchange does: `q` is sent with a retransmit. -/
theorem Signals.complete {c : Option Msg} {q : Msg} (h : Signals pub s s₁ c ms)
    (hsound : s'.Sound pub) (hepriv : ∀ e, s₁.epriv = some e → s'.epriv = some e)
    (hq : q ≠ .ack) (hk : ∀ k, q = .publicKey k → s'.Current pub k)
    (e1 : s'.receivedHello = s₁.receivedHello) (e2 : s'.receivedPublicKey = s₁.receivedPublicKey)
    (e3 : s'.receivedHelloAck = s₁.receivedHelloAck)
    (e4 : s'.receivedPublicKeyAck = s₁.receivedPublicKeyAck) (e5 : s'.peerEpub = s₁.peerEpub) :
    Signals pub s s' c (ms ++ [q]) where
  sound := hsound
  hello hr := e1 ▸ h.hello hr
  key hr := e2 ▸ h.key hr
  epriv e he := hepriv e (h.epriv e he)
  helloAck hr := h.helloAck (e3 ▸ hr)
  keyAck hr := h.keyAck (e4 ▸ hr)
  peerEpub hr := by rw [e5]; exact h.peerEpub (e2 ▸ hr)
  sentAck hm := by
    rw [e1, e2]
    refine h.sentAck ((List.mem_append.1 hm).resolve_right fun hm => hq ?_)
    exact (List.mem_singleton.1 hm).symm
  sentKey k hm := by
    rcases List.mem_append.1 hm with hm | hm
    · obtain ⟨e, he, rfl⟩ := h.sentKey k hm
      exact ⟨e, hepriv e he, rfl⟩
    · exact hk k (List.mem_singleton.1 hm).symm

/-- A received message that is no reset. -/
theorem Recv.signals (h : s.Sound pub) (hr : Recv pub ok priv s m s' ms)
    (hno : ¬ (s.phase = .established ∧ m = .hello)) : Signals pub s s' (some m) ms := by
  cases hr with
  | helloMore hp ht => exact h.takeHello ht
  | @helloDone m s₁ ms hp ht hd =>
    have hs := h.takeHello ht
    have hp₁ : s₁.phase = .hello := by cases ht <;> exact hp
    have hnone : s₁.epriv = none := hs.sound.hello hp₁
    refine hs.complete ⟨fun hh => (by cases hh), fun _ => hd.2, fun hl => ?_, fun k hk => ?_,
      fun hk => ?_⟩ (fun e he => by rw [hnone] at he; cases he) (by simp) (fun k hk => ?_)
      rfl rfl rfl rfl rfl
    · rcases hl with hl | hl <;> cases hl
    · rcases pending_asyncWait hk with hk | hk
      · exact ⟨priv, rfl, by cases hk; rfl⟩
      · obtain ⟨e, he, -⟩ := hs.sound.key k hk
        rw [hnone] at he; cases he
    · rcases pending_asyncWait hk with hk | hk
      · cases hk
      · exact hs.sound.ack hk
    · exact ⟨priv, rfl, by cases hk; rfl⟩
  | helloIgnore hp => exact h.signals_keep (t := s.timer) (fun _ => id) (by simp) (by simp)
  | exchangeMore hp ht => exact h.takeKey hp ht
  | @exchangeDone m s₁ ms hp ht hd =>
    have hs := h.takeKey hp ht
    have hp₁ : s₁.phase = .publicKeyExchange := by cases ht <;> exact hp
    refine hs.complete ⟨fun hh => (by cases hh), fun _ => hs.sound.exchange (by rw [hp₁]; decide),
      fun _ => hd.1, fun k hk => ?_, fun hk => ?_⟩ (fun _ => id) (by simp) (by simp)
      rfl rfl rfl rfl rfl
    · rcases pending_asyncWait hk with hk | hk
      · cases hk
      · exact hs.sound.key k hk
    · rcases pending_asyncWait hk with hk | hk
      · cases hk
      · exact hs.sound.ack hk
  | echoKey k hp =>
    refine h.signals_keep (t := s.timer) (fun _ => id) (fun _ => ?_) (by simp)
    exact ⟨h.exchange (by rw [hp]; decide), fun _ _ => h.late (.inl hp)⟩
  | echoBack hp =>
    exact ⟨⟨fun hh => (by cases hh), fun _ => h.exchange (by rw [hp]; decide),
        fun _ => h.late (.inl hp), fun k hk => h.key k (pending_cancel hk),
        fun hk => h.ack (pending_cancel hk)⟩, id, id, fun _ => id, .inl, .inl,
      fun hr => .inl ⟨hr, rfl⟩, by simp, by simp⟩
  | echoIgnore hp => exact h.signals_keep (t := s.timer) (fun _ => id) (by simp) (by simp)
  | answer c hp => exact h.signals_keep (t := s.timer) (fun _ => id) (by simp) (by simp)
  | reset hp => exact absurd ⟨hp, rfl⟩ hno
  | establishedIgnore hp => exact h.signals_keep (t := s.timer) (fun _ => id) (by simp) (by simp)

/-- A datagram that is none of the handshake's is no signal. -/
theorem Signals.of_other (h : Signals pub s s' (some .other) ms) : Signals pub s s' none ms where
  sound := h.sound
  hello := h.hello
  key := h.key
  epriv := h.epriv
  helloAck hr := .inl ((h.helloAck hr).resolve_right (by simp))
  keyAck hr := .inl ((h.keyAck hr).resolve_right (by simp))
  peerEpub hr := .inl ((h.peerEpub hr).resolve_right (by simp))
  sentAck hm := ⟨(h.sentAck hm).1, fun k hk => by cases hk⟩
  sentKey := h.sentKey

end Hs

namespace HsNet

/-- No established side takes a hello, and the key exchange takes an
acknowledgement only if it answers a public key, or if the other side has
received one. -/
def AcksAnswer (s : HsNet) : HsLabel → Prop
  | .deliver i _ => ∀ p ∈ s.net[i]?,
    ((s.get p.src.other).state.phase = .established → p.msg ≠ .hello) ∧
    ((s.get p.src.other).state.phase = .publicKeyExchange → p.msg = .ack →
      (∃ k, p.tag.cause = some (.publicKey k)) ∨ (s.get p.src).state.receivedPublicKey = true)
  | _ => True

/-- What a packet under way says about its sender. -/
structure Backed (pub : Bytes → Bytes) (s : Hs) (p : Packet Msg (Tag Msg)) : Prop where
  ack : p.msg = .ack → s.receivedHello = true
  answer : p.msg = .ack → ∀ k, p.tag.cause = some (.publicKey k) → s.receivedPublicKey = true
  key : ∀ k, p.msg = .publicKey k → s.Current pub k

/-- What the signals of `s` say about the other side `t`. -/
structure Means (pub : Bytes → Bytes) (s t : Hs) : Prop where
  helloAck : s.receivedHelloAck = true → t.receivedHello = true
  keyAck : s.receivedPublicKeyAck = true → t.receivedPublicKey = true
  key : s.receivedPublicKey = true → s.Holds pub t

structure AckInv (pub : Bytes → Bytes) (s : HsNet) : Prop where
  quiet : s.Quiet
  sound : ∀ x, (s.get x).state.Sound pub
  means : ∀ x, Means pub (s.get x).state (s.get x.other).state
  net : ∀ p ∈ s.net, Backed pub (s.get p.src).state p

variable {pub : Bytes → Bytes} {ok : Side → Bytes → Bytes → Bool} {s s' : HsNet} {l : HsLabel}
  {x : Side} {r : Party Hs} {ms : List Msg} {c : Option Msg}

theorem current_mono {s s' : Hs} {k : Bytes} (h : ∀ e, s.epriv = some e → s'.epriv = some e)
    (hc : s.Current pub k) : s'.Current pub k := by
  obtain ⟨e, he, hk⟩ := hc
  exact ⟨e, h e he, hk⟩

theorem ackInv_start (pub : Bytes → Bytes) : AckInv pub start where
  quiet := quiet_start
  sound x := by cases x <;> exact Hs.sound_start pub
  means x := by
    cases x <;> exact ⟨fun h => (by cases h), fun h => (by cases h), fun h => (by cases h)⟩
  net p hp := by
    simp only [start, List.mem_cons, List.not_mem_nil, or_false] at hp
    rcases hp with rfl | rfl <;>
      exact ⟨fun h => (by cases h), fun h => (by cases h), fun k h => (by cases h)⟩

/-- What the signals that a side takes are backed by. -/
theorem AckInv.signals (h : AckInv pub s) (hm : Move pub ok s l x r ms c)
    (hg : AcksAnswer s l) : Hs.Signals pub (s.get x).state r.state c ms ∧
      (c = some .ack → (s.get x.other).state.receivedHello = true ∧
        ((s.get x).state.phase = .publicKeyExchange →
          (s.get x.other).state.receivedPublicKey = true)) ∧
      ∀ k, c = some (.publicKey k) → (s.get x.other).state.Current pub k := by
  cases hm with
  | @deliver i priv p hs ms hi hp hr =>
    obtain ⟨hreset, hack⟩ := hg p hi
    have hb := h.net p hp
    refine ⟨hr.signals (h.sound _) fun hno => hreset hno.1 hno.2, fun ha => ?_, fun k hk => ?_⟩
    · rw [Side.other_other]
      have ha : p.msg = .ack := Option.some.inj ha
      exact ⟨hb.ack ha, fun hph => (hack hph ha).elim (fun ⟨k, hk⟩ => hb.answer ha k hk) id⟩
    · rw [Side.other_other]
      exact hb.key k (Option.some.inj hk)
  | junk hr =>
    exact ⟨(hr.signals (h.sound _) (by simp)).of_other, by simp, by simp⟩
  | expire ha =>
    exact ⟨(h.sound _).signals_keep (fun y hy => (Timer.mem_pending_expire ha).1 hy) (by simp)
      (by simp), by simp, by simp⟩
  | @retransmit x m q hq =>
    have hmem : m ∈ (s.get x).state.timer.pending :=
      Timer.mem_pending_of_fire hq (Timer.mem_pending.2 (.inl rfl))
    refine ⟨(h.sound _).signals_keep (fun y hy => Timer.mem_pending_of_fire hq hy) (fun ha => ?_)
      (fun k hk => ?_), by simp, by simp⟩
    · rw [← List.mem_singleton.1 ha] at hmem
      exact absurd hmem (h.sound x).ack
    · rw [← List.mem_singleton.1 hk] at hmem
      exact (h.sound x).key k hmem

theorem AckInv.move (h : AckInv pub s) (hm : Move pub ok s l x r ms c) (hg : AcksAnswer s l) :
    AckInv pub (s.move (hsMachine pub ok) x (r, ms) c) := by
  obtain ⟨hs, hack, hkey⟩ := h.signals hm hg
  have hx := h.means x
  have hy := h.means x.other
  rw [Side.other_other] at hy
  refine ⟨hm.quiet h.quiet, fun y => ?_, fun y => ?_, fun p hp => ?_⟩
  · rcases Side.eq_or_eq_other x y with rfl | rfl
    · rw [Net.get_move_self]; exact hs.sound
    · rw [Net.get_move_other]; exact h.sound _
  · rcases Side.eq_or_eq_other x y with rfl | rfl
    · rw [Net.get_move_self, Net.get_move_other]
      refine ⟨fun hr => ?_, fun hr => ?_, fun hr => ?_⟩
      · exact (hs.helloAck hr).elim hx.helloAck fun hc => (hack hc).1
      · exact (hs.keyAck hr).elim hx.keyAck fun ⟨hp, hc⟩ => (hack hc).2 hp
      · rcases hs.peerEpub hr with ⟨hr, he⟩ | ⟨k, hc, he⟩
        · obtain ⟨k, hk, hcur⟩ := hx.key hr
          exact ⟨k, he.trans hk, hcur⟩
        · exact ⟨k, he, hkey k hc⟩
    · rw [Side.other_other, Net.get_move_self, Net.get_move_other]
      refine ⟨fun hr => hs.hello (hy.helloAck hr), fun hr => hs.key (hy.keyAck hr), fun hr => ?_⟩
      obtain ⟨k, hk, hcur⟩ := hy.key hr
      exact ⟨k, hk, current_mono hs.epriv hcur⟩
  · rcases Net.mem_move.1 hp with hp | ⟨rfl, hms, ht⟩
    · have hb := h.net p hp
      rcases Side.eq_or_eq_other x p.src with he | he
      · rw [he, Net.get_move_self]
        rw [he] at hb
        exact ⟨fun hm => hs.hello (hb.ack hm), fun hm k hk => hs.key (hb.answer hm k hk),
          fun k hk => current_mono hs.epriv (hb.key k hk)⟩
      · rw [he, Net.get_move_other]
        rw [he] at hb
        exact hb
    · rw [Net.get_move_self]
      refine ⟨fun hm => (hs.sentAck (hm ▸ hms)).1, fun hm k hk => ?_, fun k hk =>
        hs.sentKey k (hk ▸ hms)⟩
      rw [ht] at hk
      exact (hs.sentAck (hm ▸ hms)).2 k hk

theorem ackInv_inductive (pub : Bytes → Bytes) (ok : Side → Bytes → Bytes → Bool) :
    ((lts pub ok).guard AcksAnswer).Inductive (AckInv pub) where
  init := forall_eq.2 (ackInv_start pub)
  step s l s' h hs := by
    obtain ⟨x, r, ms, c, hm, rfl⟩ := move_of_step h.quiet hs.1
    exact h.move hm hs.2

end HsNet

/-! ## The two peers -/

namespace PeerNet

/-- No established peer takes a hello, and the key exchange takes an
acknowledgement only if it answers a public key, or if the other side has
received one. -/
def AcksAnswer (s : PeerNet) : PeerLabel → Prop
  | .deliver i _ => ∀ p ∈ s.net[i]?,
    ((s.get p.src.other).state.datagramHandler = .established → p.msg.type ≠ .hello) ∧
    ((s.get p.src.other).state.datagramHandler = .publicKeyExchange → p.msg.type = .ack →
      (∃ d, p.tag.cause = some d ∧ d.type = .publicKey) ∨
        (s.get p.src).state.currentState.receivedPublicKey = true)
  | _ => True

instance (o : Option Datagram) (t : MsgType) : Decidable (∃ d, o = some d ∧ d.type = t) :=
  match o with
  | none => .isFalse fun ⟨_, h, _⟩ => by cases h
  | some d => decidable_of_iff (d.type = t) ⟨fun h => ⟨d, rfl, h⟩, fun ⟨_, h, h'⟩ => by cases h; exact h'⟩

instance (s : PeerNet) (l : PeerLabel) : Decidable (AcksAnswer s l) :=
  match l with
  | .deliver _ _ => inferInstanceAs (Decidable (∀ _ ∈ _, _ ∧ _))
  | .consume _ _ => .isTrue trivial
  | .act _ _ => .isTrue trivial

variable {env : Env} {conf : Side → Configuration} {s : PeerNet}

theorem acksAnswer_view {l : PeerLabel} {k : HsLabel} (hl : viewLabel l = some k)
    (hf : AcksAnswer s l) : HsNet.AcksAnswer (view s) k := by
  cases l with
  | deliver i priv =>
    cases hl
    intro q hq
    rw [show (view s).net = s.net.map fun p => ⟨p.src, Msg.of p.msg, viewTag p.tag⟩ from rfl,
      List.getElem?_map, Option.mem_def, Option.map_eq_some_iff] at hq
    obtain ⟨p, hp, rfl⟩ := hq
    obtain ⟨h1, h2⟩ := hf p hp
    simp only [view_get]
    refine ⟨fun hph hm => ?_, fun hph hm => ?_⟩
    · exact h1 hph (msg_hello.1 hm)
    · refine (h2 hph (msg_ack hm)).imp (fun ⟨d, hd, ht⟩ => ⟨d.payload, ?_⟩) id
      show p.tag.cause.map Msg.of = _
      rw [hd, Option.map_some, Msg.of, ht]
  | consume i priv => cases hl; trivial
  | act x l => cases l <;> cases hl <;> trivial

/-- In every run without a reset whose key exchanges take only answers to public
keys, a peer that has an acknowledgement was heard: the other side has processed
its hello, or holds its current ephemeral key. -/
theorem acks_sound_of_answers (h : ((lts env conf).guard AcksAnswer).Reachable s) (x : Side) :
    ((s.get x).state.currentState.receivedHelloAck = true →
      (s.get x.other).state.currentState.receivedHello = true) ∧
    ((s.get x).state.currentState.receivedPublicKeyAck = true →
      (s.get x.other).state.currentState.receivedPublicKey = true ∧
        ∃ e, (s.get x).state.dh.epriv = some e ∧
          (s.get x.other).state.dh.peerEpub = some (env.ephemeralPub e)) := by
  have hi := (HsNet.ackInv_inductive _ _).reachable
    (view_reachable (fun s l k _ hl hf => acksAnswer_view hl hf) h)
  have hx := hi.means x
  have hy := hi.means x.other
  rw [Side.other_other] at hy
  rw [view_get, view_get] at hx hy
  refine ⟨hx.helloAck, fun ha => ?_⟩
  have hr := hx.keyAck ha
  obtain ⟨k, hk, e, he, rfl⟩ := hy.key hr
  exact ⟨hr, e, he, hk⟩

theorem acks_sound_handshakeTrace : ∃ s : PeerNet,
    (s.get .a).state.currentState.receivedPublicKeyAck = true ∧
      (s.get .b).state.currentState.receivedPublicKey = true := by
  have hrun : ∃ s, ((lts smallEnv smallConf).guard AcksAnswer).Reachable s ∧
      (s.get .a).state.currentState.receivedPublicKeyAck = true :=
    LTS.exists_reachable_of_execGuard handshakeTrace rfl (by decide +kernel)
  obtain ⟨s, hr, ha⟩ := hrun
  exact ⟨s, ha, ((acks_sound_of_answers hr .a).2 ha).1⟩

/-- Counterexample: `a` ends its hello phase, and the acknowledgement of its hello
arrives once more. -/
theorem acks_not_sound : ∃ s : PeerNet, (lts smallEnv smallConf).Reachable s ∧
    (s.get .a).state.currentState.receivedPublicKeyAck = true ∧
      (s.get .b).state.currentState.receivedPublicKey = false ∧
        (s.get .b).state.dh.peerEpub = none :=
  LTS.exists_reachable_of_exec [.deliver 0 [], .deliver 1 [], .deliver 2 [7], .deliver 2 []] rfl
    (by decide +kernel)

end PeerNet
end ShadowTalk.Sml
