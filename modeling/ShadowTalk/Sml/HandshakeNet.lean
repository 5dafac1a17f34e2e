import ShadowTalk.Core.Duplex
import ShadowTalk.Sml.Handshake

/-!
# Two handshakes over a lossy network

The machine `Hs` on both sides. A party also counts how often it was reset, and
every packet is tagged with the counts and the phase it was sent in and with the
message it answers.

* `Hs.Recv`, `Hs.recv_cases`: what a received message does, case by case.
* `HsNet.Move`, `HsNet.move_of_step`, `Move.turn`: what a step of the two parties
  does.
-/
namespace ShadowTalk.Sml
open ShadowTalk.Core

namespace Hs

/-- Both signals of the hello phase are in. -/
def HelloDone (s : Hs) : Prop := s.receivedHelloAck = true ∧ s.receivedHello = true

/-- Key and acknowledgement are in and the agreement succeeds. -/
def ExchangeDone (ok : Bytes → Bytes → Bool) (s : Hs) : Prop :=
  s.receivedPublicKey = true ∧ s.receivedPublicKeyAck = true ∧
    ∃ e q, s.epriv = some e ∧ s.peerEpub = some q ∧ ok e q = true

/-- The state of the key exchange with the private key `priv`. -/
def enterExchange (pub : Bytes → Bytes) (priv : Bytes) (s : Hs) : Hs :=
  { s with epriv := some priv, phase := .publicKeyExchange,
           timer := s.timer.asyncWait (.publicKey (pub priv)) }

def enterEcho (s : Hs) : Hs :=
  { s with phase := .echo, timer := s.timer.asyncWait (.echo Peer.echoContent) }

/-- `k` is the public value of the current ephemeral key of `s`. -/
def Current (pub : Bytes → Bytes) (s : Hs) (k : Bytes) : Prop := ∃ e, s.epriv = some e ∧ k = pub e

/-- The key that `s` has received is the current one of `t`. -/
def Holds (pub : Bytes → Bytes) (s t : Hs) : Prop := ∃ k, s.peerEpub = some k ∧ t.Current pub k

/-- Not beyond the key exchange. -/
def Early (s : Hs) : Prop := s.phase = .hello ∨ s.phase = .publicKeyExchange

/-- Beyond the key exchange. -/
def Late (s : Hs) : Prop := s.phase = .echo ∨ s.phase = .established

/-- What the hello phase takes from a message, and what it answers. -/
inductive TakeHello (s : Hs) : Msg → Hs → List Msg → Prop
  | hello : TakeHello s .hello { s with receivedHello := true } [.ack]
  | ack : TakeHello s .ack { s with receivedHelloAck := true, timer := s.timer.cancel } []

/-- What the key exchange takes from a message, and what it answers. -/
inductive TakeKey (s : Hs) : Msg → Hs → List Msg → Prop
  | key (k : Bytes) :
    TakeKey s (.publicKey k) { s with peerEpub := some k, receivedPublicKey := true } [.ack]
  | ack : TakeKey s .ack { s with receivedPublicKeyAck := true, timer := s.timer.cancel } []
  | hello : TakeKey s .hello s [.ack]
  | ignore (m : Msg) (hk : ∀ k, m ≠ .publicKey k) (ha : m ≠ .ack) (hh : m ≠ .hello) :
    TakeKey s m s []

/-- What a received message does: the new state and the messages sent. -/
inductive Recv (pub : Bytes → Bytes) (ok : Bytes → Bytes → Bool) (priv : Bytes) (s : Hs) :
    Msg → Hs → List Msg → Prop
  | helloMore {m s₁ ms} (hp : s.phase = .hello) (ht : TakeHello s m s₁ ms) (hd : ¬ s₁.HelloDone) :
    Recv pub ok priv s m s₁ ms
  | helloDone {m s₁ ms} (hp : s.phase = .hello) (ht : TakeHello s m s₁ ms) (hd : s₁.HelloDone) :
    Recv pub ok priv s m (s₁.enterExchange pub priv) (ms ++ [.publicKey (pub priv)])
  | helloIgnore {m} (hp : s.phase = .hello) (hh : m ≠ .hello) (ha : m ≠ .ack) :
    Recv pub ok priv s m s []
  | exchangeMore {m s₁ ms} (hp : s.phase = .publicKeyExchange) (ht : TakeKey s m s₁ ms)
    (hd : ¬ s₁.ExchangeDone ok) : Recv pub ok priv s m s₁ ms
  | exchangeDone {m s₁ ms} (hp : s.phase = .publicKeyExchange) (ht : TakeKey s m s₁ ms)
    (hd : s₁.ExchangeDone ok) : Recv pub ok priv s m s₁.enterEcho (ms ++ [.echo Peer.echoContent])
  | echoKey (k : Bytes) (hp : s.phase = .echo) : Recv pub ok priv s (.publicKey k) s [.ack]
  | echoBack (hp : s.phase = .echo) :
    Recv pub ok priv s (.echoBack Peer.echoContent)
      { s with phase := .established, timer := s.timer.cancel } []
  | echoIgnore {m} (hp : s.phase = .echo) (hk : ∀ k, m ≠ .publicKey k) (he : ∀ c, m ≠ .echo c)
    (hb : m ≠ .echoBack Peer.echoContent) : Recv pub ok priv s m s []
  | answer (c : Bytes) (hp : s.phase = .echo ∨ s.phase = .established) :
    Recv pub ok priv s (.echo c) s [.echoBack c]
  | reset (hp : s.phase = .established) :
    Recv pub ok priv s .hello
      { s with phase := .hello, receivedHelloAck := false, receivedHello := true,
               receivedPublicKeyAck := false, receivedPublicKey := false,
               timer := s.timer.asyncWait .hello } [.hello, .ack]
  | establishedIgnore {m} (hp : s.phase = .established) (hh : m ≠ .hello) (he : ∀ c, m ≠ .echo c) :
    Recv pub ok priv s m s []

section
variable {pub : Bytes → Bytes} {ok : Bytes → Bytes → Bool} {priv : Bytes} {s : Hs} {m : Msg}

/-- The state without its output. -/
def flush (s : Hs) : Hs := { s with out := [] }

theorem helloComplete_cases (pub : Bytes → Bytes) (priv : Bytes) (s : Hs) :
    ¬ s.HelloDone ∧ s.helloComplete pub priv = s ∨
      s.HelloDone ∧ s.helloComplete pub priv =
        { s.enterExchange pub priv with out := s.out ++ [.publicKey (pub priv)] } := by
  unfold helloComplete HelloDone
  by_cases h : (s.receivedHelloAck && s.receivedHello) = true
  · rw [if_pos h]
    exact .inr ⟨Bool.and_eq_true_iff.1 h, rfl⟩
  · rw [if_neg h]
    exact .inl ⟨fun hd => h (Bool.and_eq_true_iff.2 hd), rfl⟩

theorem exchangeComplete_cases (ok : Bytes → Bytes → Bool) (s : Hs) :
    ¬ s.ExchangeDone ok ∧ s.exchangeComplete ok = s ∨
      s.ExchangeDone ok ∧ s.exchangeComplete ok =
        { s.enterEcho with out := s.out ++ [.echo Peer.echoContent] } := by
  unfold exchangeComplete ExchangeDone
  cases he : s.epriv with
  | none => exact .inl ⟨fun ⟨_, _, e, q, h, _⟩ => by simp at h, rfl⟩
  | some e =>
    cases hq : s.peerEpub with
    | none => exact .inl ⟨fun ⟨_, _, e, q, _, h, _⟩ => by simp at h, rfl⟩
    | some q =>
      by_cases h : (s.receivedPublicKey && s.receivedPublicKeyAck && ok e q) = true
      · obtain ⟨⟨h1, h2⟩, h3⟩ : (s.receivedPublicKey = true ∧ s.receivedPublicKeyAck = true) ∧
          ok e q = true := by simpa using h
        refine .inr ⟨⟨h1, h2, e, q, rfl, rfl, h3⟩, ?_⟩
        simp only [h, if_true]
        rfl
      · refine .inl ⟨fun ⟨h1, h2, e', q', he', hq', h3⟩ => h ?_, ?_⟩
        · cases he'; cases hq'
          simp [h1, h2, h3]
        · simp only [h]; rfl

theorem flush_out {s : Hs} (h : s.out = []) (ms : List Msg) :
    ({ s with out := ms } : Hs).flush = s := by
  cases s
  simp only at h
  rw [h]
  rfl

theorem recv_helloComplete {s₁ : Hs} {ms : List Msg} (ok : Bytes → Bytes → Bool)
    (hp : s.phase = .hello) (h1 : s₁.out = []) (ht : TakeHello s m s₁ ms) :
    Recv pub ok priv s m (helloComplete pub { s₁ with out := ms } priv).flush
      (helloComplete pub { s₁ with out := ms } priv).out := by
  rcases helloComplete_cases pub priv { s₁ with out := ms } with ⟨hd, h⟩ | ⟨hd, h⟩
  · rw [h, flush_out h1]
    exact .helloMore hp ht hd
  · rw [h]
    have hf := flush_out (s := s₁.enterExchange pub priv) h1 (ms ++ [.publicKey (pub priv)])
    exact hf ▸ Recv.helloDone hp ht hd

theorem recv_exchangeComplete {s₁ : Hs} {ms : List Msg} (pub : Bytes → Bytes) (priv : Bytes)
    (hp : s.phase = .publicKeyExchange) (h1 : s₁.out = []) (ht : TakeKey s m s₁ ms) :
    Recv pub ok priv s m (exchangeComplete ok { s₁ with out := ms }).flush
      (exchangeComplete ok { s₁ with out := ms }).out := by
  rcases exchangeComplete_cases ok { s₁ with out := ms } with ⟨hd, h⟩ | ⟨hd, h⟩
  · rw [h, flush_out h1]
    exact .exchangeMore hp ht hd
  · rw [h]
    have hf := flush_out (s := s₁.enterEcho) h1 (ms ++ [.echo Peer.echoContent])
    exact hf ▸ Recv.exchangeDone hp ht hd

theorem recv_cases (pub : Bytes → Bytes) (ok : Bytes → Bytes → Bool) (priv : Bytes) {s : Hs}
    (ho : s.out = []) (m : Msg) :
    Recv pub ok priv s m (s.recv pub ok priv m).flush (s.recv pub ok priv m).out := by
  obtain ⟨phase, ha, hr, pa, pr, e, q, t, o⟩ := s
  obtain rfl : o = [] := ho
  cases phase with
  | hello =>
    cases m with
    | hello => exact recv_helloComplete ok rfl rfl .hello
    | ack => exact recv_helloComplete ok rfl rfl .ack
    | _ => exact .helloIgnore rfl (by simp) (by simp)
  | publicKeyExchange =>
    cases m with
    | publicKey k => exact recv_exchangeComplete pub priv rfl rfl (.key k)
    | ack => exact recv_exchangeComplete pub priv rfl rfl .ack
    | hello => exact recv_exchangeComplete pub priv rfl rfl .hello
    | _ => exact recv_exchangeComplete pub priv rfl rfl (.ignore _ (by simp) (by simp) (by simp))
  | echo =>
    cases m with
    | echo c => exact .answer c (.inl rfl)
    | echoBack c =>
      by_cases hc : c = Peer.echoContent
      · subst hc
        simp only [recv, recvEcho, if_true]
        exact .echoBack rfl
      · simp only [recv, recvEcho, if_neg hc]
        exact .echoIgnore rfl (by simp) (by simp) (by simpa using hc)
    | publicKey k => exact .echoKey k rfl
    | _ => exact .echoIgnore rfl (by simp) (by simp) (by simp)
  | established =>
    cases m with
    | hello => exact .reset rfl
    | echo c => exact .answer c (.inr rfl)
    | _ => exact .establishedIgnore rfl (by simp) (by simp)

theorem Recv.out_eq {s' : Hs} {ms : List Msg} (h : Recv pub ok priv s m s' ms) :
    s'.out = s.out := by
  cases h with
  | helloMore hp ht => cases ht <;> rfl
  | helloDone hp ht => cases ht <;> rfl
  | exchangeMore hp ht => cases ht <;> rfl
  | exchangeDone hp ht => cases ht <;> rfl
  | _ => rfl

/-- What a timer can come to hold: the hello, a key, or the echo. -/
def Own (pub : Bytes → Bytes) (m : Msg) : Prop :=
  m = .hello ∨ (∃ e, m = .publicKey (pub e)) ∨ m = .echo Peer.echoContent

theorem pending_cancel {t : Timer Msg} {x : Msg} (h : x ∈ t.cancel.pending) : x ∈ t.pending := by
  rw [Timer.mem_pending] at h ⊢
  exact .inr (h.resolve_left (by simp))

theorem pending_asyncWait {t : Timer Msg} {x y : Msg} (h : x ∈ (t.asyncWait y).pending) :
    x = y ∨ x ∈ t.pending := by
  rw [Timer.mem_pending] at h ⊢
  rcases h with h | h
  · exact .inl (Option.some.inj h).symm
  · exact .inr (.inr h)

theorem TakeHello.pending {s₁ : Hs} {ms : List Msg} {x : Msg} (h : s.TakeHello m s₁ ms)
    (hx : x ∈ s₁.timer.pending) : x ∈ s.timer.pending := by
  cases h with
  | hello => exact hx
  | ack => exact pending_cancel hx

theorem TakeKey.pending {s₁ : Hs} {ms : List Msg} {x : Msg} (h : s.TakeKey m s₁ ms)
    (hx : x ∈ s₁.timer.pending) : x ∈ s.timer.pending := by
  cases h with
  | ack => exact pending_cancel hx
  | _ => exact hx

/-- A message in the timer was there before, or is the hello, the key drawn now,
or the echo. -/
theorem Recv.pending {s' : Hs} {ms : List Msg} {x : Msg} (h : Recv pub ok priv s m s' ms)
    (hx : x ∈ s'.timer.pending) : x ∈ s.timer.pending ∨ Own pub x := by
  cases h with
  | helloMore hp ht => exact .inl (ht.pending hx)
  | helloDone hp ht =>
    rcases pending_asyncWait hx with rfl | hx
    · exact .inr (.inr (.inl ⟨priv, rfl⟩))
    · exact .inl (ht.pending hx)
  | exchangeMore hp ht => exact .inl (ht.pending hx)
  | exchangeDone hp ht =>
    rcases pending_asyncWait hx with rfl | hx
    · exact .inr (.inr (.inr rfl))
    · exact .inl (ht.pending hx)
  | echoBack hp => exact .inl (pending_cancel hx)
  | reset hp =>
    rcases pending_asyncWait hx with rfl | hx
    · exact .inr (.inl rfl)
    · exact .inl hx
  | _ => exact .inl hx

end
end Hs

/-! ## The network -/

/-- A party, with the number of times it was reset. -/
structure Party (σ : Type) where
  state : σ
  resets : Nat
  deriving DecidableEq, Repr

/-- When and why a packet was sent: the reset counts of both sides, the phase
of the sender after the step, and the message it answers. -/
structure Tag (μ : Type) where
  srcResets : Nat
  dstResets : Nat
  srcPhase : Handler
  cause : Option μ
  deriving DecidableEq, Repr

inductive HsAct where
  /-- the deadline of the retransmit timer passes -/
  | expire
  /-- the oldest queued retransmit handler runs -/
  | retransmit
  /-- a datagram arrives that is none of the handshake's -/
  | junk (priv : Bytes)
  deriving DecidableEq, Repr

/-- How often a message resets a handshake. -/
def Hs.resetBy (s : Hs) (m : Msg) : Nat := if s.phase = .established ∧ m = .hello then 1 else 0

def hsMachine (pub : Bytes → Bytes) (ok : Side → Bytes → Bytes → Bool) :
    Machine (Party Hs) Msg Bytes HsAct (Tag Msg) where
  recv x p m priv :=
    let s := p.state.recv pub (ok x) priv m
    (⟨s.flush, p.resets + p.state.resetBy m⟩, s.out)
  act x p
    | .expire => p.state.expire.map fun s => (⟨s.flush, p.resets⟩, s.out)
    | .retransmit => p.state.retransmit.map fun s => (⟨s.flush, p.resets⟩, s.out)
    | .junk priv =>
      let s := p.state.recv pub (ok x) priv .other
      some (⟨s.flush, p.resets⟩, s.out)
  tag p q c := ⟨p.resets, q.resets, p.state.phase, c⟩

abbrev HsNet := Net (Party Hs) Msg (Tag Msg)
abbrev HsLabel := Net.Label Bytes HsAct

/-- Both sides start at once, and both have sent a hello. -/
def HsNet.start : HsNet where
  party := ⟨⟨Hs.start.flush, 0⟩, ⟨Hs.start.flush, 0⟩⟩
  net := [⟨.a, .hello, ⟨0, 0, .hello, none⟩⟩, ⟨.b, .hello, ⟨0, 0, .hello, none⟩⟩]

namespace HsNet

variable (pub : Bytes → Bytes) (ok : Side → Bytes → Bytes → Bool)

def lts : LTS HsNet HsLabel := Net.lossy (· = HsNet.start) (hsMachine pub ok)

/-- What a step can be: the party that moves, its new state, what it sends and
the message it answers. -/
inductive Move (s : HsNet) : HsLabel → Side → Party Hs → List Msg → Option Msg → Prop
  | deliver {i : Nat} {priv : Bytes} {p : Packet Msg (Tag Msg)} {hs : Hs} {ms : List Msg}
    (hi : s.net[i]? = some p) (hp : p ∈ s.net)
    (hr : Hs.Recv pub (ok p.src.other) priv (s.get p.src.other).state p.msg hs ms) :
    Move s (.deliver i priv) p.src.other
      ⟨hs, (s.get p.src.other).resets + (s.get p.src.other).state.resetBy p.msg⟩ ms (some p.msg)
  | junk {x : Side} {priv : Bytes} {hs : Hs} {ms : List Msg}
    (hr : Hs.Recv pub (ok x) priv (s.get x).state .other hs ms) :
    Move s (.act x (.junk priv)) x ⟨hs, (s.get x).resets⟩ ms none
  | expire {x : Side} {m : Msg} (ha : (s.get x).state.timer.armed = some m) :
    Move s (.act x .expire) x
      ⟨{ (s.get x).state with timer := ⟨none, (s.get x).state.timer.queued ++ [m]⟩ },
        (s.get x).resets⟩ [] none
  | retransmit {x : Side} {m : Msg} {q : List Msg}
    (hq : (s.get x).state.timer.queued = m :: q) :
    Move s (.act x .retransmit) x
      ⟨{ (s.get x).state with timer := ⟨some m, q⟩ }, (s.get x).resets⟩ [m] none

/-- Nothing is left to be sent. -/
def Quiet (s : HsNet) : Prop := ∀ x, (s.get x).state.out = []

variable {pub ok} {s s' : HsNet} {l : HsLabel}

theorem move_of_step (hq : s.Quiet) (h : (lts pub ok).step s l s') :
    ∃ x r ms c, Move pub ok s l x r ms c ∧ s' = s.move (hsMachine pub ok) x (r, ms) c := by
  rcases Net.lossy_cases h with ⟨i, priv, p, rfl, hi, hp, rfl⟩ | ⟨x, k, r, rfl, hr, rfl⟩
  · exact ⟨_, _, _, _, .deliver hi hp (Hs.recv_cases pub _ priv (hq _) _), rfl⟩
  · cases k with
    | expire =>
      obtain ⟨t, ht, rfl⟩ := Option.map_eq_some_iff.1
        (show (s.get x).state.expire.map _ = some r from hr)
      obtain ⟨u, hu, rfl⟩ := Option.map_eq_some_iff.1
        (show ((s.get x).state.timer.expire).map _ = some t from ht)
      obtain ⟨m, ha, rfl⟩ := Timer.expire_eq_some hu
      refine ⟨x, _, [], none, .expire ha, ?_⟩
      have ho := hq x
      simp only [Hs.flush, ho]
    | retransmit =>
      obtain ⟨t, ht, rfl⟩ := Option.map_eq_some_iff.1
        (show (s.get x).state.retransmit.map _ = some r from hr)
      obtain ⟨⟨m, u⟩, hu, rfl⟩ := Option.map_eq_some_iff.1
        (show ((s.get x).state.timer.fire).map _ = some t from ht)
      obtain ⟨hqu, hau⟩ := Timer.fire_eq_some hu
      refine ⟨x, _, [m], none, .retransmit hqu, ?_⟩
      have ho := hq x
      simp only [Hs.sendWithRetransmit, Hs.put, Hs.flush, ho, List.nil_append, Timer.asyncWait]
    | junk priv =>
      cases Option.some.inj hr
      exact ⟨x, _, _, none, .junk (Hs.recv_cases pub _ priv (hq x) _), rfl⟩

theorem Move.quiet {x : Side} {r : Party Hs} {ms : List Msg} {c : Option Msg} (hq : s.Quiet)
    (h : Move pub ok s l x r ms c) : Quiet (s.move (hsMachine pub ok) x (r, ms) c) := by
  have hr : r.state.out = [] := by
    cases h with
    | deliver hi hp hr => exact hr.out_eq.trans (hq _)
    | junk hr => exact hr.out_eq.trans (hq _)
    | expire ha => exact hq _
    | retransmit ht => exact hq _
  intro y
  rcases Side.eq_or_eq_other x y with rfl | rfl
  · rw [Net.get_move_self]; exact hr
  · rw [Net.get_move_other]; exact hq _

/-- A party takes a message of the other side or a datagram that is none of the
handshake's, or only its timer changes. -/
theorem Move.turn {x : Side} {r : Party Hs} {ms : List Msg} {c : Option Msg}
    (h : Move pub ok s l x r ms c) :
    (∃ m priv, (m = .other ∧ c = none ∨ c = some m ∧ ∃ p ∈ s.net, p.src = x.other ∧ p.msg = m) ∧
      Hs.Recv pub (ok x) priv (s.get x).state m r.state ms) ∨
    ∃ t, r = ⟨{ (s.get x).state with timer := t }, (s.get x).resets⟩ ∧ c = none ∧
      (∀ y ∈ t.pending, y ∈ (s.get x).state.timer.pending) ∧
      ∀ y ∈ ms, y ∈ (s.get x).state.timer.pending := by
  cases h with
  | @deliver i priv p hs ms hi hp hr =>
    exact .inl ⟨p.msg, priv, .inr ⟨rfl, p, hp, (Side.other_other _).symm, rfl⟩, hr⟩
  | @junk x priv hs ms hr => exact .inl ⟨.other, priv, .inl ⟨rfl, rfl⟩, hr⟩
  | expire ha =>
    exact .inr ⟨_, rfl, rfl, fun y hy => (Timer.mem_pending_expire ha).1 hy, by simp⟩
  | @retransmit x m q hq =>
    refine .inr ⟨_, rfl, rfl, fun y hy => Timer.mem_pending_of_fire hq hy, fun y hy => ?_⟩
    exact Timer.mem_pending_of_fire hq (Timer.mem_pending.2 (.inl (by rw [List.mem_singleton.1 hy])))

/-- What a timer holds, whoever moves. -/
theorem Move.pending {x : Side} {r : Party Hs} {ms : List Msg} {c : Option Msg} {m : Msg}
    (h : Move pub ok s l x r ms c) (hm : m ∈ r.state.timer.pending) :
    m ∈ (s.get x).state.timer.pending ∨ Hs.Own pub m := by
  rcases h.turn with ⟨m', priv, -, hr⟩ | ⟨t, rfl, -, ht, -⟩
  · exact hr.pending hm
  · exact .inl (ht m hm)

theorem quiet_start : start.Quiet := by
  intro x
  cases x <;> rfl

end HsNet
end ShadowTalk.Sml
