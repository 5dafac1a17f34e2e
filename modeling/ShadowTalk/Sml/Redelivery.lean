import ShadowTalk.Sml.PeerNet
import ShadowTalk.Sml.Turn

/-!
# Established peers and old datagrams

An established peer, and a network that still holds everything the two have sent.

* `established_stable`: nothing but a hello takes an established peer out of that
  state, and its key and its streams stay; a hello resets it.
* `established_reset`: the hello of the finished handshake is enough.
-/
namespace ShadowTalk.Sml
open ShadowTalk.Core

namespace Peer

variable {env : Env} {conf : Configuration} {p q : Peer} {d : Datagram}

def HasStream (p : Peer) (i : UInt32) : Prop := (p.streamMap.find? i).isSome = true

/-- The session of `p` goes on in `q`. -/
structure Session (p q : Peer) : Prop where
  handler : q.datagramHandler = p.datagramHandler
  key : q.key = p.key
  encryptLayer : q.encryptLayer = p.encryptLayer

theorem Session.refl (p : Peer) : Session p p := ⟨rfl, rfl, rfl⟩

theorem Session.trans {r : Peer} (h : Session p q) (h' : Session q r) : Session p r :=
  ⟨h'.handler.trans h.handler, h'.key.trans h.key, h'.encryptLayer.trans h.encryptLayer⟩

theorem SameHandshake.session (h : SameHandshake p q) : Session p q :=
  ⟨h.datagramHandler, h.key, h.encryptLayer⟩

/-- The steps of the retransmit timer. -/
def Event.isTimer : Event → Bool
  | .expire | .retransmit => true
  | _ => false

/-! ## Streams stay -/

theorem streamEff_streamMap (p : Peer) (id : UInt32) (e : StreamEff) :
    (p.streamEff id e).streamMap = p.streamMap := by
  cases e with
  | recvData payload => rfl
  | sendDatagram d =>
    show (p.sendDatagram d).streamMap = _
    unfold sendDatagram
    split <;> rfl

theorem putStream_streamMap (p : Peer) (id : UInt32) (r : Stream × List StreamEff) :
    (p.putStream id r).streamMap = p.streamMap.set id r.1 := by
  unfold putStream
  generalize hq : ({ p with streamMap := p.streamMap.set id r.1 } : Peer) = q
  have h : q.streamMap = p.streamMap.set id r.1 := by rw [← hq]
  clear hq
  induction r.2 generalizing q with
  | nil => exact h
  | cons e es ih => exact ih _ ((streamEff_streamMap q id e).trans h)

theorem HasStream.set {i k : UInt32} {s : Stream} (h : HasStream p i)
    (hq : q.streamMap = p.streamMap.set k s) : HasStream q i := by
  unfold HasStream
  rw [hq]
  by_cases hk : i = k
  · rw [hk, OMap.find?_set_self]
    rfl
  · rw [OMap.find?_set_ne _ _ hk]
    exact h

theorem HasStream.putStream {i : UInt32} (h : HasStream p i) (id : UInt32)
    (r : Stream × List StreamEff) : HasStream (p.putStream id r) i :=
  h.set (putStream_streamMap p id r)

theorem HasStream.insert {i k : UInt32} {s : Stream} (h : HasStream p i)
    (hq : q.streamMap = p.streamMap.insert k s) : HasStream q i := by
  unfold HasStream
  rw [hq]
  by_cases hk : i = k
  · rw [hk, OMap.find?_insert_self]
    rfl
  · rw [OMap.find?_insert_ne _ _ hk]
    exact h

theorem HasStream.feedStream {i : UInt32} (h : HasStream p i) (d : Datagram) :
    HasStream (p.feedStream d) i := by
  apply feedStream_induct (P := fun q => HasStream q i) d h
  · exact h.insert (k := d.id) (s := .new d.id) rfl
  · intro q r hq
    exact hq.putStream _ _

/-- Of the calls, only `del_stream` takes a stream away. -/
theorem HasStream.stream {i : UInt32} {e : Event} {r : Peer × Option Exc} (h : HasStream p i)
    (hr : p.handle env conf e = some r) (he : e.isStream = true) (hd : e ≠ .delStream i) :
    HasStream r.1 i := by
  cases e with
  | recv d priv => cases he
  | expire => cases he
  | retransmit => cases he
  | addStream id =>
    simp only [handle, Option.some.injEq] at hr
    subst hr
    unfold addStream
    split
    · exact h
    · exact h.insert (k := id) (s := .new id) rfl
  | delStream id =>
    simp only [handle, Option.some.injEq] at hr
    subst hr
    have hne : i ≠ id := fun he => hd (by rw [he])
    unfold HasStream
    rw [show (p.delStream id).streamMap = p.streamMap.erase id from rfl, OMap.find?_erase_ne _ hne]
    exact h
  | send id data =>
    simp only [handle, Option.map_eq_some_iff] at hr
    obtain ⟨s, -, rfl⟩ := hr
    exact h.putStream _ _
  | streamExpire id =>
    simp only [handle, Option.bind_eq_some_iff, Option.map_eq_some_iff] at hr
    obtain ⟨s, -, t, -, rfl⟩ := hr
    exact h.set (k := id) (s := t) rfl
  | streamRetransmit id =>
    simp only [handle, Option.bind_eq_some_iff, Option.map_eq_some_iff] at hr
    obtain ⟨s, -, t, -, rfl⟩ := hr
    exact h.putStream _ _

/-! ## Received datagrams -/

/-- What an established peer receives, other than a hello, does not end its
session. -/
theorem Turn.session {r : Peer × Option Exc} {priv : Bytes} (h : Turn env conf p d priv r)
    (hp : p.datagramHandler = .established) (hd : d.type ≠ .hello) :
    Session p r.1 ∧ ∀ i, HasStream p i → HasStream r.1 i := by
  have no : ∀ {ph : Handler}, p.datagramHandler = ph → ph ≠ .established → False := by
    intro ph h hne
    exact hne (h.symm.trans hp)
  cases h with
  | hello hp' => exact (no hp' (by decide)).elim
  | helloDone hp' => exact (no hp' (by decide)).elim
  | key hp' => exact (no hp' (by decide)).elim
  | keyFailed hp' => exact (no hp' (by decide)).elim
  | keyDone hp' => exact (no hp' (by decide)).elim
  | echoDone hp' => exact (no hp' (by decide)).elim
  | reset hp' ht => exact absurd ht hd
  | answer hp' ht => exact ⟨⟨rfl, rfl, rfl⟩, fun _ h => h⟩
  | keyAgain hp' => exact (no hp' (by decide)).elim
  | abort hp' ht => exact ⟨⟨rfl, rfl, rfl⟩, fun _ h => h⟩
  | feed hp' ht payload => exact ⟨(feedStream_same _ _).session, fun _ h => h.feedStream _⟩
  | undecryptable hp' ht => exact ⟨.refl p, fun _ h => h⟩
  | ignore hp' he => exact ⟨.refl p, fun _ h => h⟩

/-- The handlers of the timer touch neither the key nor the streams. -/
theorem timer_session {e : Event} {r : Peer × Option Exc} (hr : p.handle env conf e = some r)
    (he : e.isTimer = true) : Session p r.1 ∧ ∀ i, HasStream p i → HasStream r.1 i := by
  cases e with
  | expire =>
    simp only [handle, Option.map_eq_some_iff] at hr
    obtain ⟨t, -, rfl⟩ := hr
    exact ⟨⟨rfl, rfl, rfl⟩, fun _ hi => hi⟩
  | retransmit =>
    simp only [handle, Option.map_eq_some_iff] at hr
    obtain ⟨t, -, rfl⟩ := hr
    exact ⟨⟨rfl, rfl, rfl⟩, fun _ hi => hi⟩
  | _ => cases he

end Peer

/-! ## The pair -/

namespace PeerNet

/-- No hello arrives at `x`. -/
def NoHello (x : Side) (s : PeerNet) : PeerLabel → Prop
  | .deliver i _ => ∀ p ∈ s.net[i]?, p.src.other = x → p.msg.type ≠ .hello
  | _ => True

instance (x : Side) (s : PeerNet) (l : PeerLabel) : Decidable (NoHello x s l) :=
  match l with
  | .deliver _ _ => inferInstanceAs (Decidable (∀ _ ∈ _, _))
  | .consume _ _ => .isTrue trivial
  | .act _ _ => .isTrue trivial

variable {env : Env} {conf : Side → Configuration} {s : PeerNet} {x : Side}

/-- The call of `del_stream(i)` at `x`. -/
def deletes (x : Side) (i : UInt32) : PeerLabel := .act x (.stream (.delStream i))

/-- What `x` has at the start of a step, it has after it. -/
structure Goes (x : Side) (s t : PeerNet) (l : PeerLabel) : Prop where
  session : (s.get x).state.Session (t.get x).state
  streams : ∀ i, (s.get x).state.HasStream i → l ≠ deletes x i → (t.get x).state.HasStream i

/-- If `x` moves it keeps its session; if the other one does, `x` does not change. -/
theorem goes_move {l : PeerLabel} {y : Side} {q : Peer} {n : Nat} {c : Option Datagram}
    (h : y = x → (s.get y).state.Session q ∧
      ∀ i, (s.get y).state.HasStream i → l ≠ deletes y i → q.HasStream i) :
    Goes x s (s.move (peerMachine env conf) y (⟨q.flush, n⟩, Peer.rawSends q.out) c) l := by
  rcases Side.eq_or_eq_other y x with rfl | rfl
  · obtain ⟨hsession, hstreams⟩ := h rfl
    constructor
    · rw [Net.get_move_self]
      exact ⟨hsession.handler, hsession.key, hsession.encryptLayer⟩
    · rw [Net.get_move_self]
      exact hstreams
  · constructor
    · rw [Net.get_move_other]
      exact .refl _
    · rw [Net.get_move_other]
      exact fun _ hi _ => hi

theorem goes_step {t : PeerNet} {l : PeerLabel} (hok : NetOk env conf s)
    (he : (s.get x).state.datagramHandler = .established)
    (hs : (lts env conf).step s l t) (hno : NoHello x s l) : Goes x s t l := by
  rcases Net.lossy_cases hs with ⟨i, priv, p, rfl, hi, hp, rfl⟩ | ⟨y, k, r, rfl, hr, rfl⟩
  · refine goes_move fun hy => ?_
    have ht := Peer.turn_of_recv (hok.peer p.src.other).inv p.msg priv
    obtain ⟨h1, h2⟩ := ht.session (hy ▸ he) (hno p hi hy)
    exact ⟨h1, fun i hi _ => h2 i hi⟩
  · cases k with
    | expire =>
      obtain ⟨q, hq, rfl⟩ := Option.map_eq_some_iff.1
        (show ((s.get y).state.handle env (conf y) .expire).map _ = some r from hr)
      obtain ⟨h1, h2⟩ := Peer.timer_session hq rfl
      exact goes_move fun _ => ⟨h1, fun i hi _ => h2 i hi⟩
    | retransmit =>
      obtain ⟨q, hq, rfl⟩ := Option.map_eq_some_iff.1
        (show ((s.get y).state.handle env (conf y) .retransmit).map _ = some r from hr)
      obtain ⟨h1, h2⟩ := Peer.timer_session hq rfl
      exact goes_move fun _ => ⟨h1, fun i hi _ => h2 i hi⟩
    | stream e =>
      simp only [peerMachine] at hr
      split at hr
      · rename_i hstream
        obtain ⟨q, hq, rfl⟩ := Option.map_eq_some_iff.1 hr
        refine goes_move fun _ =>
          ⟨(Peer.handle_stream_same hq hstream).session, fun i hi hne => ?_⟩
        exact hi.stream hq hstream fun hd => hne (by rw [hd]; rfl)
      · cases hr
    | junk d priv =>
      simp only [peerMachine] at hr
      split at hr
      · rename_i hj
        cases hr
        have hd : d.type ≠ .hello := by
          intro hd
          have hm : Msg.of d = .other := (of_decide_eq_true hj).1
          simp [Msg.of, hd] at hm
        refine goes_move fun hy => ?_
        have ht := Peer.turn_of_recv (hok.peer y).inv d priv
        obtain ⟨h1, h2⟩ := ht.session (hy ▸ he) hd
        exact ⟨h1, fun i hi _ => h2 i hi⟩
      · cases hr

/-- From a state with `x` established, as long as no hello arrives at `x`. -/
theorem goes_run {t : PeerNet} {ls : List PeerLabel}
    (hr : ((lts env conf).guard (NoHello x)).Run s ls t) (hok : NetOk env conf s)
    (he : (s.get x).state.datagramHandler = .established) :
    NetOk env conf t ∧ (s.get x).state.Session (t.get x).state ∧
      ∀ i, (s.get x).state.HasStream i → deletes x i ∉ ls → (t.get x).state.HasStream i := by
  induction hr with
  | nil s => exact ⟨hok, .refl _, fun _ hi _ => hi⟩
  | @cons s u t l ls hs _ ih =>
    have hgo := goes_step hok he hs.1 hs.2
    obtain ⟨hok', h1, h2⟩ := ih ((netOk_inductive env conf).step _ _ _ hok hs.1)
      (hgo.session.handler.trans he)
    refine ⟨hok', hgo.session.trans h1, fun i hi hno => ?_⟩
    rw [List.mem_cons, not_or] at hno
    exact h2 i (hgo.streams i hi fun h => hno.1 h.symm) hno.2

/-- Once `x` is established, whatever becomes of the other one: in every continuation in
which no hello arrives at `x`, it stays established with its key and with every stream that
is not deleted by a call; the next hello that arrives resets it. -/
theorem established_stable {t : PeerNet} {ls : List PeerLabel}
    (h : (lts env conf).Reachable s) (he : (s.get x).state.datagramHandler = .established)
    (hr : ((lts env conf).guard (NoHello x)).Run s ls t) :
    ((t.get x).state.datagramHandler = .established ∧
      (t.get x).state.key = (s.get x).state.key ∧
      (t.get x).state.encryptLayer = (s.get x).state.encryptLayer ∧
      ∀ i, ((s.get x).state.streamMap.find? i).isSome = true → deletes x i ∉ ls →
        ((t.get x).state.streamMap.find? i).isSome = true) ∧
    ∀ i priv p u, t.net[i]? = some p → p.src.other = x → p.msg.type = .hello →
      (lts env conf).step t (.deliver i priv) u →
        (u.get x).state.datagramHandler = .hello ∧ (u.get x).state.key = none ∧
        (u.get x).state.streamMap = .empty := by
  obtain ⟨hok, h1, h2⟩ := goes_run hr ((netOk_inductive env conf).reachable h) he
  have hest : (t.get x).state.datagramHandler = .established := h1.handler.trans he
  refine ⟨⟨hest, h1.key, h1.encryptLayer, h2⟩, fun i priv p u hp hx ht hs => ?_⟩
  obtain ⟨p', hp', rfl⟩ := Option.map_eq_some_iff.1 (show t.net[i]?.map _ = some u from hs)
  rw [hp, Option.some.injEq] at hp'
  subst hp' hx
  have hrecv := Peer.recv_hello (hok.peer p.src.other).inv hest ht priv
  have hget : (t.arrive (peerMachine env conf) p priv).get p.src.other =
      ((peerMachine env conf).recv p.src.other (t.get p.src.other) p.msg priv).1 :=
    Net.get_move_self _ _
  rw [hget]
  simp only [peerMachine, hrecv]
  exact ⟨rfl, rfl, rfl⟩

/-- A handshake, a stream at `b`, and a hello of `b` once more, which resets `a`; `b` goes on
when a public key arrives once more. -/
theorem established_stable_handshakeTrace : ∃ s : PeerNet,
    (s.get .a).state.datagramHandler = .hello ∧
      (s.get .b).state.datagramHandler = .established ∧
        ((s.get .b).state.streamMap.find? 1).isSome = true := by
  have hrun : ∃ s, (lts smallEnv smallConf).Reachable s ∧
      (s.get .b).state.datagramHandler = .established ∧
        ((s.get .b).state.streamMap.find? 1).isSome = true ∧ NoHello .b s (.deliver 4 []) ∧
          (Net.step (peerMachine smallEnv smallConf) s (.deliver 4 [])).any
            (fun t => decide ((t.get .a).state.datagramHandler = .hello)) = true :=
    LTS.exists_reachable_of_exec
      (handshakeTrace ++ [.act .b (.stream (.addStream 1)), .deliver 1 []]) rfl (by decide +kernel)
  obtain ⟨s, hr, hb, hstream, hno, hnext⟩ := hrun
  obtain ⟨t, ht, ha⟩ := (Option.any_eq_true _ _).1 hnext
  have hcont : ((lts smallEnv smallConf).guard (NoHello .b)).Run s [.deliver 4 []] t :=
    .single ⟨ht, hno⟩
  obtain ⟨⟨h1, -, -, h2⟩, -⟩ := established_stable hr hb hcont
  exact ⟨t, of_decide_eq_true ha, h1, h2 1 hstream (by decide)⟩

/-- Counterexample: `b` has a stream, and the hello that `a` sent at the start
arrives at `b` once more. -/
theorem established_reset : ∃ s t : PeerNet, (lts smallEnv smallConf).Reachable s ∧
    (∀ x, (s.get x).state.datagramHandler = .established) ∧
    ((s.get .b).state.streamMap.find? 1).isSome = true ∧ (s.get .b).state.key.isSome = true ∧
    (lts smallEnv smallConf).step s (.deliver 0 []) t ∧
    (t.get .b).state.datagramHandler = .hello ∧ (t.get .b).state.key = none ∧
    (t.get .b).state.streamMap.find? 1 = none := by
  have hrun : ∃ s, (lts smallEnv smallConf).Reachable s ∧
      (s.get .a).state.datagramHandler = .established ∧
        (s.get .b).state.datagramHandler = .established ∧
          ((s.get .b).state.streamMap.find? 1).isSome = true ∧
            (s.get .b).state.key.isSome = true ∧
              (Net.step (peerMachine smallEnv smallConf) s (.deliver 0 [])).any (fun t =>
                decide ((t.get .b).state.datagramHandler = .hello ∧ (t.get .b).state.key = none ∧
                  ((t.get .b).state.streamMap.find? 1).isNone = true)) = true :=
    LTS.exists_reachable_of_exec (handshakeTrace ++ [.act .b (.stream (.addStream 1))]) rfl
      (by decide +kernel)
  obtain ⟨s, hr, ha, hb, hstream, hkey, hnext⟩ := hrun
  rw [Option.any_eq_true] at hnext
  obtain ⟨t, ht, hnext⟩ := hnext
  obtain ⟨h1, h2, h3⟩ := of_decide_eq_true hnext
  refine ⟨s, t, hr, fun x => ?_, hstream, hkey, ht, h1, h2, Option.isNone_iff_eq_none.1 h3⟩
  cases x with
  | a => exact ha
  | b => exact hb

end PeerNet
end ShadowTalk.Sml
