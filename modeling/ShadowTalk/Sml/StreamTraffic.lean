import ShadowTalk.Sml.UdpLayer
import ShadowTalk.Sml.Phases
import ShadowTalk.Sml.Redelivery

/-!
# Datagrams that are not for a stream

`established_handler` decrypts everything but hellos, echoes and aborts, and looks up
its stream, or makes one, before `stream::feed` looks at the type.

* `streamsKept_iff`: a datagram of another type leaves the streams alone exactly if it
  is an echo, or its stream exists and the cipher takes its payload.
* `streams_touched`: a late acknowledgement of the handshake creates a stream.
-/
namespace ShadowTalk.Sml.Peer
open ShadowTalk.Core

/-- What is put into `output_ring`. -/
def ringPuts (es : List PeerEff) : List PeerEff :=
  es.filter fun
    | .newPeer _ | .newStream _ | .recvData _ _ => true
    | _ => false

@[simp] theorem ringPuts_append (l m : List PeerEff) : ringPuts (l ++ m) = ringPuts l ++ ringPuts m :=
  List.filter_append _ _

/-- Nothing is thrown, no stream changes, and nothing is put into the ring. -/
structure StreamsKept (p : Peer) (r : Peer × Option Exc) : Prop where
  noThrow : r.2 = none
  streamMap : r.1.streamMap = p.streamMap
  ring : ringPuts r.1.out = ringPuts p.out

/-- The handshake is over: its bits are set, the echo is back, and there is a cipher. -/
structure Working (p : Peer) (key : Bytes) : Prop where
  established : p.currentState.established = true
  waitForEcho : p.currentState.waitForEcho = false
  encryptLayer : p.encryptLayer = some key

/-- Data and its acknowledgements, and what ends all streams. -/
def StreamTraffic (t : MsgType) : Prop := t = .data ∨ t = .dataAck ∨ t = .hello ∨ t = .abort

instance decidableStreamTraffic (t : MsgType) : Decidable (StreamTraffic t) :=
  inferInstanceAs (Decidable (_ ∨ _))

variable {env : Env} {conf : Configuration} {p : Peer} {d : Datagram} {key : Bytes}

/-- Whoever runs `established_handler` is working. -/
theorem working_of_reachable (h : (lts env conf).Reachable p) (hp : p.datagramHandler = .established) :
    ∃ key, Working p key := by
  have hi := ((layers_inductive env conf).reachable h).1
  obtain ⟨key, hk⟩ := decryptPayload_established hi hp
  have hb := hi.establishedBits hp
  exact ⟨key, by rw [hb]; rfl, by rw [hb], hk⟩

theorem feed_other {s : Stream} (h : ¬ StreamTraffic d.type) : s.feed d = (s, []) := by
  unfold StreamTraffic at h
  unfold Stream.feed
  split
  · rename_i ht; simp [ht] at h
  · rename_i ht; simp [ht] at h
  · rename_i ht; simp [ht] at h
  · rfl

/-- A stream that is there ignores the datagram; one that is not is created. -/
theorem feedStream_other (h : ¬ StreamTraffic d.type) :
    StreamsKept p (p.feedStream d, none) ↔ ∃ s, p.streamMap.find? d.id = some s := by
  cases hs : p.streamMap.find? d.id with
  | some s =>
    have hfeed : p.feedStream d = p := by
      unfold feedStream
      simp only [hs, feed_other h]
      show ({ p with streamMap := p.streamMap.set d.id s } : Peer) = p
      rw [OMap.set_eq_self hs]
    rw [hfeed]
    exact iff_of_true ⟨rfl, rfl, rfl⟩ ⟨s, rfl⟩
  | none =>
    refine iff_of_false (fun hk => ?_) (by simp)
    have hfound : (p.feedStream d).streamMap.find? d.id ≠ none := by
      unfold feedStream
      simp only [hs, Peer.put, OMap.find?_insert_self, putStream_streamMap, OMap.find?_set_self]
      exact fun hn => by cases hn
    exact hfound (by rw [hk.streamMap]; exact hs)

/-- The cipher changes nothing but the payload. -/
theorem decryptPayload_ok {d' : Datagram} (h : p.decryptPayload env d = .ok d') :
    d'.id = d.id ∧ d'.type = d.type := by
  unfold decryptPayload at h
  split at h
  · cases h
  · split at h
    · split at h
      · obtain rfl := Except.ok.inj h
        exact ⟨rfl, rfl⟩
      · cases h
    · obtain rfl := Except.ok.inj h
      exact ⟨rfl, rfl⟩

/-- A datagram that is not for a stream leaves the streams and the ring alone, and throws
nothing, exactly if it is an echo, or a stream with its id exists and its payload is
empty or longer than the initial vector. -/
theorem streamsKept_iff (hp : Working p key) (ht : ¬ StreamTraffic d.type)
    (hd : d.payload.length < 2 ^ 31) :
    StreamsKept p (p.establishedHandler env conf d) ↔ d.type = .echo ∨ d.type = .echoBack ∨
      (∃ s, p.streamMap.find? d.id = some s) ∧ (d.payload = [] ∨ 16 < d.payload.length) := by
  have hdec := decryptPayload_ok_iff env hp.encryptLayer hd
  unfold establishedHandler
  rw [if_neg (by simp [hp.established])]
  cases htype : d.type with
  | data | dataAck | hello | abort => exact absurd (by simp [htype, StreamTraffic]) ht
  | echo =>
    refine iff_of_true ⟨rfl, rfl, ?_⟩ (by simp)
    show ringPuts (p.out ++ _) = _
    rw [ringPuts_append]
    exact List.append_nil _
  | echoBack =>
    have hback : p.receivedEchoBackHandler d = (p, none) := by
      unfold receivedEchoBackHandler
      rw [hp.waitForEcho]
      rfl
    simp only [hback]
    exact iff_of_true ⟨rfl, rfl, rfl⟩ (by simp)
  | _ =>
    rw [← hdec]
    cases hx : p.decryptPayload env d with
    | error x => exact iff_of_false (fun h => (by cases h.noThrow)) (by simp)
    | ok d' =>
      obtain ⟨hid, htype'⟩ := decryptPayload_ok hx
      have hfeed := feedStream_other (p := p) (htype'.symm ▸ ht)
      rw [hid] at hfeed
      simpa using hfeed

/-- With stream 0 there, the acknowledgement of the hello, once more, leaves it alone; the
public key, once more, is too short for the cipher. -/
theorem streamsKept_late_ack : ∃ p : Peer, (lts smallEnv smallConfA).Reachable p ∧
    p.datagramHandler = .established ∧
    StreamsKept p (p.establishedHandler smallEnv smallConfA (.createAck 0 0)) ∧
    ¬ StreamsKept p (p.establishedHandler smallEnv smallConfA (.createPublicKey (smallPub [9]))) := by
  have hrun : ∃ p : Peer, (lts smallEnv smallConfA).Reachable p ∧ p.datagramHandler = .established ∧
      p.streamMap = OMap.empty.insert 0 (.new 0) :=
    LTS.exists_reachable_of_exec (establishedTrace ++ [.addStream 0]) rfl (by decide +kernel)
  obtain ⟨p, hr, hp, hmap⟩ := hrun
  obtain ⟨key, hw⟩ := working_of_reachable hr hp
  refine ⟨p, hr, hp, (streamsKept_iff hw (by decide) (by decide)).2 ?_,
    mt (streamsKept_iff hw (by decide) (by decide)).1 ?_⟩
  · exact .inr (.inr ⟨⟨.new 0, by rw [hmap]; rfl⟩, .inl rfl⟩)
  · rintro (h | h | ⟨-, h⟩) <;> revert h <;> decide

/-- Counterexample: without streams, the acknowledgement of the hello, once more, creates
stream 0, and the public key, once more, throws. -/
theorem streams_touched : ∃ p : Peer, (lts smallEnv smallConfA).Reachable p ∧
    p.datagramHandler = .established ∧ p.streamMap = .empty ∧
    (let r := p.establishedHandler smallEnv smallConfA (.createAck 0 0)
     r.1.streamMap = OMap.empty.insert 0 (.new 0) ∧
       ringPuts r.1.out = ringPuts p.out ++ [.newStream 0]) ∧
    (p.establishedHandler smallEnv smallConfA (.createPublicKey (smallPub [9]))).2 =
      some .invalidDataError :=
  LTS.exists_reachable_of_exec establishedTrace rfl (by decide +kernel)

end ShadowTalk.Sml.Peer
