import ShadowTalk.Sml.StreamTraffic
import ShadowTalk.Sml.Wire

/-!
# The two halves of a stream

A stream sends and receives, and the two halves do not meet: `send`, `retransmit` and
acknowledgements work on the send queue, data datagrams on the receive queue.

* `SendAs`, `RecvAs`: two streams agree in one half, and then do the same there.
* `Peer.Runs`, `Peer.Idles`: what an event of a peer does to its streams: it runs one of
  them, or none.
* `Peer.Turn.idles`, `Peer.recv_runs`, `Peer.handle_runs`: which one it is.
-/
namespace ShadowTalk.Sml
open ShadowTalk.Core

namespace Stream

/-- The sending half is that of `s`. -/
structure SendAs (s t : Stream) : Prop where
  id : t.id = s.id
  sendOffset : t.sendOffset = s.sendOffset
  queue : t.sendDatagramQueue = s.sendDatagramQueue
  timer : t.timer = s.timer

/-- The receiving half is that of `s`. -/
structure RecvAs (s t : Stream) : Prop where
  id : t.id = s.id
  recvOffset : t.recvOffset = s.recvOffset
  queue : t.recvDatagramQueue = s.recvDatagramQueue

variable {s t u : Stream} {d : Datagram} {id : UInt32}

theorem SendAs.refl (s : Stream) : SendAs s s := ⟨rfl, rfl, rfl, rfl⟩

theorem SendAs.symm (h : SendAs s t) : SendAs t s :=
  ⟨h.id.symm, h.sendOffset.symm, h.queue.symm, h.timer.symm⟩

theorem SendAs.trans (h : SendAs s t) (h' : SendAs t u) : SendAs s u :=
  ⟨h'.id.trans h.id, h'.sendOffset.trans h.sendOffset, h'.queue.trans h.queue,
    h'.timer.trans h.timer⟩

theorem RecvAs.refl (s : Stream) : RecvAs s s := ⟨rfl, rfl, rfl⟩

theorem RecvAs.symm (h : RecvAs s t) : RecvAs t s := ⟨h.id.symm, h.recvOffset.symm, h.queue.symm⟩

theorem RecvAs.trans (h : RecvAs s t) (h' : RecvAs t u) : RecvAs s u :=
  ⟨h'.id.trans h.id, h'.recvOffset.trans h.recvOffset, h'.queue.trans h.queue⟩

/-! ## The sending half -/

theorem SendAs.sendOneDatagram (h : SendAs s t) :
    SendAs s.sendOneDatagram.1 t.sendOneDatagram.1 ∧ t.sendOneDatagram.2 = s.sendOneDatagram.2 := by
  obtain ⟨hid, ho, hq, ht⟩ := h
  unfold Stream.sendOneDatagram
  simp only [ho, hq, ht]
  split
  · exact ⟨⟨hid, rfl, rfl, rfl⟩, rfl⟩
  · exact ⟨⟨hid, rfl, rfl, rfl⟩, rfl⟩

theorem recvAs_sendOneDatagram (s : Stream) : RecvAs s s.sendOneDatagram.1 :=
  ⟨sendOneDatagram_id s, sendOneDatagram_recvOffset s, sendOneDatagram_recvQueue s⟩

theorem SendAs.enqueue (h : SendAs s t) (data : Bytes) : SendAs (s.enqueue data) (t.enqueue data) := by
  obtain ⟨hid, ho, hq, ht⟩ := h
  refine ⟨hid, ho, ?_, ht⟩
  simp only [Stream.enqueue, currentMaxOffset, hid, ho, hq]

theorem SendAs.send (h : SendAs s t) (data : Bytes) :
    SendAs (s.send data).1 (t.send data).1 ∧ (t.send data).2 = (s.send data).2 :=
  (h.enqueue data).sendOneDatagram

theorem recvAs_send (s : Stream) (data : Bytes) : RecvAs s (s.send data).1 :=
  have hq : RecvAs s (s.enqueue data) := ⟨rfl, rfl, rfl⟩
  hq.trans (recvAs_sendOneDatagram (s.enqueue data))

theorem SendAs.expire (h : SendAs s t) (hs : s.expire = some u) :
    ∃ v, t.expire = some v ∧ SendAs u v ∧ RecvAs s u := by
  obtain ⟨w, hw, rfl⟩ := Option.map_eq_some_iff.1 hs
  refine ⟨{ t with timer := w }, ?_, ⟨h.id, h.sendOffset, h.queue, rfl⟩, rfl, rfl, rfl⟩
  rw [Stream.expire, h.timer, hw]
  rfl

theorem SendAs.retransmit {r : Stream × List StreamEff} (h : SendAs s t)
    (hs : s.retransmit = some r) :
    ∃ r', t.retransmit = some r' ∧ SendAs r.1 r'.1 ∧ r'.2 = r.2 ∧ RecvAs s r.1 := by
  obtain ⟨f, hf, rfl⟩ := Option.map_eq_some_iff.1 hs
  have hsame : SendAs { s with timer := f.2 } { t with timer := f.2 } :=
    ⟨h.id, h.sendOffset, h.queue, rfl⟩
  obtain ⟨h1, h2⟩ := hsame.sendOneDatagram
  refine ⟨_, ?_, h1, h2, ?_⟩
  · rw [Stream.retransmit, h.timer, hf]
    rfl
  · have hq : RecvAs s { s with timer := f.2 } := ⟨rfl, rfl, rfl⟩
    exact hq.trans (recvAs_sendOneDatagram _)

/-! ## The receiving half -/

theorem RecvAs.drainReceived (h : RecvAs s t) :
    RecvAs s.drainReceived.1 t.drainReceived.1 ∧ t.drainReceived.2 = s.drainReceived.2 := by
  obtain ⟨hid, ho, hq⟩ := h
  unfold Stream.drainReceived Stream.ack
  simp only [hid, ho, hq]
  split
  · exact ⟨⟨hid, ho, hq⟩, rfl⟩
  · split
    · exact ⟨⟨rfl, rfl, rfl⟩, rfl⟩
    · exact ⟨⟨hid, ho, hq⟩, rfl⟩

theorem sendAs_drainReceived (s : Stream) : SendAs s s.drainReceived.1 := by
  rw [(drainReceived_eq_drainLoop s).1]
  exact ⟨rfl, rfl, rfl, rfl⟩

theorem RecvAs.feed (h : RecvAs s t) (hd : d.type = .data) :
    RecvAs (s.feed d).1 (t.feed d).1 ∧ (t.feed d).2 = (s.feed d).2 := by
  rw [feed_data hd, feed_data hd]
  refine RecvAs.drainReceived ⟨h.id, h.recvOffset, ?_⟩
  show t.recvDatagramQueue.set d.offset d = _
  rw [h.queue]

theorem sendAs_feed (s : Stream) (hd : d.type = .data) : SendAs s (s.feed d).1 := by
  rw [feed_data hd]
  have hq : SendAs s { s with recvDatagramQueue := s.recvDatagramQueue.set d.offset d } :=
    ⟨rfl, rfl, rfl, rfl⟩
  exact hq.trans (sendAs_drainReceived _)

/-- An acknowledgement, when what is received is delivered already: it is all about the
sending half. -/
theorem feed_dataAck_of_stop (hd : d.type = .dataAck)
    (hstop : ∀ e, s.recvDatagramQueue.front? = some e → e.1 ≠ s.recvOffset) :
    s.feed d = Stream.sendOneDatagram { s with sendOffset := d.offset } := by
  unfold Stream.feed
  simp only [hd]
  rw [drainReceived_of_ne]
  · simp
  · rw [sendOneDatagram_recvQueue, sendOneDatagram_recvOffset]
    exact hstop

/-- An acknowledgement for two streams that have delivered what they received. -/
theorem SendAs.feed_dataAck (h : SendAs s t) (hd : d.type = .dataAck)
    (hs : ∀ e, s.recvDatagramQueue.front? = some e → e.1 ≠ s.recvOffset)
    (ht : ∀ e, t.recvDatagramQueue.front? = some e → e.1 ≠ t.recvOffset) :
    SendAs (s.feed d).1 (t.feed d).1 ∧ (t.feed d).2 = (s.feed d).2 ∧ RecvAs s (s.feed d).1 := by
  rw [feed_dataAck_of_stop hd hs, feed_dataAck_of_stop hd ht]
  have hsame : SendAs { s with sendOffset := d.offset } { t with sendOffset := d.offset } :=
    ⟨h.id, rfl, h.queue, h.timer⟩
  obtain ⟨h1, h2⟩ := hsame.sendOneDatagram
  have hq : RecvAs s { s with sendOffset := d.offset } := ⟨rfl, rfl, rfl⟩
  exact ⟨h1, h2, hq.trans (recvAs_sendOneDatagram _)⟩

/-! ## What a stream sends -/

/-- A datagram of stream `id`. -/
structure Says (id : UInt32) (d : Datagram) : Prop where
  id_eq : d.id = id
  type : d.type = .data ∨ d.type = .dataAck
  le : d.payload.length ≤ segmentMax

theorem Segmented.says_sendOneDatagram (h : Segmented id s) :
    ∀ d ∈ sends s.sendOneDatagram.2, Says id d := by
  intro d hd
  obtain ⟨k, hk⟩ := sendOneDatagram_mem hd
  have hseg := (h.queue _ hk).2
  exact ⟨hseg.id_eq, .inl hseg.type, hseg.le⟩

theorem Segmented.says_drainReceived (h : Segmented id s) :
    ∀ d ∈ sends s.drainReceived.2, Says id d := by
  intro d hd
  rw [eq_ack_of_mem_drainReceived hd]
  refine ⟨?_, .inr rfl, Nat.zero_le _⟩
  exact (drainReceived_acks s).2.1.trans h.id_eq

theorem Segmented.says_feed (h : Segmented id s) (d : Datagram) :
    ∀ x ∈ sends (s.feed d).2, Says id x := by
  unfold Stream.feed
  split
  · exact Segmented.says_drainReceived ⟨h.id_eq, h.queue⟩
  · exact Segmented.says_drainReceived ⟨h.id_eq, h.queue⟩
  · have hs : Segmented id { s with sendOffset := d.offset } := ⟨h.id_eq, h.queue⟩
    intro x hx
    rcases List.mem_append.1 (by simpa using hx) with hx | hx
    · exact hs.says_sendOneDatagram x hx
    · exact hs.sendOneDatagram.1.says_drainReceived x hx
  · intro x hx
    cases hx

theorem Segmented.says_retransmit {r : Stream × List StreamEff} (h : Segmented id s)
    (hr : s.retransmit = some r) : ∀ x ∈ sends r.2, Says id x := by
  obtain ⟨f, -, rfl⟩ := Option.map_eq_some_iff.1 hr
  exact Segmented.says_sendOneDatagram ⟨h.id_eq, h.queue⟩

end Stream

/-! ## The streams of a peer -/

namespace Peer

/-- Stream `id`, or what it is when it is made. -/
def stream (p : Peer) (id : UInt32) : Stream := (p.streamMap.find? id).getD (.new id)

/-- What stream `id` has delivered. -/
def payloads (id : UInt32) (es : List PeerEff) : List Bytes :=
  es.filterMap fun
    | .recvData i payload => if i = id then some payload else none
    | _ => none

section
variable (id : UInt32) (es : List PeerEff)

@[simp] theorem payloads_nil : payloads id [] = [] := rfl
@[simp] theorem payloads_append (l m : List PeerEff) :
    payloads id (l ++ m) = payloads id l ++ payloads id m := List.filterMap_append
@[simp] theorem payloads_send (d : Datagram) : payloads id (.send d :: es) = payloads id es := rfl
@[simp] theorem payloads_sendEncrypted (l : Option Bytes) (d : Datagram) :
    payloads id (.sendEncrypted l d :: es) = payloads id es := rfl
@[simp] theorem payloads_agree (i spub : Bytes) :
    payloads id (.agree i spub :: es) = payloads id es := rfl
@[simp] theorem payloads_newPeer (i : Bytes) : payloads id (.newPeer i :: es) = payloads id es := rfl
@[simp] theorem payloads_newStream (i : UInt32) :
    payloads id (.newStream i :: es) = payloads id es := rfl

end

/-- Only what is put into the ring counts. -/
theorem payloads_ringPuts (id : UInt32) (es : List PeerEff) :
    payloads id (ringPuts es) = payloads id es := by
  induction es with
  | nil => rfl
  | cons e es ih =>
    cases e with
    | recvData i payload =>
      show payloads id (.recvData i payload :: ringPuts es) = _
      simp only [payloads, List.filterMap_cons] at ih ⊢
      split <;> simp only [ih]
    | newPeer i => exact ih
    | newStream i => exact ih
    | _ => exact ih

variable {env : Env} {conf : Configuration} {p q : Peer} {d : Datagram} {priv : Bytes}
  {id : UInt32} {r : Stream × List StreamEff}

/-- Stream `id` has become `r.1` and had the effects `r.2`. -/
structure Runs (id : UInt32) (r : Stream × List StreamEff) (p q : Peer) : Prop where
  stream : q.stream id = r.1
  others : ∀ i, i ≠ id → q.stream i = p.stream i
  encrypted : encrypted q.out = encrypted p.out ++
    if p.currentState.established then (sends r.2).map (p.encryptLayer, ·) else []
  payloads : payloads id q.out = payloads id p.out ++ received r.2
  otherPayloads : ∀ i, i ≠ id → Peer.payloads i q.out = Peer.payloads i p.out

/-- The streams do nothing. -/
structure Idles (p q : Peer) : Prop where
  stream : ∀ i, q.stream i = p.stream i
  encrypted : encrypted q.out = encrypted p.out
  payloads : ∀ i, payloads i q.out = payloads i p.out

theorem Runs.idles (h : Runs id (p.stream id, []) p q) : Idles p q where
  stream i := by
    by_cases hi : i = id
    · rw [hi, h.stream]
    · exact h.others i hi
  encrypted := by simpa using h.encrypted
  payloads i := by
    by_cases hi : i = id
    · rw [hi, h.payloads, received_nil, List.append_nil]
    · exact h.otherPayloads i hi

theorem idles_of_quiet (ho : encrypted q.out = encrypted p.out)
    (hm : q.streamMap = p.streamMap) (hp : ∀ i, payloads i q.out = payloads i p.out) :
    Idles p q := ⟨fun i => by rw [stream, stream, hm], ho, hp⟩

theorem stream_set (p : Peer) (s : Stream) :
    ({ p with streamMap := p.streamMap.set id s } : Peer).stream id = s := by
  rw [stream, OMap.find?_set_self]
  rfl

theorem stream_set_ne (p : Peer) (s : Stream) {i : UInt32} (hi : i ≠ id) :
    ({ p with streamMap := p.streamMap.set id s } : Peer).stream i = p.stream i := by
  rw [stream, OMap.find?_set_ne _ _ hi]
  rfl

/-- A stream that is made now is what it was taken for. -/
theorem stream_insert (p : Peer) (id i : UInt32) :
    ({ p with streamMap := p.streamMap.insert id (.new id) } : Peer).stream i = p.stream i := by
  unfold stream
  by_cases hi : i = id
  · subst hi
    rw [OMap.find?_insert_self]
    cases p.streamMap.find? i <;> rfl
  · rw [OMap.find?_insert_ne _ _ hi]

theorem payloads_streamEff (p : Peer) (id : UInt32) (e : StreamEff) (i : UInt32) :
    payloads i (p.streamEff id e).out =
      payloads i p.out ++ if i = id then received [e] else [] := by
  cases e with
  | recvData payload =>
    show payloads i (p.out ++ [.recvData id payload]) = _
    rw [payloads_append, received_recv]
    by_cases hi : id = i
    · simp [payloads, hi]
    · simp [payloads, hi, Ne.symm hi]
  | sendDatagram d =>
    show payloads i (p.sendDatagram d).out = _
    rw [received_send, ite_self, List.append_nil]
    unfold sendDatagram
    split
    · show payloads i (p.out ++ [.sendEncrypted p.encryptLayer d]) = _
      simp
    · rfl

theorem payloads_putStream (p : Peer) (id : UInt32) (r : Stream × List StreamEff) (i : UInt32) :
    payloads i (p.putStream id r).out =
      payloads i p.out ++ if i = id then received r.2 else [] := by
  have key : ∀ (es : List StreamEff) (q : Peer),
      payloads i (es.foldl (fun p e => p.streamEff id e) q).out =
        payloads i q.out ++ if i = id then received es else [] := by
    intro es
    induction es with
    | nil => exact fun q => by simp
    | cons e es ih =>
      intro q
      have hrecv : received (e :: es) = received [e] ++ received es := received_append [e] es
      rw [List.foldl_cons, ih, payloads_streamEff, List.append_assoc, hrecv]
      split
      · rfl
      · rfl
  exact key r.2 { p with streamMap := p.streamMap.set id r.1 }

theorem runs_putStream (p : Peer) (id : UInt32) (r : Stream × List StreamEff) :
    Runs id r p (p.putStream id r) where
  stream := by rw [stream, putStream_streamMap, OMap.find?_set_self]; rfl
  others i hi := by rw [stream, putStream_streamMap, OMap.find?_set_ne _ _ hi]; rfl
  encrypted := encrypted_putStream p id r
  payloads := by rw [payloads_putStream, if_pos rfl]
  otherPayloads i hi := by rw [payloads_putStream, if_neg hi, List.append_nil]

theorem stream_of_find {s : Stream} (h : p.streamMap.find? id = some s) : p.stream id = s := by
  rw [stream, h]
  rfl

/-- A datagram for stream `d.id`, made at need. -/
theorem runs_feedStream (p : Peer) (d : Datagram) :
    Runs d.id ((p.stream d.id).feed d) p (p.feedStream d) := by
  unfold Peer.feedStream
  cases hs : p.streamMap.find? d.id with
  | some s =>
    simp only [hs]
    rw [stream_of_find hs]
    exact runs_putStream p d.id (s.feed d)
  | none =>
    generalize hq : (({ p with streamMap := p.streamMap.insert d.id (.new d.id) } : Peer).put
      (.newStream d.id)) = q
    have hstream : ∀ i, q.stream i = p.stream i := by
      intro i
      rw [← hq]
      exact stream_insert p d.id i
    have hfind : q.streamMap.find? d.id = some (.new d.id) := by
      rw [← hq]
      show (p.streamMap.insert d.id (.new d.id)).find? d.id = _
      rw [OMap.find?_insert_self, hs]
      rfl
    have hnew : p.stream d.id = .new d.id := by rw [stream, hs]; rfl
    simp only [hfind]
    rw [hnew]
    have hruns := runs_putStream q d.id ((Stream.new d.id).feed d)
    refine ⟨hruns.stream, fun i hi => (hruns.others i hi).trans (hstream i), ?_, ?_, fun i hi => ?_⟩
    · rw [hruns.encrypted, ← hq]
      simp only [Peer.put, encrypted_append, encrypted_newStream, encrypted_nil, List.append_nil]
      rfl
    · rw [hruns.payloads, ← hq]
      simp [Peer.put]
    · rw [hruns.otherPayloads i hi, ← hq]
      simp [Peer.put]

theorem HelloTake.idles (ht : HelloTake env conf p d q) : Idles p q := by
  refine idles_of_quiet ht.quiet.1 ht.quiet.2 fun i => ?_
  cases ht with
  | hello ht => simp [Peer.receivedHelloHandler, Peer.sendAck, Peer.sendRawDatagram, Peer.put]
  | ack ht => rfl

theorem KeyTake.idles (ht : KeyTake p d q) : Idles p q := by
  refine idles_of_quiet ht.quiet.1 ht.quiet.2 fun i => ?_
  cases ht with
  | key ht => simp [Peer.receivedPublicKeyHandler, Peer.sendAck, Peer.sendRawDatagram, Peer.put]
  | ack ht => rfl
  | hello ht => simp [Peer.sendAck, Peer.sendRawDatagram, Peer.put]
  | ignore => rfl

theorem Idles.trans {u : Peer} (h : Idles p q) (h' : Idles q u) : Idles p u :=
  ⟨fun i => (h'.stream i).trans (h.stream i), h'.encrypted.trans h.encrypted,
    fun i => (h'.payloads i).trans (h.payloads i)⟩

/-- A datagram that an established peer does not take for a stream. -/
theorem Turn.idles {r : Peer × Option Exc} (ht : Turn env conf p d priv r)
    (hd : p.datagramHandler = .established → ¬ StreamTraffic d.type) : Idles p r.1 := by
  cases ht with
  | hello hp ht hn => exact ht.idles
  | helloDone hp ht hc =>
    refine ht.idles.trans (idles_of_quiet ?_ rfl fun i => ?_)
    · simp [Peer.helloCompleteHandler, Peer.sendPublicKey, Peer.sendRawDatagramWithRetransmit,
        Peer.sendRawDatagram, Peer.put]
    · simp [Peer.helloCompleteHandler, Peer.sendPublicKey, Peer.sendRawDatagramWithRetransmit,
        Peer.sendRawDatagram, Peer.put]
  | key hp ht hn => exact ht.idles
  | keyFailed hp ht hc shared key hx =>
    refine ht.idles.trans (idles_of_quiet ?_ rfl fun i => ?_)
    · simp [agreeing, Peer.put]
    · simp [agreeing, Peer.put]
  | keyDone hp ht hc v k =>
    refine ht.idles.trans (idles_of_quiet ?_ rfl fun i => ?_)
    · simp [keyed, agreeing, Peer.sendEcho, Peer.sendRawDatagramWithRetransmit,
        Peer.sendRawDatagram, Peer.put]
    · simp [keyed, agreeing, Peer.sendEcho, Peer.sendRawDatagramWithRetransmit,
        Peer.sendRawDatagram, Peer.put]
  | echoDone hp ht hc =>
    exact idles_of_quiet (by simp [finish, Peer.put]) rfl fun i => by simp [finish, Peer.put]
  | reset hp ht => exact absurd (.inr (.inr (.inl ht))) (hd hp)
  | answer hp ht =>
    refine idles_of_quiet ?_ rfl fun i => ?_
    · simp [Peer.receivedEchoHandler, Peer.sendRawDatagram, Peer.put]
    · simp [Peer.receivedEchoHandler, Peer.sendRawDatagram, Peer.put]
  | keyAgain hp ht =>
    refine idles_of_quiet ?_ rfl fun i => ?_
    · simp [Peer.sendAck, Peer.sendRawDatagram, Peer.put]
    · simp [Peer.sendAck, Peer.sendRawDatagram, Peer.put]
  | abort hp ht => exact absurd (.inr (.inr (.inr ht))) (hd hp)
  | feed hp ht payload =>
    have hruns := runs_feedStream p { d with payload := payload }
    have hfeed : (p.stream d.id).feed { d with payload := payload } = (p.stream d.id, []) :=
      feed_other (d := { d with payload := payload }) (hd hp)
    exact Runs.idles (hfeed ▸ hruns)
  | undecryptable hp ht => exact idles_of_quiet rfl rfl fun _ => rfl
  | ignore hp he => exact idles_of_quiet rfl rfl fun _ => rfl

/-- A datagram for a stream, encrypted as `x`. -/
theorem recv_runs {x : Datagram} (hi : Inv env conf p) (hp : p.datagramHandler = .established)
    (ht : x.type = .data ∨ x.type = .dataAck) (hx : p.decryptPayload env x = .ok d) (priv : Bytes) :
    (p.recv env conf x priv).2 = none ∧
      Runs d.id ((p.stream d.id).feed d) p (p.recv env conf x priv).1 := by
  have hrecv : p.recv env conf x priv = (p.feedStream d, none) := by
    unfold Peer.recv Peer.establishedHandler
    simp only [hp, hi.established hp, not_true_eq_false, if_false]
    rcases ht with ht | ht
    · simp only [ht, hx]
    · simp only [ht, hx]
  rw [hrecv]
  exact ⟨rfl, runs_feedStream p d⟩

/-- What the application and the timers do. -/
inductive HandleRuns (p : Peer) (q : Peer) : Event → Prop
  | idle {e : Event} (he : ∀ id data, e ≠ .send id data) (h : Idles p q) : HandleRuns p q e
  | send (id : UInt32) (data : Bytes) (h : Runs id ((p.stream id).send data) p q) :
    HandleRuns p q (.send id data)
  | expire {s : Stream} (id : UInt32) (hs : (p.stream id).expire = some s)
    (h : Runs id (s, []) p q) : HandleRuns p q (.streamExpire id)
  | retransmit {u : Stream × List StreamEff} (id : UInt32)
    (hs : (p.stream id).retransmit = some u) (h : Runs id u p q) :
    HandleRuns p q (.streamRetransmit id)

theorem handle_runs {e : Event} {r : Peer × Option Exc} (hr : p.handle env conf e = some r)
    (he : ∀ d priv, e ≠ .recv d priv) (hdel : ∀ id, e ≠ .delStream id) :
    HandleRuns p r.1 e := by
  cases e with
  | recv d priv => exact absurd rfl (he d priv)
  | delStream id => exact absurd rfl (hdel id)
  | expire =>
    obtain ⟨t, -, rfl⟩ := Option.map_eq_some_iff.1 hr
    exact .idle (by simp) (idles_of_quiet rfl rfl fun _ => rfl)
  | retransmit =>
    obtain ⟨t, -, rfl⟩ := Option.map_eq_some_iff.1 hr
    refine .idle (by simp) (idles_of_quiet ?_ rfl fun i => ?_)
    · simp [Peer.sendRawDatagramWithRetransmit, Peer.sendRawDatagram, Peer.put]
    · simp [Peer.sendRawDatagramWithRetransmit, Peer.sendRawDatagram, Peer.put]
  | addStream id =>
    simp only [Peer.handle, Option.some.injEq] at hr
    subst hr
    refine .idle (by simp) ?_
    show Idles p (p.addStream id)
    unfold Peer.addStream
    split
    · exact idles_of_quiet rfl rfl fun _ => rfl
    · exact ⟨stream_insert p id, rfl, fun _ => rfl⟩
  | send id data =>
    obtain ⟨s, hs, rfl⟩ := Option.map_eq_some_iff.1 hr
    refine .send id data ?_
    rw [stream_of_find hs]
    exact runs_putStream p id (s.send data)
  | streamExpire id =>
    obtain ⟨s, hs, h⟩ := Option.bind_eq_some_iff.1 hr
    obtain ⟨t, ht, rfl⟩ := Option.map_eq_some_iff.1 h
    have hx : (p.stream id).expire = some t := by rw [stream_of_find hs]; exact ht
    refine .expire id hx ⟨stream_set p t, fun i hi => stream_set_ne p t hi, ?_, ?_, fun _ _ => rfl⟩
    · simp
    · simp
  | streamRetransmit id =>
    obtain ⟨s, hs, h⟩ := Option.bind_eq_some_iff.1 hr
    obtain ⟨t, ht, rfl⟩ := Option.map_eq_some_iff.1 h
    have hx : (p.stream id).retransmit = some t := by rw [stream_of_find hs]; exact ht
    exact .retransmit id hx (runs_putStream p id t)

end Peer
end ShadowTalk.Sml
