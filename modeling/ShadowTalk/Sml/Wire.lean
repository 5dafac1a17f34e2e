import ShadowTalk.Sml.UdpLayer
import ShadowTalk.Sml.Codec
import ShadowTalk.Sml.Phases
import ShadowTalk.Sml.Redelivery

/-!
# What an established peer puts on the wire

`send_datagram` encrypts a copy of the datagram with a fresh initialisation vector,
serialises it and sends the bytes; the other side parses and decrypts them.

* `lossless_of_le`: a datagram of at most 1000 bytes fits the receive buffer, and comes
  out of parsing and decrypting as it was, whatever the vector.
* `Stream.Sends`: what a stream call sends is queued, or an acknowledgement.
* `encrypted_lossless`: both for every datagram that is sent encrypted in a run.
-/
namespace ShadowTalk.Sml
open ShadowTalk.Core

/-! ## One datagram -/

/-- `iv` is the vector that `encrypt` draws.
mirrors client/sml/datagram.cpp:57-61 -/
def Datagram.encryptPayload (env : Env) (key iv : Bytes) (d : Datagram) : Datagram :=
  if d.payload.length ≠ 0 then { d with payload := env.encrypt key iv d.payload } else d

/-- CFB is a stream mode, and decryption is the inverse of encryption. -/
structure Cfb (env : Env) : Prop where
  length : ∀ key iv data, (env.cfbEncrypt key iv data).length = data.length
  inverse : ∀ key iv data, iv.length = blockSize →
    env.cfbDecrypt key iv (env.cfbEncrypt key iv data) = data

theorem cfb_small : Cfb smallEnv :=
  ⟨length_smallCipher, fun key iv data _ => smallCipher_smallCipher key iv data⟩

/-- Whatever vector `d` is encrypted with, its bytes fit the receive buffer, and parsing
and decrypting them with the same key gives `d`. -/
def Lossless (env : Env) (key : Bytes) (d : Datagram) : Prop :=
  ∀ iv : Bytes, iv.length = blockSize → ∃ wire x,
    (d.encryptPayload env key iv).toBytes env.endian = .ok wire ∧
      wire.length ≤ bufferSize ∧ Datagram.parse env.endian wire = .ok x ∧
      ∀ q : Peer, q.encryptLayer = some key → q.decryptPayload env x = .ok d

variable {env : Env} {conf : Configuration} {key : Bytes} {d : Datagram}

theorem decrypt_encrypt (hc : Cfb env) {iv data : Bytes} (hiv : iv.length = blockSize)
    (h0 : data ≠ []) (hlen : data.length < 2 ^ 30) :
    env.decrypt key (env.encrypt key iv data) = .ok data := by
  have hpos := List.length_pos_of_ne_nil h0
  have h16 : iv.length = 16 := hiv
  have hsize : (env.encrypt key iv data).length = 16 + data.length := by
    rw [Env.encrypt, List.length_append, hc.length, h16]
  rw [decrypt_eq env key (by omega), if_neg (by omega), Env.encrypt, List.take_left' h16,
    List.drop_left' h16, hc.inverse key iv data hiv]

theorem lossless_of_le (hc : Cfb env) (hd : d.payload.length ≤ Stream.segmentMax) :
    Lossless env key d := by
  intro iv hiv
  unfold Stream.segmentMax at hd
  have hsize : (d.encryptPayload env key iv).payload.length ≤ 16 + d.payload.length := by
    unfold Datagram.encryptPayload
    split
    · show (env.encrypt key iv d.payload).length ≤ _
      rw [Env.encrypt, List.length_append, hc.length, hiv, blockSize]
    · exact Nat.le_add_left _ _
  have hwire := Datagram.encode_length env.endian (d.encryptPayload env key iv)
  refine ⟨_, d.encryptPayload env key iv, Datagram.toBytes_eq env.endian _ (by omega), ?_, ?_, ?_⟩
  · rw [bufferSize]
    omega
  · rw [Datagram.parse_eq env.endian (by omega), if_pos (by omega), Datagram.decode_encode]
  · intro q hq
    unfold Datagram.encryptPayload Peer.decryptPayload
    simp only [hq]
    by_cases h0 : d.payload = []
    · simp [h0]
    · have hne : (env.encrypt key iv d.payload).length ≠ 0 := by
        rw [Env.encrypt, List.length_append, hiv, blockSize]
        exact fun h => by omega
      have hpos := List.length_pos_of_ne_nil h0
      have hlen : d.payload.length ≠ 0 := by omega
      simp only [if_pos hlen, if_pos hne, decrypt_encrypt hc hiv h0 (by omega)]

/-! ## What a stream sends -/

namespace Stream

/-- A segment of stream `id`: `length_` says how many bytes it has, 1 to 1000. -/
structure Segment (id : UInt32) (d : Datagram) : Prop where
  type : d.type = .data
  id_eq : d.id = id
  size : d.length.toNat = d.payload.length
  pos : 0 < d.payload.length
  le : d.payload.length ≤ segmentMax

/-- Every datagram sent is queued, or an acknowledgement without payload. -/
def Sends (r : Stream × List StreamEff) : Prop :=
  ∀ d ∈ sends r.2, (d.type = .dataAck ∧ d.payload = []) ∨
    (d.offset, d) ∈ r.1.sendDatagramQueue.entries

/-- The stream has id `id`, and queues segments only. -/
structure Segmented (id : UInt32) (s : Stream) : Prop where
  id_eq : s.id = id
  queue : Filed (Segment id) s.sendDatagramQueue

variable {id : UInt32} {s : Stream}

theorem segmented_new (id : UInt32) : Segmented id (.new id) := ⟨rfl, filed_empty _⟩

theorem Segmented.enqueue (h : Segmented id s) (data : Bytes) : Segmented id (s.enqueue data) where
  id_eq := h.id_eq
  queue := by
    refine filed_segments h.queue fun o n h0 hmax hle => ⟨rfl, h.id_eq, ?_, ?_, ?_⟩
    · unfold segmentMax at hmax
      show (UInt32.ofNat n).toNat = (slice data o n).length
      rw [UInt32.toNat_ofNat_of_lt' (by show n < 2 ^ 32; omega), slice_length hle]
    · rw [slice_length hle]
      exact h0
    · rw [slice_length hle]
      exact hmax

theorem Segmented.sendOneDatagram (h : Segmented id s) :
    Segmented id s.sendOneDatagram.1 ∧ Sends s.sendOneDatagram := by
  have hqueue := sendOneDatagram_sendQueue s
  refine ⟨⟨(sendOneDatagram_id s).trans h.id_eq, by rw [hqueue]; exact h.queue.dropSent _⟩, ?_⟩
  intro d hd
  rw [sendOneDatagram_sends] at hd
  rw [hqueue]
  cases hf : (dropSent s.sendOffset s.sendDatagramQueue).front? with
  | none =>
    rw [hf] at hd
    cases hd
  | some e =>
    rw [hf] at hd
    obtain rfl : d = e.2 := by simpa using hd
    have hin := OMap.front?_mem hf
    have hk := (h.queue.dropSent s.sendOffset e hin).1
    exact .inr (hk ▸ hin)

/-- The drain loop sends acknowledgements and leaves the sending side alone. -/
theorem drainReceived_acks (s : Stream) :
    (∀ d ∈ sends s.drainReceived.2, d.type = .dataAck ∧ d.payload = []) ∧
      s.drainReceived.1.id = s.id ∧
      s.drainReceived.1.sendDatagramQueue = s.sendDatagramQueue := by
  refine ⟨fun d hd => ?_, ?_⟩
  · rw [eq_ack_of_mem_drainReceived hd]
    exact ⟨rfl, rfl⟩
  · rw [(drainReceived_eq_drainLoop s).1]
    exact ⟨rfl, rfl⟩

theorem Segmented.feed (h : Segmented id s) (d : Datagram) :
    Segmented id (s.feed d).1 ∧ Sends (s.feed d) := by
  have drain : ∀ q : Stream, Segmented id q → Segmented id q.drainReceived.1 ∧
      Sends q.drainReceived := by
    intro q hq
    obtain ⟨hack, hid, hqueue⟩ := drainReceived_acks q
    exact ⟨⟨hid.trans hq.id_eq, by rw [hqueue]; exact hq.queue⟩, fun x hx => .inl (hack x hx)⟩
  unfold Stream.feed
  split
  · exact drain _ ⟨h.id_eq, h.queue⟩
  · exact drain _ ⟨h.id_eq, h.queue⟩
  · have hs : Segmented id { s with sendOffset := d.offset } := ⟨h.id_eq, h.queue⟩
    obtain ⟨h1, hsent⟩ := hs.sendOneDatagram
    obtain ⟨hack, -, hqueue⟩ := drainReceived_acks
      (Stream.sendOneDatagram { s with sendOffset := d.offset }).1
    refine ⟨(drain _ h1).1, fun x hx => ?_⟩
    rcases List.mem_append.1 (by simpa using hx) with hx | hx
    · rw [hqueue]
      exact hsent x hx
    · exact .inl (hack x hx)
  · exact ⟨h, fun x hx => by cases hx⟩

end Stream

/-! ## What a peer sends encrypted -/

namespace Peer
open ShadowTalk.Sml.Stream (Segment Segmented Sends)

/-- The datagrams handed to `send_datagram`, and the ciphers they are encrypted with. -/
def encrypted (es : List PeerEff) : List (Option Bytes × Datagram) :=
  es.filterMap fun | .sendEncrypted layer d => some (layer, d) | _ => none

@[simp] theorem encrypted_append (l m : List PeerEff) :
    encrypted (l ++ m) = encrypted l ++ encrypted m := List.filterMap_append

section
variable (es : List PeerEff)

@[simp] theorem encrypted_nil : encrypted [] = [] := rfl
@[simp] theorem encrypted_send (d : Datagram) : encrypted (.send d :: es) = encrypted es := rfl
@[simp] theorem encrypted_agree (id spub : Bytes) :
    encrypted (.agree id spub :: es) = encrypted es := rfl
@[simp] theorem encrypted_newPeer (id : Bytes) : encrypted (.newPeer id :: es) = encrypted es := rfl
@[simp] theorem encrypted_newStream (id : UInt32) :
    encrypted (.newStream id :: es) = encrypted es := rfl
@[simp] theorem encrypted_delPeer : encrypted (.delPeer :: es) = encrypted es := rfl

end

variable {p q : Peer} {priv : Bytes}

/-- Every stream is filed under its id and queues segments. -/
def Streams (p : Peer) : Prop := ∀ id s, p.streamMap.find? id = some s → Segmented id s

/-- What `p` encrypts with, `d` being a queued segment or an acknowledgement. -/
structure FromStream (p : Peer) (x : Option Bytes × Datagram) : Prop where
  layer : ∃ key, x.1 = some key ∧ p.encryptLayer = some key
  queued : (x.2.type = .dataAck ∧ x.2.payload = []) ∨
    ∃ s, p.streamMap.find? x.2.id = some s ∧ (x.2.offset, x.2) ∈ s.sendDatagramQueue.entries ∧
      Segment x.2.id x.2

/-- `p` has become `q`: its streams are in order, and what it has sent encrypted since
comes from them. -/
def Emits (p q : Peer) : Prop :=
  Streams q ∧ ∃ new, encrypted q.out = encrypted p.out ++ new ∧ ∀ x ∈ new, FromStream q x

theorem Emits.of_quiet (h : Streams q) (ho : encrypted q.out = encrypted p.out) : Emits p q :=
  ⟨h, [], by rw [ho, List.append_nil], List.forall_mem_nil _⟩

theorem Streams.set {id : UInt32} {s : Stream} (h : Streams p) (hs : Segmented id s) {q : Peer}
    (hq : q.streamMap = p.streamMap.set id s) : Streams q := by
  intro i t ht
  rw [hq] at ht
  by_cases hi : i = id
  · rw [hi, OMap.find?_set_self, Option.some.injEq] at ht
    rw [hi, ← ht]
    exact hs
  · exact h i t (by rwa [OMap.find?_set_ne _ _ hi] at ht)

theorem encrypted_streamEff (p : Peer) (id : UInt32) (e : StreamEff) :
    encrypted (p.streamEff id e).out = encrypted p.out ++
      if p.currentState.established then (sends [e]).map (p.encryptLayer, ·) else [] := by
  cases e with
  | recvData payload =>
    show encrypted (p.out ++ [.recvData id payload]) = _
    rw [encrypted_append, sends_recv, List.map_nil, ite_self]
    rfl
  | sendDatagram d =>
    show encrypted (p.sendDatagram d).out = _
    unfold sendDatagram
    split
    · show encrypted (p.out ++ [.sendEncrypted p.encryptLayer d]) = _
      rw [encrypted_append]
      rfl
    · rw [List.append_nil]

theorem encrypted_putStream (p : Peer) (id : UInt32) (r : Stream × List StreamEff) :
    encrypted (p.putStream id r).out = encrypted p.out ++
      if p.currentState.established then (sends r.2).map (p.encryptLayer, ·) else [] := by
  have key : ∀ (es : List StreamEff) (q : Peer),
      encrypted (es.foldl (fun p e => p.streamEff id e) q).out = encrypted q.out ++
        if q.currentState.established then (sends es).map (q.encryptLayer, ·) else [] := by
    intro es
    induction es with
    | nil => exact fun q => by rw [sends_nil, List.map_nil, ite_self, List.append_nil]; rfl
    | cons e es ih =>
      intro q
      have hsame := streamEff_same q id e
      rw [List.foldl_cons, ih, encrypted_streamEff, hsame.currentState, hsame.encryptLayer,
        List.append_assoc]
      have hsends : sends (e :: es) = sends [e] ++ sends es := sends_append [e] es
      rw [hsends, List.map_append]
      split
      · rfl
      · rfl
  exact key r.2 { p with streamMap := p.streamMap.set id r.1 }

/-- A stream has become `r.1`, and what it sent is encrypted. -/
theorem Streams.putStream {id : UInt32} {r : Stream × List StreamEff} (hi : Inv env conf p)
    (h : Streams p) (hs : Segmented id r.1) (hsent : Sends r) : Emits p (p.putStream id r) := by
  have hmap := putStream_streamMap p id r
  refine ⟨h.set hs hmap, _, encrypted_putStream p id r, fun x hx => ?_⟩
  split at hx
  · rename_i he
    obtain ⟨d, hd, rfl⟩ := List.mem_map.1 hx
    simp only [Bits.established, Bool.and_eq_true] at he
    obtain ⟨key, hk⟩ := Option.isSome_iff_exists.1 (hi.encryptLayer he.2)
    refine ⟨⟨key, hk, (putStream_same p id r).encryptLayer.trans hk⟩, ?_⟩
    rcases hsent d hd with hack | hin
    · exact .inl hack
    · have hseg := (hs.queue _ hin).2
      have hid : d.id = id := hseg.id_eq
      refine .inr ⟨r.1, ?_, hin, hid.symm ▸ hseg⟩
      rw [hmap]
      show (p.streamMap.set id r.1).find? d.id = some r.1
      rw [hid, OMap.find?_set_self]
  · cases hx

theorem Streams.feedStream (hi : Inv env conf p) (h : Streams p) (d : Datagram) :
    Emits p (p.feedStream d) := by
  have hfeed : ∀ q s, Inv env conf q → Streams q → q.streamMap.find? d.id = some s →
      Emits q (q.putStream d.id (s.feed d)) := fun q s hq hs hfind =>
    have hseg := (hs d.id s hfind).feed d
    hs.putStream hq hseg.1 hseg.2
  unfold Peer.feedStream
  cases hs : p.streamMap.find? d.id with
  | some s =>
    simp only [hs]
    exact hfeed p s hi h hs
  | none =>
    -- the new stream is filed under its id
    generalize hq : (({ p with streamMap := p.streamMap.insert d.id (.new d.id) } : Peer).put
      (.newStream d.id)) = q
    have hmap : q.streamMap = p.streamMap.insert d.id (.new d.id) := by rw [← hq]; rfl
    have hfind : q.streamMap.find? d.id = some (.new d.id) := by
      rw [hmap, OMap.find?_insert_self, hs]
      rfl
    have hstreams : Streams q := by
      intro i t ht
      rw [hmap] at ht
      by_cases hid : i = d.id
      · rw [hid, OMap.find?_insert_self, hs] at ht
        obtain rfl : Stream.new d.id = t := by simpa using ht
        rw [hid]
        exact Stream.segmented_new d.id
      · exact h i t (by rwa [OMap.find?_insert_ne _ _ hid] at ht)
    have hout : encrypted q.out = encrypted p.out := by
      rw [← hq]
      simp [Peer.put]
    have hinv : Inv env conf q := by
      rw [← hq]
      exact hi.same rfl rfl rfl rfl rfl rfl
    simp only [hfind]
    obtain ⟨h1, new, h2, h3⟩ := hfeed q _ hinv hstreams hfind
    exact ⟨h1, new, by rw [h2, hout], h3⟩

/-- A datagram that is not for a stream: nothing is sent encrypted, and the streams stay or
are dropped. -/
theorem Streams.quiet (h : Streams p) (ho : encrypted q.out = encrypted p.out)
    (hm : q.streamMap = p.streamMap ∨ q.streamMap = .empty) : Emits p q := by
  refine .of_quiet (fun i s hs => ?_) ho
  rcases hm with hm | hm
  · exact h i s (hm ▸ hs)
  · rw [hm] at hs
    cases hs

theorem HelloTake.quiet (ht : HelloTake env conf p d q) :
    encrypted q.out = encrypted p.out ∧ q.streamMap = p.streamMap := by
  cases ht with
  | hello ht =>
    simp [Peer.receivedHelloHandler, Peer.sendAck, Peer.sendRawDatagram, Peer.put]
  | ack ht => exact ⟨rfl, rfl⟩

theorem KeyTake.quiet (ht : KeyTake p d q) :
    encrypted q.out = encrypted p.out ∧ q.streamMap = p.streamMap := by
  cases ht with
  | key ht => simp [Peer.receivedPublicKeyHandler, Peer.sendAck, Peer.sendRawDatagram, Peer.put]
  | ack ht => exact ⟨rfl, rfl⟩
  | hello ht => simp [Peer.sendAck, Peer.sendRawDatagram, Peer.put]
  | ignore => exact ⟨rfl, rfl⟩

theorem Turn.emits {r : Peer × Option Exc} (hi : Inv env conf p) (h : Streams p)
    (ht : Turn env conf p d priv r) : Emits p r.1 := by
  cases ht with
  | hello hp ht hn => exact h.quiet ht.quiet.1 (.inl ht.quiet.2)
  | helloDone hp ht hc =>
    refine h.quiet ?_ (.inl ht.quiet.2)
    rw [← ht.quiet.1]
    simp [Peer.helloCompleteHandler, Peer.sendPublicKey, Peer.sendRawDatagramWithRetransmit,
      Peer.sendRawDatagram, Peer.put]
  | key hp ht hn => exact h.quiet ht.quiet.1 (.inl ht.quiet.2)
  | keyFailed hp ht hc shared key hx =>
    refine h.quiet ?_ (.inl ht.quiet.2)
    rw [← ht.quiet.1]
    simp [agreeing, Peer.put]
  | keyDone hp ht hc v k =>
    refine h.quiet ?_ (.inl ht.quiet.2)
    rw [← ht.quiet.1]
    simp [keyed, agreeing, Peer.sendEcho, Peer.sendRawDatagramWithRetransmit, Peer.sendRawDatagram,
      Peer.put]
  | echoDone hp ht hc => exact h.quiet (by simp [finish, Peer.put]) (.inl rfl)
  | reset hp ht =>
    refine h.quiet ?_ (.inr rfl)
    simp [restarted, Peer.receivedHelloHandler, Peer.sendAck, Peer.sendHello, Peer.reset,
      Peer.sendRawDatagramWithRetransmit, Peer.sendRawDatagram, Peer.put]
  | answer hp ht =>
    exact h.quiet (by simp [Peer.receivedEchoHandler, Peer.sendRawDatagram, Peer.put]) (.inl rfl)
  | keyAgain hp ht =>
    exact h.quiet (by simp [Peer.sendAck, Peer.sendRawDatagram, Peer.put]) (.inl rfl)
  | abort hp ht => exact h.quiet (by simp [Peer.put]) (.inl rfl)
  | feed hp ht payload => exact h.feedStream hi _
  | undecryptable hp ht => exact h.quiet rfl (.inl rfl)
  | ignore hp he => exact h.quiet rfl (.inl rfl)

theorem Streams.handle {e : Event} {r : Peer × Option Exc} (hi : Inv env conf p) (h : Streams p)
    (hr : p.handle env conf e = some r) : Emits p r.1 := by
  cases e with
  | recv d priv =>
    simp only [Peer.handle, Option.some.injEq] at hr
    subst hr
    exact (turn_of_recv hi d priv).emits hi h
  | expire =>
    simp only [Peer.handle, Option.map_eq_some_iff] at hr
    obtain ⟨t, -, rfl⟩ := hr
    exact h.quiet rfl (.inl rfl)
  | retransmit =>
    simp only [Peer.handle, Option.map_eq_some_iff] at hr
    obtain ⟨t, -, rfl⟩ := hr
    exact h.quiet (by simp [Peer.sendRawDatagramWithRetransmit, Peer.sendRawDatagram, Peer.put])
      (.inl rfl)
  | addStream id =>
    simp only [Peer.handle, Option.some.injEq] at hr
    subst hr
    unfold Peer.addStream
    cases hs : p.streamMap.find? id with
    | some s => exact h.quiet rfl (.inl rfl)
    | none =>
      refine .of_quiet (fun i s ht => ?_) rfl
      change (p.streamMap.insert id (.new id)).find? i = some s at ht
      by_cases hid : i = id
      · rw [hid, OMap.find?_insert_self, hs] at ht
        obtain rfl : Stream.new id = s := by simpa using ht
        rw [hid]
        exact Stream.segmented_new id
      · exact h i s (by rwa [OMap.find?_insert_ne _ _ hid] at ht)
  | delStream id =>
    simp only [Peer.handle, Option.some.injEq] at hr
    subst hr
    refine .of_quiet (fun i s ht => ?_) rfl
    change (p.streamMap.erase id).find? i = some s at ht
    exact h i s (OMap.find?_eq_some.2 (OMap.mem_erase.1 (OMap.find?_eq_some.1 ht)).1)
  | send id data =>
    simp only [Peer.handle, Option.map_eq_some_iff] at hr
    obtain ⟨s, hs, rfl⟩ := hr
    have hseg := ((h id s hs).enqueue data).sendOneDatagram
    exact h.putStream hi hseg.1 hseg.2
  | streamExpire id =>
    simp only [Peer.handle, Option.bind_eq_some_iff, Option.map_eq_some_iff] at hr
    obtain ⟨s, hs, s', hx, rfl⟩ := hr
    simp only [Stream.expire, Option.map_eq_some_iff] at hx
    obtain ⟨t, -, rfl⟩ := hx
    exact .of_quiet (h.set (s := { s with timer := t }) ⟨(h id s hs).id_eq, (h id s hs).queue⟩ rfl) rfl
  | streamRetransmit id =>
    simp only [Peer.handle, Option.bind_eq_some_iff, Option.map_eq_some_iff] at hr
    obtain ⟨s, hs, r', hx, rfl⟩ := hr
    simp only [Stream.retransmit, Option.map_eq_some_iff] at hx
    obtain ⟨f, -, rfl⟩ := hx
    have hseg : Segmented id { s with timer := f.2 } := ⟨(h id s hs).id_eq, (h id s hs).queue⟩
    exact h.putStream hi hseg.sendOneDatagram.1 hseg.sendOneDatagram.2

theorem streams_inductive (env : Env) (conf : Configuration) :
    (lts env conf).Inductive fun p => Inv env conf p ∧ Streams p where
  init := forall_eq.2 ⟨inv_new env conf, fun id s hs => by cases hs⟩
  step p e p' h hs := by
    obtain ⟨r, hr, rfl⟩ := Option.map_eq_some_iff.1 hs
    exact ⟨h.1.handle hr, (h.2.handle h.1 hr).1⟩

theorem FromStream.payload_le {x : Option Bytes × Datagram} (h : FromStream p x) :
    x.2.payload.length ≤ Stream.segmentMax := by
  rcases h.queued with ⟨-, hp⟩ | ⟨s, -, -, hseg⟩
  · rw [hp]
    exact Nat.zero_le _
  · exact hseg.le

theorem FromStream.lossless {x : Option Bytes × Datagram} (hc : Cfb env) (h : FromStream p x) :
    ∃ key, x.1 = some key ∧ p.encryptLayer = some key ∧ Lossless env key x.2 ∧
      (x.2.payload = [] → ∀ iv, x.2.encryptPayload env key iv = x.2) := by
  obtain ⟨key, hx, hk⟩ := h.layer
  refine ⟨key, hx, hk, lossless_of_le hc ?_, fun h0 iv => ?_⟩
  · exact h.payload_le
  · rw [Datagram.encryptPayload, if_neg (by simp [h0])]

/-- In every run of a peer, every datagram that is sent encrypted is a segment that is
queued in its stream, or an acknowledgement without payload; with every initialisation
vector its bytes fit the receive buffer, and whoever parses and decrypts them with the
same key has the datagram. Without a payload nothing is encrypted. -/
theorem encrypted_lossless (hc : Cfb env) (h : (lts env conf).Reachable p) {e : Event}
    {r : Peer × Option Exc} (hr : p.handle env conf e = some r) :
    ∃ new, encrypted r.1.out = encrypted p.out ++ new ∧ ∀ x ∈ new, FromStream r.1 x ∧
      ∃ key, x.1 = some key ∧ r.1.encryptLayer = some key ∧ Lossless env key x.2 ∧
        (x.2.payload = [] → ∀ iv, x.2.encryptPayload env key iv = x.2) := by
  obtain ⟨hi, hs⟩ := (streams_inductive env conf).reachable h
  obtain ⟨-, new, hout, hnew⟩ := hs.handle hi hr
  exact ⟨new, hout, fun x hx => ⟨hnew x hx, (hnew x hx).lossless hc⟩⟩

/-- Three bytes on a new stream, right after a handshake. -/
theorem encrypted_lossless_small : ∃ p r key, (lts smallEnv smallConfA).Reachable p ∧
    p.handle smallEnv smallConfA (.send 0 [1, 2, 3]) = some r ∧
    encrypted r.1.out = [(some key, ⟨.data, 0, 0, 3, [1, 2, 3]⟩)] ∧
    Lossless smallEnv key ⟨.data, 0, 0, 3, [1, 2, 3]⟩ := by
  have hrun : ∃ p, (lts smallEnv smallConfA).Reachable p ∧ encrypted p.out = [] ∧
      (p.handle smallEnv smallConfA (.send 0 [1, 2, 3])).any (fun r =>
        decide ((encrypted r.1.out).map Prod.snd = [⟨.data, 0, 0, 3, [1, 2, 3]⟩])) = true :=
    LTS.exists_reachable_of_exec (establishedTrace ++ [.addStream 0]) rfl (by decide +kernel)
  obtain ⟨p, hp, hout, hany⟩ := hrun
  obtain ⟨r, hr, hdec⟩ := (Option.any_eq_true _ _).1 hany
  obtain ⟨new, hnew, hall⟩ := encrypted_lossless cfb_small hp hr
  rw [hout, List.nil_append] at hnew
  obtain ⟨x, hx, hx2⟩ : ∃ x, encrypted r.1.out = [x] ∧ x.2 = ⟨.data, 0, 0, 3, [1, 2, 3]⟩ := by
    obtain ⟨x, l, hl, hx, hnil⟩ := List.map_eq_cons_iff.1 (of_decide_eq_true hdec)
    rw [List.map_eq_nil_iff.1 hnil] at hl
    exact ⟨x, hl, hx⟩
  obtain ⟨-, key, hkey, -, hl, -⟩ := hall x (by rw [← hnew, hx]; exact List.mem_singleton.2 rfl)
  refine ⟨p, r, key, hp, hr, ?_, hx2 ▸ hl⟩
  rw [hx, ← hx2, ← hkey]

end Peer
end ShadowTalk.Sml
