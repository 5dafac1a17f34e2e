import ShadowTalk.Core.Unpacker

/-!
# Messages and their framing

The TLS server and the WebSocket server read a byte stream in chunks and hand
each one to `MessageCtx::Feed`, which returns the messages that are now complete.
An exception ends the reading.

msgpack is a parameter (`Msgpack`): an incremental parser of objects, and the
conversion of an object to a `Message`.

* `feed_ok`, `feed_error`: `Feed` scans what is buffered and what has arrived; a
  failure anywhere in it is an exception.
* `framing_of_clean`: exactly when the chunk with which the stream fails completes
  no message, every message before the failure is returned; and exactly the
  streams that fail behind a message are returned differently when cut
  differently.
* `framing_lost`: a message and a bad byte in one chunk.
-/
namespace ShadowTalk.Whisper
open ShadowTalk.Core

/-- An enumeration over `uint8_t`, packed as a number: bytes without a name are
`unknown` (byte `11 + k`).
mirrors common/Message.hpp:14-44 -/
inductive MessageType where
  | invalid
  | nop
  | ping
  | pong
  | listPeers
  | peerList
  | sendMsg
  | peerMsg
  | wantToConnect
  | connectKey
  | connectedBy
  | unknown (k : Fin 245)
  deriving DecidableEq, Repr

/-- mirrors common/Message.hpp:46-57 -/
structure PeerAddr where
  ip : Bytes
  port : UInt16
  deriving DecidableEq, Repr

/-- mirrors common/Message.hpp:61-74 -/
structure Message where
  type : MessageType
  dst : Bytes
  src : Bytes
  bytes : Bytes
  peerList : List PeerAddr
  toConnect : PeerAddr
  deriving DecidableEq, Repr

/-- A default-constructed message. -/
def Message.new : Message := ⟨.invalid, [], [], [], [], ⟨[], 0⟩⟩

/-- mirrors common/Message.hpp:76-82 -/
def Message.createMessage (type : MessageType) (data : Bytes) : Message :=
  { Message.new with type := type, bytes := data }

/-- The exceptions of the servers. `emptyFront` is the undefined behaviour of
`front()` on an empty list. -/
inductive Exc where
  /-- `msgpack::parse_error` -/
  | parseError
  /-- `msgpack::type_error` -/
  | typeError
  /-- `nlohmann::json::type_error` -/
  | jsonTypeError
  /-- `boost::system::system_error` -/
  | systemError
  | emptyFront
  deriving DecidableEq, Repr

/-- `msgpack::unpacker` and `as<Message>()`, `none` where it throws. -/
structure Msgpack (Obj : Type) where
  unpacker : Unpacker UInt8 Obj
  asMessage : Obj → Option Message

/-- `unp` is what the unpacker has buffered and not consumed.
mirrors common/Message.hpp:92-93 -/
structure MessageCtx where
  unp : Bytes
  deriving DecidableEq, Repr

section
variable {Obj : Type} (mp : Msgpack Obj)

/-- The loop of `Feed`. An object that is no message has been consumed when
`as<Message>()` throws; every object takes a byte, which bounds the rounds. -/
def MessageCtx.feedLoop : Nat → Bytes → List Message → MessageCtx × Except Exc (List Message)
  | 0, unp, ret => (⟨unp⟩, .ok ret)
  | fuel + 1, unp, ret =>
    match mp.unpacker.next unp with
    | .incomplete => (⟨unp⟩, .ok ret)
    | .bad => (⟨unp⟩, .error .parseError)
    | .item o rest =>
      match mp.asMessage o with
      | none => (⟨rest⟩, .error .typeError)
      | some m => feedLoop fuel rest (ret ++ [m])

/-- mirrors common/Message.hpp:95-111 -/
def MessageCtx.feed (ctx : MessageCtx) (bytes : Bytes) :
    MessageCtx × Except Exc (List Message) :=
  let unp := ctx.unp ++ bytes
  MessageCtx.feedLoop mp (unp.length + 1) unp []

/-- The callers: one chunk after the other, until `Feed` throws. The messages
returned, and the context, `none` after an exception.
mirrors server/server.cpp:133-187, ws/WebSocket.cpp:101-126 -/
def MessageCtx.feedAll : MessageCtx → List Bytes → List Message × Option MessageCtx
  | ctx, [] => ([], some ctx)
  | ctx, c :: cs =>
    match ctx.feed mp c with
    | (_, .error _) => ([], none)
    | (ctx, .ok ms) => (ms ++ (feedAll ctx cs).1, (feedAll ctx cs).2)

/-- The messages that a stream, cut into chunks, is returned as. -/
def returned (cs : List Bytes) : List Message := (MessageCtx.feedAll mp ⟨[]⟩ cs).1

/-! ## What the stream means -/

/-- The parser of messages: an object of another shape is malformed. -/
def Msgpack.messageUnpacker : Unpacker UInt8 Message := mp.unpacker.filterMap mp.asMessage

/-- The messages of a stream, up to the first bad object. -/
def Msgpack.messages (S : Bytes) : List Message := (mp.messageUnpacker.scan S).1

/-- The stream has a bad object behind its messages. -/
def Msgpack.Fails (S : Bytes) : Prop := (mp.messageUnpacker.scan S).2 = none

instance (S : Bytes) : Decidable (mp.Fails S) := inferInstanceAs (Decidable (_ = none))

/-- The chunk with which the stream fails completes no message. -/
def Msgpack.Clean (cs : List Bytes) : Prop :=
  ∀ pre c post, cs = pre ++ c :: post → ¬ mp.Fails pre.flatten → mp.Fails (pre.flatten ++ c) →
    mp.messages (pre.flatten ++ c) = mp.messages pre.flatten

end

variable {Obj : Type} {mp : Msgpack Obj} {ctx : MessageCtx} {bytes : Bytes} {ms : List Message}
  {r : Bytes}

/-- The loop collects the messages of the scan, and throws when it fails. -/
theorem feedLoop_eq (mp : Msgpack Obj) {fuel : Nat} {b : Bytes} (hlen : b.length < fuel)
    (ret : List Message) :
    match mp.messageUnpacker.scan b with
    | (ms, some r) => MessageCtx.feedLoop mp fuel b ret = (⟨r⟩, .ok (ret ++ ms))
    | (_, none) => ∃ c x, MessageCtx.feedLoop mp fuel b ret = (c, .error x) ∧
        (x = .parseError ∨ x = .typeError) := by
  induction fuel generalizing b ret with
  | zero => omega
  | succ fuel ih =>
    unfold MessageCtx.feedLoop
    cases hx : mp.unpacker.next b with
    | incomplete =>
      rw [Msgpack.messageUnpacker, Unpacker.scan_incomplete (Unpacker.filterMap_incomplete hx)]
      simp
    | bad =>
      rw [Msgpack.messageUnpacker, Unpacker.scan_bad (Unpacker.filterMap_bad hx)]
      exact ⟨_, _, rfl, .inl rfl⟩
    | item o rest =>
      have hlt := Unpacker.length_of_item hx
      cases hm : mp.asMessage o with
      | none =>
        rw [Msgpack.messageUnpacker, Unpacker.scan_bad (Unpacker.filterMap_none hx hm)]
        simp only [hm]
        exact ⟨_, _, rfl, .inr rfl⟩
      | some m =>
        have hitem : mp.messageUnpacker.next b = .item m rest := Unpacker.filterMap_item hx hm
        rw [Unpacker.scan_item hitem]
        have hrest := ih (b := rest) (by omega) (ret ++ [m])
        simp only [hm]
        cases hs : mp.messageUnpacker.scan rest with
        | mk ms o' =>
          rw [hs] at hrest
          cases o' with
          | none => exact hrest
          | some r => simpa using hrest

theorem feed_ok (ctx : MessageCtx) (h : mp.messageUnpacker.scan (ctx.unp ++ bytes) = (ms, some r)) :
    ctx.feed mp bytes = (⟨r⟩, .ok ms) := by
  have hloop := feedLoop_eq mp (Nat.lt_succ_self (ctx.unp ++ bytes).length) []
  rw [h] at hloop
  exact hloop

theorem feed_error (ctx : MessageCtx)
    (h : mp.messageUnpacker.scan (ctx.unp ++ bytes) = (ms, none)) :
    ∃ c x, ctx.feed mp bytes = (c, .error x) ∧ (x = .parseError ∨ x = .typeError) := by
  have hloop := feedLoop_eq mp (Nat.lt_succ_self (ctx.unp ++ bytes).length) []
  rw [h] at hloop
  exact hloop

/-! ## Chunks -/

/-- As long as the stream does not fail, the chunks are returned as the stream
is. -/
theorem feedAll_ok (ctx : MessageCtx) {cs : List Bytes}
    (hn : mp.messageUnpacker.next ctx.unp = .incomplete)
    (h : mp.messageUnpacker.scan (ctx.unp ++ cs.flatten) = (ms, some r)) :
    MessageCtx.feedAll mp ctx cs = (ms, some ⟨r⟩) := by
  induction cs generalizing ctx ms with
  | nil =>
    rw [List.flatten_nil, List.append_nil, Unpacker.scan_incomplete hn, Prod.mk.injEq,
      Option.some.injEq] at h
    obtain ⟨rfl, rfl⟩ := h
    rfl
  | cons c cs ih =>
    rw [List.flatten_cons, ← List.append_assoc] at h
    cases hs : mp.messageUnpacker.scan (ctx.unp ++ c) with
    | mk ms' o =>
      cases o with
      | none =>
        rw [Unpacker.scan_failed hs] at h
        cases h
      | some r' =>
        rw [Unpacker.scan_append hs, Prod.mk.injEq] at h
        obtain ⟨rfl, hr⟩ := h
        have hrest := ih ⟨r'⟩ (Unpacker.next_rest hs) (Prod.ext rfl hr)
        unfold MessageCtx.feedAll
        simp only [feed_ok ctx hs, hrest]

/-- The chunk with which the stream fails returns nothing. -/
theorem feedAll_failed {pre post : List Bytes} {c : Bytes}
    (h : MessageCtx.feedAll mp ctx pre = (ms, some ⟨r⟩))
    (hf : (mp.messageUnpacker.scan (r ++ c)).2 = none) :
    MessageCtx.feedAll mp ctx (pre ++ c :: post) = (ms, none) := by
  induction pre generalizing ctx ms with
  | nil =>
    cases h
    obtain ⟨c', x, he, -⟩ := feed_error ⟨r⟩ (Prod.ext rfl hf)
    rw [List.nil_append]
    unfold MessageCtx.feedAll
    simp only [he]
  | cons d pre ih =>
    rw [List.cons_append]
    unfold MessageCtx.feedAll at h ⊢
    cases hd : ctx.feed mp d with
    | mk ctx' res =>
      cases res with
      | error x =>
        rw [hd] at h
        cases h
      | ok ms' =>
        simp only [hd, Prod.mk.injEq] at h ⊢
        obtain ⟨rfl, hr⟩ := h
        rw [ih (Prod.ext rfl hr)]
        exact ⟨rfl, rfl⟩

theorem next_nil : mp.messageUnpacker.next (⟨[]⟩ : MessageCtx).unp = .incomplete :=
  mp.messageUnpacker.nil

theorem scan_of_not_fails {S : Bytes} (h : ¬ mp.Fails S) :
    ∃ r, mp.messageUnpacker.scan S = (mp.messages S, some r) := by
  obtain ⟨r, hr⟩ := Option.ne_none_iff_exists'.1 h
  exact ⟨r, Prod.ext rfl hr⟩

theorem scan_of_fails {S : Bytes} (h : mp.Fails S) :
    mp.messageUnpacker.scan S = (mp.messages S, none) := Prod.ext rfl h

theorem fails_append {S : Bytes} (h : mp.Fails S) (T : Bytes) : mp.Fails (S ++ T) := by
  show (mp.messageUnpacker.scan (S ++ T)).2 = none
  rw [Unpacker.scan_failed (scan_of_fails h) T]

theorem messages_append {S : Bytes} (h : mp.Fails S) (T : Bytes) :
    mp.messages (S ++ T) = mp.messages S := by
  show (mp.messageUnpacker.scan (S ++ T)).1 = _
  rw [Unpacker.scan_failed (scan_of_fails h) T]

theorem returned_ok {cs : List Bytes} (h : ¬ mp.Fails cs.flatten) :
    returned mp cs = mp.messages cs.flatten := by
  obtain ⟨r, hr⟩ := scan_of_not_fails h
  exact congrArg Prod.fst (feedAll_ok ⟨[]⟩ next_nil hr)

/-- The messages of the chunks before the failing one are returned. -/
theorem returned_failed {pre post : List Bytes} {c : Bytes} (h : ¬ mp.Fails pre.flatten)
    (hf : mp.Fails (pre.flatten ++ c)) :
    returned mp (pre ++ c :: post) = mp.messages pre.flatten := by
  obtain ⟨r, hr⟩ := scan_of_not_fails h
  have hf' : (mp.messageUnpacker.scan (r ++ c)).2 = none := by
    have := scan_of_fails hf
    rw [Unpacker.scan_append hr] at this
    exact congrArg Prod.snd this
  exact congrArg Prod.fst (feedAll_failed (feedAll_ok ⟨[]⟩ next_nil hr) hf')

/-- A stream that fails does so with one of its chunks. -/
theorem exists_failing (pre cs : List Bytes) (h : ¬ mp.Fails pre.flatten)
    (hf : mp.Fails (pre ++ cs).flatten) :
    ∃ us c post, pre ++ cs = us ++ c :: post ∧ ¬ mp.Fails us.flatten ∧
      mp.Fails (us.flatten ++ c) := by
  induction cs generalizing pre with
  | nil =>
    rw [List.append_nil] at hf
    exact absurd hf h
  | cons c cs ih =>
    by_cases hc : mp.Fails (pre.flatten ++ c)
    · exact ⟨pre, c, cs, rfl, h, hc⟩
    · have hsplit : pre ++ c :: cs = (pre ++ [c]) ++ cs := by simp
      rw [hsplit] at hf ⊢
      exact ih _ (by simpa using hc) hf

/-- There is only one such chunk. -/
theorem failing_unique {us vs post post' : List Bytes} {c d : Bytes}
    (he : us ++ c :: post = vs ++ d :: post') (hu : ¬ mp.Fails us.flatten)
    (hv : ¬ mp.Fails vs.flatten) (hc : mp.Fails (us.flatten ++ c))
    (hd : mp.Fails (vs.flatten ++ d)) : us = vs ∧ c = d := by
  -- a failing chunk that comes first would make the beginning of the other cut fail
  have key : ∀ {xs ys : List Bytes} {x : Bytes} {q q' : List Bytes} {y : Bytes},
      xs ++ x :: q = ys ++ y :: q' → mp.Fails (xs.flatten ++ x) → ¬ mp.Fails ys.flatten →
      ¬ xs.length < ys.length := by
    intro xs ys x q q' y he hx hy hlt
    have hfront : xs ++ [x] <+: ys := by
      have h1 : xs ++ [x] <+: ys ++ y :: q' := by
        rw [← he]
        exact ⟨q, by simp⟩
      have h2 : ys <+: ys ++ y :: q' := List.prefix_append _ _
      refine List.prefix_of_prefix_length_le h1 h2 ?_
      rw [List.length_append, List.length_singleton]
      omega
    obtain ⟨t, rfl⟩ := hfront
    apply hy
    have := fails_append hx t.flatten
    simpa using this
  have hlen : us.length = vs.length := by
    have h1 := key he hc hv
    have h2 := key he.symm hd hu
    omega
  obtain ⟨hus, hrest⟩ := List.append_inj he hlen
  rw [List.cons.injEq] at hrest
  exact ⟨hus, hrest.1⟩

/-- Every message before the failure is returned exactly if the failing chunk
completes none. -/
theorem returned_eq_iff (cs : List Bytes) :
    returned mp cs = mp.messages cs.flatten ↔ mp.Clean cs := by
  by_cases hf : mp.Fails cs.flatten
  · obtain ⟨us, c, post, rfl, hu, hc⟩ := exists_failing [] cs
      (by simp [Msgpack.Fails]) (by simpa using hf)
    rw [returned_failed hu hc, List.flatten_append, List.flatten_cons, ← List.append_assoc,
      messages_append hc]
    constructor
    · intro h vs d post' he hv hd
      obtain ⟨rfl, rfl⟩ := failing_unique he hu hv hc hd
      exact h.symm
    · intro h
      exact (h us c post rfl hu hc).symm
  · refine iff_of_true (returned_ok hf) ?_
    intro pre c post he hp hc
    apply absurd _ hf
    rw [he, List.flatten_append, List.flatten_cons, ← List.append_assoc]
    exact fails_append hc _

/-- Cut into single bytes, a stream loses nothing. -/
theorem clean_singletons (S : Bytes) : mp.Clean (S.map fun x => [x]) := by
  intro pre c post he hp hc
  obtain ⟨us, vs, rfl, rfl, hc'⟩ := List.map_eq_append_iff.1 he
  obtain ⟨x, vs', rfl, rfl, -⟩ := List.map_eq_cons_iff.1 hc'
  obtain ⟨r, hr⟩ := scan_of_not_fails hp
  show (mp.messageUnpacker.scan _).1 = _
  rw [Unpacker.scan_concat hr hc]

theorem flatten_singletons (S : Bytes) : (S.map fun x => [x]).flatten = S := by
  induction S with
  | nil => rfl
  | cons x S ih => simp [ih]

/-- Every message before the first bad object is returned exactly if the chunk
with which the stream fails completes no message. All cuts of a stream are
returned alike exactly if it does not fail, or has no message before its
failure. -/
theorem framing_of_clean {Obj : Type} (mp : Msgpack Obj) :
    (∀ cs, returned mp cs = mp.messages cs.flatten ↔ mp.Clean cs) ∧
    ∀ S, (∀ cs cs', cs.flatten = S → cs'.flatten = S → returned mp cs = returned mp cs') ↔
      (mp.Fails S → mp.messages S = []) := by
  refine ⟨returned_eq_iff, fun S => ⟨fun h hf => ?_, fun h cs cs' hcs hcs' => ?_⟩⟩
  · have hone : returned mp [S] = [] := by
      have hlost : returned mp ([] ++ S :: []) = mp.messages [] :=
        returned_failed (by simp [Msgpack.Fails]) (by simpa using hf)
      simpa [Msgpack.messages] using hlost
    have hall : returned mp (S.map fun x => [x]) = mp.messages (S.map fun x => [x]).flatten :=
      (returned_eq_iff _).2 (clean_singletons S)
    rw [flatten_singletons] at hall
    rw [← hall, ← hone]
    exact h _ _ (flatten_singletons S) (by simp)
  · by_cases hf : mp.Fails S
    · -- what is returned are messages before the failure, and there are none
      have none : ∀ cs : List Bytes, cs.flatten = S → returned mp cs = [] := by
        intro cs hcs
        obtain ⟨us, c, post, rfl, hu, hc⟩ := exists_failing [] cs
          (by simp [Msgpack.Fails]) (by simpa [hcs] using hf)
        rw [returned_failed hu hc]
        obtain ⟨r, hr⟩ := scan_of_not_fails hu
        have hmsgs := h hf
        rw [← hcs, List.flatten_append, List.flatten_cons] at hmsgs
        have happ := congrArg Prod.fst (Unpacker.scan_append hr (c ++ post.flatten))
        change mp.messages _ = _ at happ
        rw [hmsgs] at happ
        exact (List.append_eq_nil_iff.1 happ.symm).1
      rw [none cs hcs, none cs' hcs']
    · rw [returned_ok (by rw [hcs]; exact hf), returned_ok (by rw [hcs']; exact hf), hcs, hcs']

/-! ## A few messages -/

/-- A `PING`, as msgpack packs it: the array of `type`, `src`, `dst`, `bytes`, `peer_list` and
`to_connect`.
mirrors common/Message.hpp:71 -/
def pingBytes : Bytes := [150, 2, 160, 160, 196, 0, 144, 146, 160, 0]

/-- A `LIST_PEERS`. -/
def listPeersBytes : Bytes := [150, 4, 160, 160, 196, 0, 144, 146, 160, 0]

/-- A `SEND_MSG` of `h` to `1.1.1.1:1`; its `src` is empty. -/
def sendMsgBytes : Bytes :=
  [150, 6, 160, 169, 49, 46, 49, 46, 49, 46, 49, 58, 49, 196, 1, 104, 144, 146, 160, 0]

def sendMsgMessage : Message :=
  { Message.createMessage .sendMsg [104] with dst := [49, 46, 49, 46, 49, 46, 49, 58, 49] }

/-- These three, and the number 5, which is no message. -/
def smallCode : Unpacker.Code UInt8 (Option Message) where
  words := [(pingBytes, some (.createMessage .ping [])),
    (listPeersBytes, some (.createMessage .listPeers [])),
    (sendMsgBytes, some sendMsgMessage), ([5], none)]
  nonempty := by decide
  free := by decide

/-- msgpack, for streams of these objects. -/
def smallMsgpack : Msgpack (Option Message) where
  unpacker := .ofCode smallCode
  asMessage o := o

/-- Counterexample: a `PING` and the byte `0xc1`, which msgpack never uses. In one
chunk the `PING` is lost; in two it is returned. -/
theorem framing_lost :
    returned smallMsgpack [pingBytes ++ [193]] = [] ∧
    returned smallMsgpack [pingBytes, [193]] = [.createMessage .ping []] ∧
    [pingBytes ++ [193]].flatten = [pingBytes, [193]].flatten := by
  decide +kernel

end ShadowTalk.Whisper
