import ShadowTalk.Core.OrderedMap
import ShadowTalk.Core.Timer
import ShadowTalk.Sml.Datagram

/-!
# `stream`: segmentation, retransmission, reassembly

The two ends of a data stream. `send` cuts data into segments of at most 1000
bytes, files them under their offset in `send_datagram_queue_` and sends the
first one; `feed` handles the datagrams of the other end. What a call hands to
its surroundings (`peer_.send_datagram`, `output_ring.put`) is returned as a
list of effects, in order.

* `sendOneDatagram_*`, `mem_segments`: what a call leaves in the send queue and
  what it sends.
* `drainLoop_delivers`: what the drain loop of `feed` delivers from true
  slices of a byte string `S` extends the prefix of `S` that ends at
  `recv_offset_`.
* `drainLoop_advance`, `drainReceived_of_ne`: the loop moves `recv_offset_`
  and acknowledges exactly when the first queued datagram starts there.
-/
namespace ShadowTalk.Sml
open ShadowTalk.Core

/-- What a stream hands to its peer and to `output_ring`. -/
inductive StreamEff where
  /-- `peer_.send_datagram(d)` -/
  | sendDatagram (d : Datagram)
  /-- `output_ring.put(recv_data(peer_.addr(), id_, payload))` -/
  | recvData (payload : Bytes)
  deriving DecidableEq, Repr

/-- The datagrams among the effects. -/
def sends (es : List StreamEff) : List Datagram :=
  es.filterMap fun | .sendDatagram d => some d | .recvData _ => none

/-- The delivered payloads among the effects. -/
def received (es : List StreamEff) : List Bytes :=
  es.filterMap fun | .sendDatagram _ => none | .recvData p => some p

@[simp] theorem sends_nil : sends [] = [] := rfl
@[simp] theorem received_nil : received [] = [] := rfl
@[simp] theorem sends_append (l m : List StreamEff) : sends (l ++ m) = sends l ++ sends m :=
  List.filterMap_append
@[simp] theorem received_append (l m : List StreamEff) :
    received (l ++ m) = received l ++ received m := List.filterMap_append
@[simp] theorem sends_send (d : Datagram) : sends [.sendDatagram d] = [d] := rfl
@[simp] theorem received_send (d : Datagram) : received [.sendDatagram d] = [] := rfl
@[simp] theorem sends_recv (p : Bytes) : sends [.recvData p] = [] := rfl
@[simp] theorem received_recv (p : Bytes) : received [.recvData p] = [p] := rfl

abbrev DatagramMap := OMap UInt32 Datagram

/-- mirrors client/sml/stream.h:32-46; `send_length_` and `recv_length_` are
never used after construction. -/
structure Stream where
  id : UInt32
  sendOffset : UInt32
  recvOffset : UInt32
  sendDatagramQueue : DatagramMap
  recvDatagramQueue : DatagramMap
  timer : Timer Unit
  deriving DecidableEq

namespace Stream

/-- mirrors client/sml/stream.h:37 -/
def segmentMax : Nat := 1000

/-- mirrors client/sml/stream.cpp:5-14 -/
def new (id : UInt32) : Stream := ⟨id, 0, 0, .empty, .empty, .new⟩

/-- The erase loop: datagrams below the acknowledged offset.
mirrors client/sml/stream.cpp:106-109 -/
def dropSent (sendOffset : UInt32) (q : DatagramMap) : DatagramMap :=
  (q.drain (fun _ k _ => if k < sendOffset then some () else none) ()).2

/-- mirrors client/sml/stream.cpp:101-125 -/
def sendOneDatagram (s : Stream) : Stream × List StreamEff :=
  let s := { s with timer := s.timer.cancel,
                    sendDatagramQueue := dropSent s.sendOffset s.sendDatagramQueue }
  match s.sendDatagramQueue.front? with
  | none => (s, [])
  | some (_, toSend) => ({ s with timer := s.timer.asyncWait () }, [.sendDatagram toSend])

/-- mirrors client/sml/stream.cpp:133-140 -/
def ack (s : Stream) : Datagram := ⟨.dataAck, s.id, s.recvOffset, 0, []⟩

/-- One turn of the drain loop. -/
def drainStep (st : UInt32 × List StreamEff) (k : UInt32) (d : Datagram) :
    Option (UInt32 × List StreamEff) :=
  if k = st.1 then some (st.1 + d.length, st.2 ++ [.recvData d.payload]) else none

/-- The second half of `feed`: drain, and acknowledge if anything was drained.
mirrors client/sml/stream.cpp:34-49 -/
def drainReceived (s : Stream) : Stream × List StreamEff :=
  match s.recvDatagramQueue.front? with
  | none => (s, [])
  | some (k, _) =>
    if k = s.recvOffset then
      let r := s.recvDatagramQueue.drain drainStep (s.recvOffset, [])
      let s := { s with recvOffset := r.1.1, recvDatagramQueue := r.2 }
      (s, r.1.2 ++ [.sendDatagram s.ack])
    else (s, [])

/-- mirrors client/sml/stream.cpp:16-50 -/
def feed (s : Stream) (d : Datagram) : Stream × List StreamEff :=
  match d.type with
  | .abort | .data =>
    drainReceived { s with recvDatagramQueue := s.recvDatagramQueue.set d.offset d }
  | .dataAck =>
    let r := sendOneDatagram { s with sendOffset := d.offset }
    let r' := drainReceived r.1
    (r'.1, r.2 ++ r'.2)
  | _ => (s, [])

/-- mirrors client/sml/stream.cpp:79-80 -/
def segLength (leftLength : Nat) : Nat := if segmentMax < leftLength then segmentMax else leftLength

theorem segLength_le (n : Nat) : segLength n ≤ n := by unfold segLength; split <;> omega

theorem segLength_le_max (n : Nat) : segLength n ≤ segmentMax := by unfold segLength; split <;> omega

theorem segLength_pos {n : Nat} (h : 0 < n) : 0 < segLength n := by
  unfold segLength segmentMax; split <;> omega

/-- The segmentation loop.
mirrors client/sml/stream.cpp:76-94 -/
def segments (id : UInt32) (base : Nat) (data : Bytes) (offset : Nat) (q : DatagramMap) :
    DatagramMap :=
  if offset < data.length then
    let n := segLength (data.length - offset)
    let d : Datagram := ⟨.data, id, .ofNat (offset + base), .ofNat n, slice data offset n⟩
    segments id base data (offset + n) (q.insert d.offset d)
  else q
termination_by data.length - offset
decreasing_by have := segLength_pos (n := data.length - offset) (by omega); omega

/-- `current_max_offset`: the offset of the last queued segment, or the
acknowledged offset.
mirrors client/sml/stream.cpp:69-74 -/
def currentMaxOffset (s : Stream) : Nat :=
  match s.sendDatagramQueue.back? with
  | some (k, _) => k.toNat
  | none => s.sendOffset.toNat

/-- mirrors client/sml/stream.cpp:68-94 -/
def enqueue (s : Stream) (data : Bytes) : Stream :=
  { s with sendDatagramQueue := segments s.id s.currentMaxOffset data 0 s.sendDatagramQueue }

/-- mirrors client/sml/stream.cpp:52-99 -/
def send (s : Stream) (data : Bytes) : Stream × List StreamEff := (s.enqueue data).sendOneDatagram

/-- The deadline of the retransmit timer passes. -/
def expire (s : Stream) : Option Stream := s.timer.expire.map fun t => { s with timer := t }

/-- A queued retransmit handler runs (`ec` is success).
mirrors client/sml/stream.cpp:127-131 -/
def retransmit (s : Stream) : Option (Stream × List StreamEff) :=
  s.timer.fire.map fun r => sendOneDatagram { s with timer := r.2 }

/-! ## Queues -/

/-- Every entry is filed under its offset and meets `P`. -/
def Filed (P : Datagram → Prop) (q : DatagramMap) : Prop :=
  ∀ e ∈ q.entries, e.1 = e.2.offset ∧ P e.2

theorem filed_empty (P : Datagram → Prop) : Filed P .empty := by
  intro e he
  cases he

theorem Filed.mono {P Q : Datagram → Prop} {q : DatagramMap} (h : Filed P q)
    (hPQ : ∀ d, P d → Q d) : Filed Q q := fun e he => ⟨(h e he).1, hPQ _ (h e he).2⟩

theorem Filed.and {P Q : Datagram → Prop} {q : DatagramMap} (h : Filed P q) (h' : Filed Q q) :
    Filed (fun d => P d ∧ Q d) q := fun e he => ⟨(h e he).1, (h e he).2, (h' e he).2⟩

theorem Filed.set {P : Datagram → Prop} {q : DatagramMap} (h : Filed P q) {d : Datagram}
    (hd : P d) : Filed P (q.set d.offset d) := by
  intro e he
  rcases OMap.mem_set.1 he with ⟨he, -⟩ | rfl
  · exact h e he
  · exact ⟨rfl, hd⟩

/-! ## `send_one_datagram` -/

theorem mem_dropSent {o : UInt32} {q : DatagramMap} {e : UInt32 × Datagram}
    (h : e ∈ (dropSent o q).entries) : e ∈ q.entries ∧ ¬ e.1 < o := by
  refine ⟨OMap.drain_mem h, fun hlt => ?_⟩
  cases hf : (dropSent o q).front? with
  | none => rw [OMap.front?_eq_none.1 hf] at h; cases h
  | some x =>
    have hx := OMap.drain_stop hf
    have hge : ¬ x.1 < o := by simpa using hx
    rcases OMap.front?_le hf h with rfl | hlt'
    · exact hge hlt
    · exact hge (lt_trans hlt' hlt)

theorem mem_dropSent_of_not_lt {o : UInt32} {q : DatagramMap} {e : UInt32 × Datagram}
    (h : e ∈ q.entries) (he : ¬ e.1 < o) : e ∈ (dropSent o q).entries := by
  refine OMap.drain_induct (fun _ l => e ∈ l) (fun st x es st' hin hf => ?_) h
  rcases List.mem_cons.1 hin with rfl | hin
  · simp [he] at hf
  · exact hin

theorem Filed.dropSent {P : Datagram → Prop} {q : DatagramMap} (h : Filed P q) (o : UInt32) :
    Filed P (dropSent o q) := fun e he => h e (mem_dropSent he).1

theorem dropSent_eq_self {o : UInt32} {q : DatagramMap} (h : ∀ e ∈ q.entries, ¬ e.1 < o) :
    dropSent o q = q := by
  unfold dropSent
  rw [OMap.drain_of_reject]
  intro e he
  rw [if_neg (h e (OMap.front?_mem he))]

section
variable (s : Stream)

@[simp] theorem sendOneDatagram_sendOffset : (sendOneDatagram s).1.sendOffset = s.sendOffset := by
  simp only [sendOneDatagram]; split <;> rfl

@[simp] theorem sendOneDatagram_recvQueue :
    (sendOneDatagram s).1.recvDatagramQueue = s.recvDatagramQueue := by
  simp only [sendOneDatagram]; split <;> rfl

@[simp] theorem sendOneDatagram_recvOffset : (sendOneDatagram s).1.recvOffset = s.recvOffset := by
  simp only [sendOneDatagram]; split <;> rfl

theorem sendOneDatagram_id : (sendOneDatagram s).1.id = s.id := by
  simp only [sendOneDatagram]; split <;> rfl

/-- It delivers nothing. -/
@[simp] theorem sendOneDatagram_received : received (sendOneDatagram s).2 = [] := by
  simp only [sendOneDatagram]; split <;> rfl

@[simp] theorem sendOneDatagram_sendQueue :
    (sendOneDatagram s).1.sendDatagramQueue = dropSent s.sendOffset s.sendDatagramQueue := by
  simp only [sendOneDatagram]; split <;> rfl

/-- It sends the first queued segment that is not acknowledged yet, if any. -/
theorem sendOneDatagram_sends : sends (sendOneDatagram s).2 =
    ((dropSent s.sendOffset s.sendDatagramQueue).front?.map Prod.snd).toList := by
  simp only [sendOneDatagram]
  split
  · rename_i h; rw [h]; rfl
  · rename_i h; rw [h]; rfl

end

theorem sendOneDatagram_mem {s : Stream} {d : Datagram} (h : d ∈ sends (sendOneDatagram s).2) :
    ∃ k, (k, d) ∈ s.sendDatagramQueue.entries := by
  rw [sendOneDatagram_sends] at h
  cases hf : (dropSent s.sendOffset s.sendDatagramQueue).front? with
  | none => rw [hf] at h; simp at h
  | some e =>
    rw [hf] at h
    simp only [Option.map_some, Option.mem_toList, Option.some.injEq] at h
    subst h
    exact ⟨e.1, (mem_dropSent (OMap.front?_mem hf)).1⟩

/-! ## Segmentation -/

/-- Every entry after the segmentation loop was there before or is a segment:
a non-empty slice of at most 1000 bytes, filed under its offset. -/
theorem mem_segments {id : UInt32} {base : Nat} {data : Bytes} {offset : Nat} {q : DatagramMap}
    {e : UInt32 × Datagram} (h : e ∈ (segments id base data offset q).entries) :
    e ∈ q.entries ∨ ∃ o n, 0 < n ∧ n ≤ segmentMax ∧ o + n ≤ data.length ∧
      e = (.ofNat (o + base), ⟨.data, id, .ofNat (o + base), .ofNat n, slice data o n⟩) := by
  induction offset, q using segments.induct id base data with
  | case1 offset q hlt n d ih =>
    rw [segments, if_pos hlt] at h
    rcases ih h with h | h
    · rcases OMap.mem_insert.1 h with h | ⟨-, h⟩
      · exact .inl h
      · have hle : n ≤ data.length - offset := segLength_le _
        exact .inr ⟨offset, n, segLength_pos (by omega), segLength_le_max _, by omega, h⟩
    · exact .inr h
  | case2 offset q hlt =>
    rw [segments, if_neg hlt] at h
    exact .inl h

theorem filed_segments {P : Datagram → Prop} {id : UInt32} {base : Nat} {data : Bytes}
    {q : DatagramMap} (hq : Filed P q)
    (hd : ∀ o n, 0 < n → n ≤ segmentMax → o + n ≤ data.length →
      P ⟨.data, id, .ofNat (o + base), .ofNat n, slice data o n⟩) :
    Filed P (segments id base data 0 q) := by
  intro e he
  rcases mem_segments he with he | ⟨o, n, h0, hmax, hle, rfl⟩
  · exact hq e he
  · exact ⟨rfl, hd o n h0 hmax hle⟩

theorem segments_nil (id : UInt32) (base : Nat) (q : DatagramMap) : segments id base [] 0 q = q := by
  rw [segments, if_neg (by simp)]

/-! ## Reassembly -/

theorem feed_data {s : Stream} {d : Datagram} (h : d.type = .data) :
    feed s d =
      drainReceived { s with recvDatagramQueue := s.recvDatagramQueue.set d.offset d } := by
  simp only [feed, h]

/-- The drain loop of `feed`, started at the received offset. -/
def drainLoop (s : Stream) : (UInt32 × List StreamEff) × DatagramMap :=
  s.recvDatagramQueue.drain drainStep (s.recvOffset, [])

theorem drainStep_eq_some {st st' : UInt32 × List StreamEff} {k : UInt32} {d : Datagram}
    (h : drainStep st k d = some st') :
    k = st.1 ∧ st' = (st.1 + d.length, st.2 ++ [.recvData d.payload]) := by
  unfold drainStep at h
  split at h
  · rename_i hk
    exact ⟨hk, by simpa using h.symm⟩
  · cases h

theorem drainStep_eq_none {st : UInt32 × List StreamEff} {k : UInt32} {d : Datagram}
    (h : drainStep st k d = none) : k ≠ st.1 := by
  unfold drainStep at h
  split at h
  · cases h
  · assumption

section
variable {s : Stream}

theorem drainReceived_of_ne
    (h : ∀ e, s.recvDatagramQueue.front? = some e → e.1 ≠ s.recvOffset) :
    drainReceived s = (s, []) := by
  unfold drainReceived
  split
  · rfl
  · rename_i k d hf
    rw [if_neg (h (k, d) hf)]

theorem drainReceived_of_eq {d : Datagram}
    (h : s.recvDatagramQueue.front? = some (s.recvOffset, d)) :
    drainReceived s =
      ({ s with recvOffset := (drainLoop s).1.1, recvDatagramQueue := (drainLoop s).2 },
        (drainLoop s).1.2 ++ [.sendDatagram ⟨.dataAck, s.id, (drainLoop s).1.1, 0, []⟩]) := by
  simp only [drainReceived, h, if_true]
  rfl

/-- Either the loop does not run, or the first datagram starts at the received
offset. -/
theorem drainReceived_cases (s : Stream) :
    drainReceived s = (s, []) ∨ ∃ d, s.recvDatagramQueue.front? = some (s.recvOffset, d) := by
  cases hf : s.recvDatagramQueue.front? with
  | none => exact .inl (drainReceived_of_ne (by simp [hf]))
  | some e =>
    by_cases hk : e.1 = s.recvOffset
    · exact .inr ⟨e.2, by rw [← hk]⟩
    · exact .inl (drainReceived_of_ne (by simpa [hf] using hk))

/-- An acknowledgement that finds nothing received. -/
theorem feed_dataAck {d : Datagram} (h : d.type = .dataAck)
    (hq : s.recvDatagramQueue = .empty) :
    feed s d = sendOneDatagram { s with sendOffset := d.offset } := by
  simp only [feed, h]
  rw [drainReceived_of_ne]
  · simp
  · intro e he
    rw [sendOneDatagram_recvQueue, hq] at he
    cases he

theorem Filed.drainReceived {P : Datagram → Prop} (h : Filed P s.recvDatagramQueue) :
    Filed P (drainReceived s).1.recvDatagramQueue := by
  rcases drainReceived_cases s with hs | ⟨d, hs⟩
  · rw [hs]; exact h
  · rw [drainReceived_of_eq hs]
    exact fun e he => h e (OMap.drain_mem he)

theorem drainLoop_stop {e : UInt32 × Datagram} (h : (drainLoop s).2.front? = some e) :
    e.1 ≠ (drainLoop s).1.1 := drainStep_eq_none (OMap.drain_stop h)

/-- Whatever `drainReceived` leaves does not start at the received offset. -/
theorem drainReceived_stop {e : UInt32 × Datagram}
    (h : (drainReceived s).1.recvDatagramQueue.front? = some e) :
    e.1 ≠ (drainReceived s).1.recvOffset := by
  rcases drainReceived_cases s with hs | ⟨d, hs⟩
  · rw [hs] at h ⊢
    intro heq
    have hf : s.recvDatagramQueue.front? = some (s.recvOffset, e.2) := by rw [← heq]; exact h
    -- the loop did run, and an acknowledgement is sent: not the empty list
    rw [drainReceived_of_eq hf] at hs
    simp at hs
  · rw [drainReceived_of_eq hs] at h ⊢
    exact drainLoop_stop h

/-- The queue holds a datagram below the received offset. -/
def Blocked (s : Stream) : Prop := ∃ e ∈ s.recvDatagramQueue.entries, e.1 < s.recvOffset

theorem Blocked.set (h : Blocked s) (d : Datagram) :
    Blocked { s with recvDatagramQueue := s.recvDatagramQueue.set d.offset d } := by
  obtain ⟨e, he, hlt⟩ := h
  by_cases hk : e.1 = d.offset
  · exact ⟨(d.offset, d), OMap.mem_set.2 (.inr rfl), hk ▸ hlt⟩
  · exact ⟨e, OMap.mem_set.2 (.inl ⟨he, hk⟩), hlt⟩

/-- It is in front, and the loop never gets past it. -/
theorem Blocked.drainReceived (h : Blocked s) : drainReceived s = (s, []) := by
  obtain ⟨e, he, hlt⟩ := h
  refine drainReceived_of_ne fun x hx => ne_of_lt ?_
  rcases OMap.front?_le hx he with rfl | hxe
  · exact hlt
  · exact lt_trans hxe hlt

theorem drainLoop_sends : sends (drainLoop s).1.2 = [] := by
  refine OMap.drain_induct (f := drainStep) (s := (s.recvOffset, [])) (m := s.recvDatagramQueue)
    (fun st _ => sends st.2 = []) (fun st e es st' hs hf => ?_) rfl
  rw [(drainStep_eq_some hf).2]
  simpa using hs

/-- All that `drainReceived` sends is the acknowledgement of what is received by then. -/
theorem eq_ack_of_mem_drainReceived {d : Datagram} (h : d ∈ sends (drainReceived s).2) :
    d = (drainReceived s).1.ack := by
  rcases drainReceived_cases s with hs | ⟨x, hx⟩
  · rw [hs] at h
    cases h
  · rw [drainReceived_of_eq hx] at h ⊢
    rw [sends_append, drainLoop_sends, List.nil_append, sends_send, List.mem_singleton] at h
    exact h

/-- The payloads that `drainReceived` delivers are those of the loop, and it leaves what
the loop leaves, also if it does not run. -/
theorem drainReceived_eq_drainLoop (s : Stream) :
    (drainReceived s).1 =
        { s with recvOffset := (drainLoop s).1.1, recvDatagramQueue := (drainLoop s).2 } ∧
      received (drainReceived s).2 = received (drainLoop s).1.2 := by
  cases hf : s.recvDatagramQueue.front? with
  | none =>
    have hl : drainLoop s = ((s.recvOffset, []), s.recvDatagramQueue) :=
      OMap.drain_of_reject (by simp [hf])
    rw [hl, drainReceived_of_ne (by simp [hf])]
    exact ⟨rfl, rfl⟩
  | some e =>
    by_cases hk : e.1 = s.recvOffset
    · rw [drainReceived_of_eq (d := e.2) (by rw [hf, ← hk])]
      exact ⟨rfl, by simp⟩
    · have hl : drainLoop s = ((s.recvOffset, []), s.recvDatagramQueue) := by
        refine OMap.drain_of_reject fun x hx => ?_
        rw [hf, Option.some.injEq] at hx
        rw [← hx, drainStep, if_neg hk]
      rw [hl, drainReceived_of_ne (by simpa [hf] using hk)]
      exact ⟨rfl, rfl⟩

/-- Where the datagram behind `d` starts. -/
def segEnd (d : Datagram) : Nat := d.offset.toNat + d.length.toNat

/-- `d` carries the bytes of `S` from its offset on, as many as `length_` says. -/
structure TrueSlice (S : Bytes) (d : Datagram) : Prop where
  payload : d.payload = slice S d.offset.toNat d.length.toNat
  size : d.payload.length = d.length.toNat

theorem TrueSlice.le {S : Bytes} {d : Datagram} (h : TrueSlice S d)
    (ho : d.offset.toNat ≤ S.length) : d.offset.toNat + d.length.toNat ≤ S.length := by
  have hsize := h.size
  rw [h.payload, slice, List.length_take, List.length_drop] at hsize
  omega

/-- The drained payloads continue the prefix of `S` that ends at the received
offset. -/
theorem drainLoop_delivers {S : Bytes} (hS : S.length < 2 ^ 32)
    (hq : Filed (TrueSlice S) s.recvDatagramQueue) (ho : s.recvOffset.toNat ≤ S.length) :
    S.take s.recvOffset.toNat ++ (received (drainLoop s).1.2).flatten =
      S.take (drainLoop s).1.1.toNat ∧ (drainLoop s).1.1.toNat ≤ S.length := by
  have key := OMap.drain_induct (f := drainStep) (s := (s.recvOffset, []))
    (m := s.recvDatagramQueue)
    (fun st l => (∀ e ∈ l, e ∈ s.recvDatagramQueue.entries) ∧
      S.take s.recvOffset.toNat ++ (received st.2).flatten = S.take st.1.toNat ∧
      st.1.toNat ≤ S.length)
    (fun st e es st' ⟨hm, heq, hle⟩ hf => ?_) ⟨fun e he => he, by simp, ho⟩
  · exact ⟨key.2.1, key.2.2⟩
  · obtain ⟨hkey, hslice⟩ := hq e (hm e List.mem_cons_self)
    obtain ⟨hk, rfl⟩ := drainStep_eq_some hf
    have hoff : e.2.offset = st.1 := hkey.symm.trans hk
    have hrange := hslice.le (by rw [hoff]; exact hle)
    have hpay := hslice.payload
    rw [hoff] at hrange hpay
    have hnext : (st.1 + e.2.length).toNat = st.1.toNat + e.2.length.toNat := by
      rw [UInt32.toNat_add, Nat.mod_eq_of_lt (by omega)]
    refine ⟨fun x hx => hm x (List.mem_cons_of_mem _ hx), ?_, by rw [hnext]; exact hrange⟩
    rw [hnext, ← take_append_slice, ← heq, hpay]
    simp

/-- The loop stops where it started, or where a datagram ends. -/
theorem drainLoop_offset {P : Nat → Prop}
    (hq : Filed (fun d => segEnd d < 2 ^ 32 ∧ P (segEnd d)) s.recvDatagramQueue)
    (ho : P s.recvOffset.toNat) : P (drainLoop s).1.1.toNat := by
  refine (OMap.drain_induct (f := drainStep) (s := (s.recvOffset, [])) (m := s.recvDatagramQueue)
    (fun st l => (∀ e ∈ l, e ∈ s.recvDatagramQueue.entries) ∧ P st.1.toNat)
    (fun st e es st' ⟨hm, hst⟩ hstep => ?_) ⟨fun e he => he, ho⟩).2
  obtain ⟨hkey, hlt, hend⟩ := hq e (hm e List.mem_cons_self)
  obtain ⟨hk, rfl⟩ := drainStep_eq_some hstep
  have hoff : e.2.offset = st.1 := hkey.symm.trans hk
  refine ⟨fun x hx => hm x (List.mem_cons_of_mem _ hx), ?_⟩
  unfold segEnd at hlt hend
  rw [hoff] at hlt hend
  show P (st.1 + e.2.length).toNat
  rw [UInt32.toNat_add, Nat.mod_eq_of_lt hlt]
  exact hend

/-- With the first datagram at the received offset, the loop moves past it. -/
theorem drainLoop_advance {n : Nat} (hn : n < 2 ^ 32)
    (hq : Filed (fun d => 0 < d.length.toNat ∧ d.offset.toNat + d.length.toNat ≤ n)
      s.recvDatagramQueue)
    {d : Datagram} (hf : s.recvDatagramQueue.front? = some (s.recvOffset, d)) :
    s.recvOffset.toNat < (drainLoop s).1.1.toNat ∧ (drainLoop s).1.1.toNat ≤ n := by
  have key := OMap.drain_induct (f := drainStep) (s := (s.recvOffset, []))
    (m := s.recvDatagramQueue)
    (fun st l => (∀ e ∈ l, e ∈ s.recvDatagramQueue.entries) ∧
      (st.1 = s.recvOffset ∧ l = s.recvDatagramQueue.entries ∨
        s.recvOffset.toNat < st.1.toNat ∧ st.1.toNat ≤ n))
    (fun st e es st' ⟨hm, hst⟩ hstep => ?_) ⟨fun e he => he, .inl ⟨rfl, rfl⟩⟩
  · rcases key.2 with ⟨h1, h2⟩ | h
    · -- nothing was drained: but the loop accepts the first entry
      have hfront : (drainLoop s).2.front? = some (s.recvOffset, d) := by
        rw [← hf, OMap.front?, OMap.front?]
        exact congrArg List.head? h2
      exact absurd h1.symm (drainLoop_stop hfront)
    · exact h
  · obtain ⟨hkey, hpos, hrange⟩ := hq e (hm e List.mem_cons_self)
    obtain ⟨hk, rfl⟩ := drainStep_eq_some hstep
    have hoff : e.2.offset = st.1 := hkey.symm.trans hk
    rw [hoff] at hrange
    have hnext : (st.1 + e.2.length).toNat = st.1.toNat + e.2.length.toNat := by
      rw [UInt32.toNat_add, Nat.mod_eq_of_lt (by omega)]
    refine ⟨fun x hx => hm x (List.mem_cons_of_mem _ hx), .inr ?_⟩
    rw [hnext]
    rcases hst with ⟨h1, -⟩ | h1
    · rw [h1] at hrange ⊢; omega
    · omega

end

end Stream
end ShadowTalk.Sml
