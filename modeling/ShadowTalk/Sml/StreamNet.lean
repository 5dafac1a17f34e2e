import ShadowTalk.Core.LTS
import ShadowTalk.Sml.Stream

/-!
# One stream between two peers, over a lossy network

Stream `a` sends, stream `b` (same id, on the other peer) receives. Both peers
are established with one key, so a datagram arrives at `stream::feed` as it left
`send_datagram`. A datagram that was sent may be delivered any number of times,
in any order, at any later time, or never.

## Results

* `inv_inductive`: with fewer than 2^32 bytes sent, all offsets stay inside the
  sent bytes, and the receiver's queue never starts at the offset it waits for.
* `delivered_prefix_of_sendClean`: if every `send` is made when all earlier
  bytes are acknowledged, what `b` delivers is a prefix of what was sent.
  Without it the bytes of a `send` can be lost (`delivered_not_prefix`): the
  offset of the last queued segment is taken for the end of the queue.
* `round_removes_head_iff`: a lossless retransmission round removes the head of
  the send queue exactly when the head is what `b` waits for and `b` holds no
  datagram below it. A repeated datagram is not acknowledged (`round_stuck`).
* `wedged_run`: it also stays in front of the receiver's queue, and from then on
  nothing is delivered or acknowledged any more.
-/
namespace ShadowTalk.Sml
open ShadowTalk.Core
open ShadowTalk.Sml.Stream (Filed)

structure StreamNet where
  a : Stream
  b : Stream
  /-- the arguments of the `send` calls so far -/
  sent : List Bytes
  /-- every datagram `a` has sent -/
  toB : List Datagram
  /-- every datagram `b` has sent -/
  toA : List Datagram
  /-- what `b` has put into `output_ring` -/
  delivered : List Bytes
  deriving DecidableEq

namespace StreamNet

inductive Label where
  /-- `stream::send` on `a` -/
  | send (data : Bytes)
  /-- the deadline of `a`'s retransmit timer passes -/
  | expire
  /-- the oldest queued `retransmit` handler of `a` runs -/
  | retransmit
  /-- a copy of `d` reaches `b` -/
  | toB (d : Datagram)
  /-- a copy of `d` reaches `a` -/
  | toA (d : Datagram)
  deriving DecidableEq

def start (id : UInt32) : StreamNet := ⟨.new id, .new id, [], [], [], []⟩

/-- `a` has become `r.1` and had the effects `r.2`. -/
def putA (s : StreamNet) (r : Stream × List StreamEff) : StreamNet :=
  { s with a := r.1, toB := s.toB ++ sends r.2 }

/-- `data` is handed to `send`. -/
def grow (s : StreamNet) (data : Bytes) : StreamNet := { s with sent := s.sent ++ [data] }

/-- `b` has become `r.1` and had the effects `r.2`. -/
def putB (s : StreamNet) (r : Stream × List StreamEff) : StreamNet :=
  { s with b := r.1, toA := s.toA ++ sends r.2, delivered := s.delivered ++ received r.2 }

def step (s : StreamNet) : Label → Option StreamNet
  | .send data => some ((s.grow data).putA (s.a.send data))
  | .expire => s.a.expire.map fun a => { s with a := a }
  | .retransmit => s.a.retransmit.map s.putA
  | .toB d => if d ∈ s.toB then some (s.putB (s.b.feed d)) else none
  | .toA d => if d ∈ s.toA then some (s.putA (s.a.feed d)) else none

def lts (id : UInt32) : LTS StreamNet Label := .ofFn (· = start id) step

/-- The bytes sent so far. -/
def total (s : StreamNet) : Nat := s.sent.flatten.length

/-- A `send` (of anything) is made when everything sent before is acknowledged
and nothing is queued. -/
def SendClean (s : StreamNet) : Label → Prop
  | .send data => data = [] ∨ s.a.sendDatagramQueue = .empty ∧ s.a.sendOffset.toNat = s.total
  | _ => True

instance (s : StreamNet) (l : Label) : Decidable (SendClean s l) := by
  cases l <;> simp only [SendClean] <;> infer_instance

theorem total_grow (s : StreamNet) (data : Bytes) :
    (s.grow data).total = s.total + data.length := by
  simp [total, grow]

theorem sent_grow (s : StreamNet) (data : Bytes) :
    (s.grow data).sent.flatten = s.sent.flatten ++ data := by
  simp [grow]

@[simp] theorem putA_total (s : StreamNet) (r : Stream × List StreamEff) :
    (s.putA r).total = s.total := rfl

theorem step_total {s s' : StreamNet} {l : Label} (h : step s l = some s') : s.total ≤ s'.total := by
  cases l with
  | send data =>
    simp only [step, Option.some.injEq] at h
    subst h
    rw [putA_total, total_grow]
    exact Nat.le_add_right _ _
  | expire =>
    simp only [step, Option.map_eq_some_iff] at h
    obtain ⟨a, -, rfl⟩ := h
    exact Nat.le_refl _
  | retransmit =>
    simp only [step, Option.map_eq_some_iff] at h
    obtain ⟨r, -, rfl⟩ := h
    exact Nat.le_refl _
  | toB d =>
    simp only [step] at h
    split at h
    · cases h; exact Nat.le_refl _
    · cases h
  | toA d =>
    simp only [step] at h
    split at h
    · cases h; exact Nat.le_refl _
    · cases h

/-! ## The steps -/

/-- What a step can be, once `b` is only sent data and `a` only acknowledgements. -/
inductive Move (s : StreamNet) : Label → StreamNet → Prop
  | send (data : Bytes) :
    Move s (.send data) ((s.grow data).putA (s.a.enqueue data).sendOneDatagram)
  | expire (t : Timer Unit) : Move s .expire { s with a := { s.a with timer := t } }
  | retransmit (t : Timer Unit) :
    Move s .retransmit (s.putA (Stream.sendOneDatagram { s.a with timer := t }))
  | toB {d : Datagram} (hd : d ∈ s.toB) :
    Move s (.toB d) (s.putB (Stream.drainReceived
      { s.b with recvDatagramQueue := s.b.recvDatagramQueue.set d.offset d }))
  | toA {d : Datagram} (hd : d ∈ s.toA) :
    Move s (.toA d) (s.putA (Stream.sendOneDatagram { s.a with sendOffset := d.offset }))

theorem move_of_step {s s' : StreamNet} {l : Label} (h : step s l = some s')
    (hB : ∀ d ∈ s.toB, d.type = .data) (hA : ∀ d ∈ s.toA, d.type = .dataAck)
    (hrecv : s.a.recvDatagramQueue = .empty) : Move s l s' := by
  cases l with
  | send data =>
    simp only [step, Option.some.injEq] at h
    subst h
    exact .send data
  | expire =>
    simp only [step, Stream.expire, Option.map_map, Option.map_eq_some_iff] at h
    obtain ⟨t, -, rfl⟩ := h
    exact .expire t
  | retransmit =>
    simp only [step, Stream.retransmit, Option.map_map, Option.map_eq_some_iff] at h
    obtain ⟨r, -, rfl⟩ := h
    exact .retransmit r.2
  | toB d =>
    simp only [step] at h
    split at h
    · rename_i hd
      cases h
      rw [Stream.feed_data (hB d hd)]
      exact .toB hd
    · cases h
  | toA d =>
    simp only [step] at h
    split at h
    · rename_i hd
      cases h
      rw [Stream.feed_dataAck (hA d hd) hrecv]
      exact .toA hd
    · cases h

/-! ## What is held and in flight -/

/-- Every data datagram queued or in flight meets `P`. -/
structure Carries (P : Datagram → Prop) (s : StreamNet) : Prop where
  sendQueue : Filed P s.a.sendDatagramQueue
  toB : ∀ d ∈ s.toB, P d
  recvQueue : Filed P s.b.recvDatagramQueue

variable {s s' : StreamNet} {P Q : Datagram → Prop}

theorem Carries.mono (h : Carries P s) (hPQ : ∀ d, P d → Q d) : Carries Q s :=
  ⟨h.sendQueue.mono hPQ, fun d hd => hPQ d (h.toB d hd), h.recvQueue.mono hPQ⟩

theorem Carries.putA (h : Carries P s) {a : Stream} (hq : Filed P a.sendDatagramQueue) :
    Carries P (s.putA a.sendOneDatagram) where
  sendQueue := by
    show Filed P a.sendOneDatagram.1.sendDatagramQueue
    rw [Stream.sendOneDatagram_sendQueue]
    exact hq.dropSent _
  toB d hd := by
    rcases List.mem_append.1 hd with hd | hd
    · exact h.toB d hd
    · obtain ⟨k, hk⟩ := Stream.sendOneDatagram_mem hd
      exact (hq _ hk).2
  recvQueue := h.recvQueue

theorem Carries.putB (h : Carries P s) {d : Datagram} (hd : P d) :
    Carries P (s.putB (Stream.drainReceived
      { s.b with recvDatagramQueue := s.b.recvDatagramQueue.set d.offset d })) :=
  ⟨h.sendQueue, h.toB, (h.recvQueue.set hd).drainReceived⟩

/-! ## Offsets -/

/-- A non-empty data datagram inside the first `n` bytes. -/
structure Seg (n : Nat) (d : Datagram) : Prop where
  type : d.type = .data
  pos : 0 < d.length.toNat
  le : d.offset.toNat + d.length.toNat ≤ n

theorem Seg.mono {m n : Nat} {d : Datagram} (h : Seg m d) (hle : m ≤ n) : Seg n d :=
  ⟨h.type, h.pos, h.le.trans hle⟩

theorem seg_segment {id : UInt32} {base o n total : Nat} {data : Bytes} (ht : total < 2 ^ 32)
    (h0 : 0 < n) (hle : o + n ≤ data.length) (hbase : base + data.length ≤ total) :
    Seg total ⟨.data, id, .ofNat (o + base), .ofNat n, slice data o n⟩ where
  type := rfl
  pos := by
    show 0 < (UInt32.ofNat n).toNat
    rw [UInt32.toNat_ofNat_of_lt' (by show n < 2 ^ 32; omega)]
    exact h0
  le := by
    show (UInt32.ofNat (o + base)).toNat + (UInt32.ofNat n).toNat ≤ total
    rw [UInt32.toNat_ofNat_of_lt' (by show o + base < 2 ^ 32; omega),
      UInt32.toNat_ofNat_of_lt' (by show n < 2 ^ 32; omega)]
    omega

structure Inv (s : StreamNet) : Prop where
  carries : Carries (Seg s.total) s
  acks : ∀ d ∈ s.toA, d.type = .dataAck ∧ d.offset.toNat ≤ s.total
  aRecv : s.a.recvDatagramQueue = .empty
  sendOffset : s.a.sendOffset.toNat ≤ s.total
  recvOffset : s.b.recvOffset.toNat ≤ s.total
  unacked : ∀ e ∈ s.a.sendDatagramQueue.entries, ¬ e.1 < s.a.sendOffset
  stop : ∀ e, s.b.recvDatagramQueue.front? = some e → e.1 ≠ s.b.recvOffset

theorem inv_start (id : UInt32) : Inv (start id) where
  carries := ⟨Stream.filed_empty _, List.forall_mem_nil _, Stream.filed_empty _⟩
  acks _ h := by cases h
  aRecv := rfl
  sendOffset := Nat.zero_le _
  recvOffset := Nat.zero_le _
  unacked _ h := by cases h
  stop _ h := by cases h

theorem Inv.move_of_step {l : Label} (h : Inv s) (hs : step s l = some s') : Move s l s' :=
  StreamNet.move_of_step hs (fun d hd => (h.carries.toB d hd).type) (fun d hd => (h.acks d hd).1)
    h.aRecv

/-- The next segment starts inside the sent bytes. -/
theorem Inv.currentMaxOffset_le (h : Inv s) : s.a.currentMaxOffset ≤ s.total := by
  unfold Stream.currentMaxOffset
  split
  · rename_i k d hb
    obtain ⟨hk, hd⟩ := h.carries.sendQueue _ (OMap.back?_mem hb)
    rw [show k = d.offset from hk]
    exact (Nat.le_add_right _ _).trans hd.le
  · exact h.sendOffset

/-- `a` changes its queue or its offset and then runs `send_one_datagram`. -/
theorem Inv.putA (h : Inv s) {a : Stream} (hq : Filed (Seg s.total) a.sendDatagramQueue)
    (hr : a.recvDatagramQueue = .empty) (ho : a.sendOffset.toNat ≤ s.total) :
    Inv (s.putA a.sendOneDatagram) where
  carries := h.carries.putA hq
  acks := h.acks
  aRecv := (Stream.sendOneDatagram_recvQueue a).trans hr
  sendOffset := by
    show a.sendOneDatagram.1.sendOffset.toNat ≤ s.total
    rw [Stream.sendOneDatagram_sendOffset]
    exact ho
  recvOffset := h.recvOffset
  unacked e he := by
    change e ∈ a.sendOneDatagram.1.sendDatagramQueue.entries at he
    show ¬ e.1 < a.sendOneDatagram.1.sendOffset
    rw [Stream.sendOneDatagram_sendQueue] at he
    rw [Stream.sendOneDatagram_sendOffset]
    exact (Stream.mem_dropSent he).2
  stop := h.stop

theorem Inv.grow (h : Inv s) (data : Bytes) : Inv (s.grow data) := by
  have hle : s.total ≤ (s.grow data).total := by rw [total_grow]; omega
  have hc := h.carries.mono fun d hd => hd.mono hle
  exact ⟨⟨hc.sendQueue, hc.toB, hc.recvQueue⟩,
    fun d hd => ⟨(h.acks d hd).1, (h.acks d hd).2.trans hle⟩, h.aRecv, h.sendOffset.trans hle,
    h.recvOffset.trans hle, h.unacked, h.stop⟩

/-- Where `b` stands after a data datagram. -/
theorem Inv.drain (h : Inv s) (ht : s.total < 2 ^ 32) {d : Datagram} (hd : d ∈ s.toB) :
    (Stream.drainReceived { s.b with
      recvDatagramQueue := s.b.recvDatagramQueue.set d.offset d }).1.recvOffset.toNat ≤
        s.total := by
  have hq := h.carries.recvQueue.set (h.carries.toB d hd)
  rcases Stream.drainReceived_cases
    { s.b with recvDatagramQueue := s.b.recvDatagramQueue.set d.offset d } with hr | ⟨x, hx⟩
  · rw [hr]
    exact h.recvOffset
  · rw [Stream.drainReceived_of_eq hx]
    exact (Stream.drainLoop_advance ht (hq.mono fun y hy => ⟨hy.pos, hy.le⟩) hx).2

theorem Inv.putB (h : Inv s) (ht : s.total < 2 ^ 32) {d : Datagram} (hd : d ∈ s.toB) :
    Inv (s.putB (Stream.drainReceived
      { s.b with recvDatagramQueue := s.b.recvDatagramQueue.set d.offset d })) where
  carries := h.carries.putB (h.carries.toB d hd)
  acks x hx := by
    rcases List.mem_append.1 hx with hx | hx
    · exact h.acks x hx
    · rw [Stream.eq_ack_of_mem_drainReceived hx]
      exact ⟨rfl, h.drain ht hd⟩
  aRecv := h.aRecv
  sendOffset := h.sendOffset
  recvOffset := h.drain ht hd
  unacked := h.unacked
  stop _ he := Stream.drainReceived_stop he

theorem Inv.step {l : Label} (h : Inv s) (hs : step s l = some s') (ht : s'.total < 2 ^ 32) :
    Inv s' := by
  have hmono := step_total hs
  cases h.move_of_step hs with
  | send data =>
    refine (h.grow data).putA (Stream.filed_segments ?_ fun o n h0 _ hle => ?_) h.aRecv ?_
    · exact (h.grow data).carries.sendQueue
    · refine seg_segment ht h0 hle ?_
      rw [total_grow]
      exact Nat.add_le_add_right h.currentMaxOffset_le _
    · exact (h.grow data).sendOffset
  | expire t =>
    exact ⟨⟨h.carries.1, h.carries.2, h.carries.3⟩, h.acks, h.aRecv, h.sendOffset, h.recvOffset,
      h.unacked, h.stop⟩
  | retransmit t => exact h.putA h.carries.sendQueue h.aRecv h.sendOffset
  | toB hd => exact h.putB (Nat.lt_of_le_of_lt hmono ht) hd
  | toA hd => exact h.putA h.carries.sendQueue h.aRecv (h.acks _ hd).2

theorem inv_inductive (id : UInt32) :
    (lts id).Inductive fun s => s.total < 2 ^ 32 → Inv s where
  init := forall_eq.2 fun _ => inv_start id
  step _ _ _ h hs ht := (h (Nat.lt_of_le_of_lt (step_total hs) ht)).step hs ht

/-! ## In-order delivery -/

/-- `d` carries the bytes of `S` at its offset. -/
def Cut (S : Bytes) (d : Datagram) : Prop := d.payload = slice S d.offset.toNat d.length.toNat

structure SliceInv (s : StreamNet) : Prop where
  carries : Carries (Cut s.sent.flatten) s
  delivered : s.delivered.flatten = s.sent.flatten.take s.b.recvOffset.toNat

theorem Cut.append {S : Bytes} {d : Datagram} (h : Cut S d)
    (hle : d.offset.toNat + d.length.toNat ≤ S.length) (T : Bytes) : Cut (S ++ T) d := by
  unfold Cut
  rw [slice_append hle]
  exact h

/-- A slice of `T` at offset `o` is a slice of `S ++ T` at offset `|S| + o`. -/
theorem cut_segment {id : UInt32} {S T : Bytes} {o n : Nat} (ht : (S ++ T).length < 2 ^ 32)
    (hle : o + n ≤ T.length) :
    Cut (S ++ T) ⟨.data, id, .ofNat (o + S.length), .ofNat n, slice T o n⟩ := by
  rw [List.length_append] at ht
  show slice T o n = slice (S ++ T) (UInt32.ofNat (o + S.length)).toNat (UInt32.ofNat n).toNat
  rw [UInt32.toNat_ofNat_of_lt' (by show o + S.length < 2 ^ 32; omega),
    UInt32.toNat_ofNat_of_lt' (by show n < 2 ^ 32; omega), Nat.add_comm, slice_append_right]

theorem Inv.cut_grow (h : Inv s) (hc : Carries (Cut s.sent.flatten) s) (data : Bytes) :
    Carries (Cut (s.grow data).sent.flatten) (s.grow data) := by
  have hg := sent_grow s data
  have happ : ∀ d, Seg s.total d → Cut s.sent.flatten d → Cut (s.grow data).sent.flatten d :=
    fun d hd hd' => hg ▸ hd'.append hd.le data
  exact ⟨(h.carries.sendQueue.and hc.sendQueue).mono fun d hd => happ d hd.1 hd.2,
    fun d hd => happ d (h.carries.toB d hd) (hc.toB d hd),
    (h.carries.recvQueue.and hc.recvQueue).mono fun d hd => happ d hd.1 hd.2⟩

theorem SliceInv.send (hi : Inv s) (h : SliceInv s) {data : Bytes}
    (hc : SendClean s (.send data)) (ht : (s.grow data).total < 2 ^ 32) :
    SliceInv ((s.grow data).putA (s.a.enqueue data).sendOneDatagram) := by
  have hg := sent_grow s data
  refine ⟨(hi.cut_grow h.carries data).putA ?_, ?_⟩
  · rcases hc with rfl | ⟨hq, ho⟩
    · show Filed _ (Stream.segments _ _ [] 0 _)
      rw [Stream.segments_nil]
      exact (hi.cut_grow h.carries []).sendQueue
    · refine Stream.filed_segments (hi.cut_grow h.carries data).sendQueue fun o n _ _ hle => ?_
      have hbase : s.a.currentMaxOffset = s.sent.flatten.length := by
        rw [Stream.currentMaxOffset, hq]
        exact ho
      rw [hbase, hg]
      exact cut_segment (by rw [← hg]; exact ht) hle
  · show s.delivered.flatten = (s.grow data).sent.flatten.take s.b.recvOffset.toNat
    rw [hg, take_append_left hi.recvOffset, h.delivered]

theorem SliceInv.putB (hi : Inv s) (h : SliceInv s) (ht : s.total < 2 ^ 32) {d : Datagram}
    (hd : d ∈ s.toB) :
    SliceInv (s.putB (Stream.drainReceived
      { s.b with recvDatagramQueue := s.b.recvDatagramQueue.set d.offset d })) := by
  refine ⟨h.carries.putB (h.carries.toB d hd), ?_⟩
  have hq := (hi.carries.recvQueue.set (hi.carries.toB d hd)).and
    (h.carries.recvQueue.set (h.carries.toB d hd))
  obtain ⟨hst, hrec⟩ := Stream.drainReceived_eq_drainLoop
    { s.b with recvDatagramQueue := s.b.recvDatagramQueue.set d.offset d }
  have hdel := (Stream.drainLoop_delivers
    (s := { s.b with recvDatagramQueue := s.b.recvDatagramQueue.set d.offset d }) ht
    (hq.mono fun y hy => ⟨hy.2, by rw [hy.2]; exact slice_length hy.1.le⟩) hi.recvOffset).1
  simp only [StreamNet.putB, hst, hrec, List.flatten_append, h.delivered]
  exact hdel

theorem SliceInv.step {l : Label} (hi : Inv s) (h : SliceInv s) (hs : step s l = some s')
    (hc : SendClean s l) (ht : s'.total < 2 ^ 32) : SliceInv s' := by
  have ht' := Nat.lt_of_le_of_lt (step_total hs) ht
  cases hi.move_of_step hs with
  | send data => exact SliceInv.send hi h hc ht
  | expire t => exact ⟨⟨h.carries.sendQueue, h.carries.toB, h.carries.recvQueue⟩, h.delivered⟩
  | retransmit t => exact ⟨h.carries.putA h.carries.sendQueue, h.delivered⟩
  | toB hd => exact SliceInv.putB hi h ht' hd
  | toA hd => exact ⟨h.carries.putA h.carries.sendQueue, h.delivered⟩

theorem sliceInv_inductive (id : UInt32) :
    ((lts id).guard SendClean).Inductive fun s => s.total < 2 ^ 32 → Inv s ∧ SliceInv s where
  init s hs ht := by
    have hs' : s = start id := hs
    refine ⟨(inv_inductive id).init s hs ht, ?_⟩
    rw [hs']
    exact ⟨⟨Stream.filed_empty _, List.forall_mem_nil _, Stream.filed_empty _⟩, rfl⟩
  step s l s' h hs ht :=
    have ⟨hi, hsl⟩ := h (Nat.lt_of_le_of_lt (step_total hs.1) ht)
    ⟨hi.step hs.1 ht, hsl.step hi hs.1 hs.2 ht⟩

/-- In every run whose `send`s are all made on an acknowledged stream, what `b`
delivers is a prefix of what `a` was given. -/
theorem delivered_prefix_of_sendClean {id : UInt32} {s : StreamNet}
    (h : ((lts id).guard SendClean).Reachable s) (ht : s.total < 2 ^ 32) :
    s.delivered.flatten <+: s.sent.flatten := by
  rw [((sliceInv_inductive id).reachable h ht).2.delivered]
  exact List.take_prefix _ _

/-- Two `send`s, the first one delivered and acknowledged before the second. -/
def cleanTrace : List Label :=
  [.send [1, 2], .toB ⟨.data, 0, 0, 2, [1, 2]⟩, .toB ⟨.data, 0, 0, 2, [1, 2]⟩,
    .toA ⟨.dataAck, 0, 2, 0, []⟩, .send [3]]

theorem delivered_prefix_cleanTrace : ∃ s : StreamNet, s.sent = [[1, 2], [3]] ∧
    s.delivered = [[1, 2]] ∧ s.delivered.flatten <+: s.sent.flatten := by
  have hrun : ∃ s, ((lts 0).guard SendClean).Reachable s ∧ s.sent = [[1, 2], [3]] ∧
      s.delivered = [[1, 2]] ∧ s.total < 2 ^ 32 :=
    LTS.exists_reachable_of_execGuard cleanTrace rfl (by decide +kernel)
  obtain ⟨s, hr, hsent, hdel, ht⟩ := hrun
  exact ⟨s, hsent, hdel, delivered_prefix_of_sendClean hr ht⟩

/-- The second `send` is made while the first is unacknowledged. -/
def lossTrace : List Label :=
  [.send [1], .send [2], .toB ⟨.data, 0, 0, 1, [1]⟩, .toA ⟨.dataAck, 0, 1, 0, []⟩, .send [3],
    .toB ⟨.data, 0, 1, 1, [3]⟩]

/-- Counterexample: 1, 2, 3 are sent, 1, 3 are delivered. -/
theorem delivered_not_prefix : ∃ s : StreamNet, (lts 0).Reachable s ∧ s.total < 2 ^ 32 ∧
    s.sent = [[1], [2], [3]] ∧ s.delivered = [[1], [3]] ∧
    ¬ s.delivered.flatten <+: s.sent.flatten :=
  LTS.exists_reachable_of_exec lossTrace rfl (by decide +kernel)

/-! ## A lossless round -/

/-- Deliver datagrams to `feed`, one after the other. -/
def feedAll (s : Stream) : List Datagram → Stream × List StreamEff
  | [] => (s, [])
  | d :: ds =>
    let r := s.feed d
    let r' := feedAll r.1 ds
    (r'.1, r.2 ++ r'.2)

/-- `a` runs `send_one_datagram`, `b` is fed what it sends, and `a` what `b`
answers. -/
def round (s : StreamNet) : StreamNet :=
  let r := s.a.sendOneDatagram
  let rb := feedAll s.b (sends r.2)
  let ra := feedAll r.1 (sends rb.2)
  ((s.putA r).putB rb).putA ra

theorem Inv.sendOneDatagram_sends (h : Inv s) {k : UInt32} {d : Datagram}
    (hf : s.a.sendDatagramQueue.front? = some (k, d)) : sends s.a.sendOneDatagram.2 = [d] := by
  rw [Stream.sendOneDatagram_sends, Stream.dropSent_eq_self h.unacked, hf]
  rfl

/-- The answer of `b` to the datagram at the head of the send queue: an
acknowledgement beyond it, or nothing. -/
theorem Inv.feed_head (h : Inv s) (ht : s.total < 2 ^ 32) {k : UInt32} {d : Datagram}
    (hf : s.a.sendDatagramQueue.front? = some (k, d)) :
    (k = s.b.recvOffset ∧ ∀ e ∈ s.b.recvDatagramQueue.entries, ¬ e.1 < s.b.recvOffset) ∧
        (∃ o, sends (s.b.feed d).2 = [⟨.dataAck, s.b.id, o, 0, []⟩] ∧ k < o) ∨
      ¬ (k = s.b.recvOffset ∧ ∀ e ∈ s.b.recvDatagramQueue.entries, ¬ e.1 < s.b.recvOffset) ∧
        sends (s.b.feed d).2 = [] := by
  obtain ⟨hkd, hseg⟩ := h.carries.sendQueue _ (OMap.front?_mem hf)
  have hk : k = d.offset := hkd
  rw [Stream.feed_data hseg.type]
  by_cases hc : k = s.b.recvOffset ∧ ∀ e ∈ s.b.recvDatagramQueue.entries, ¬ e.1 < s.b.recvOffset
  · refine .inl ⟨hc, ?_⟩
    have hfront : (s.b.recvDatagramQueue.set d.offset d).front? = some (s.b.recvOffset, d) := by
      rw [← hk, hc.1]
      exact OMap.front?_set_of_le d hc.2
    have hadv := Stream.drainLoop_advance
      (s := { s.b with recvDatagramQueue := s.b.recvDatagramQueue.set d.offset d }) ht
      ((h.carries.recvQueue.set hseg).mono fun y hy => ⟨hy.pos, hy.le⟩) hfront
    rw [Stream.drainReceived_of_eq hfront]
    refine ⟨_, ?_, UInt32.lt_iff_toNat_lt.2 (hc.1 ▸ hadv.1)⟩
    simp [Stream.drainLoop_sends]
  · refine .inr ⟨hc, ?_⟩
    rw [Stream.drainReceived_of_ne]
    · rfl
    · intro e he heq
      -- the first entry starts at the received offset: it is `d`, and nothing is below it
      change e.1 = s.b.recvOffset at heq
      change (s.b.recvDatagramQueue.set d.offset d).front? = some e at he
      obtain ⟨hle, hall⟩ := OMap.front?_set_le he
      have hlow : ∀ x ∈ s.b.recvDatagramQueue.entries, ¬ x.1 < s.b.recvOffset := fun x hx =>
        not_lt.2 (heq ▸ hall x hx)
      rcases OMap.mem_set.1 (OMap.front?_mem he) with ⟨hmem, -⟩ | rfl
      · -- an old entry at the received offset was the first one before as well
        cases hb : s.b.recvDatagramQueue.front? with
        | none => rw [OMap.front?_eq_none.1 hb] at hmem; cases hmem
        | some x =>
          have hne := h.stop x hb
          rcases OMap.front?_le hb hmem with rfl | hlt
          · exact hne heq
          · exact hlow x (OMap.front?_mem hb) (heq ▸ hlt)
      · exact hc ⟨hk.trans heq, hlow⟩

/-- A lossless round removes the head of the send queue exactly when `b` waits
for the head and holds nothing below it. -/
theorem round_removes_head_iff {id : UInt32} {s : StreamNet} {k : UInt32} {d : Datagram}
    (h : (lts id).Reachable s) (ht : s.total < 2 ^ 32)
    (hf : s.a.sendDatagramQueue.front? = some (k, d)) :
    s.round.a.sendDatagramQueue.find? k = none ↔
      k = s.b.recvOffset ∧ ∀ e ∈ s.b.recvDatagramQueue.entries, ¬ e.1 < s.b.recvOffset := by
  have hi := (inv_inductive id).reachable h ht
  have hsend := hi.sendOneDatagram_sends hf
  have hqueue : s.a.sendOneDatagram.1.sendDatagramQueue = s.a.sendDatagramQueue := by
    rw [Stream.sendOneDatagram_sendQueue, Stream.dropSent_eq_self hi.unacked]
  have hround : s.round.a = (feedAll s.a.sendOneDatagram.1 (sends (s.b.feed d).2)).1 := by
    simp [round, hsend, feedAll, putA]
  rcases hi.feed_head ht hf with ⟨hc, o, ho, hlt⟩ | ⟨hc, hno⟩
  · refine iff_of_true ?_ hc
    have hrecv := (Stream.sendOneDatagram_recvQueue s.a).trans hi.aRecv
    rw [hround, ho, feedAll, Stream.feed_dataAck rfl hrecv]
    refine OMap.find?_eq_none.2 fun e he heq => ?_
    rw [feedAll, Stream.sendOneDatagram_sendQueue] at he
    exact (Stream.mem_dropSent he).2 (heq ▸ hlt)
  · refine iff_of_false (fun hnone => ?_) hc
    rw [hround, hno, feedAll, hqueue, OMap.find?_eq_some.2 (OMap.front?_mem hf)] at hnone
    cases hnone

theorem round_removes_head_first : ∃ s : StreamNet, s.sent = [[1, 2]] ∧ s.delivered = [] ∧
    s.round.a.sendDatagramQueue.find? 0 = none := by
  have hrun : ∃ s, (lts 0).Reachable s ∧ s.sent = [[1, 2]] ∧ s.delivered = [] ∧
      s.total < 2 ^ 32 ∧ s.a.sendDatagramQueue.front? = some (0, ⟨.data, 0, 0, 2, [1, 2]⟩) ∧
      0 = s.b.recvOffset ∧ s.b.recvDatagramQueue = .empty :=
    LTS.exists_reachable_of_exec [.send [1, 2]] rfl (by decide +kernel)
  obtain ⟨s, hr, hsent, hdel, ht, hf, ho, hq⟩ := hrun
  refine ⟨s, hsent, hdel, (round_removes_head_iff hr ht hf).2 ⟨ho, ?_⟩⟩
  rw [hq]
  exact List.forall_mem_nil _

/-- Counterexample: the acknowledgement of the only segment is lost, and the
round does not bring another one. -/
theorem round_stuck : ∃ s : StreamNet, (lts 0).Reachable s ∧ s.total < 2 ^ 32 ∧
    s.sent = [[1]] ∧ s.delivered = [[1]] ∧
    s.a.sendDatagramQueue.front? = some (0, ⟨.data, 0, 0, 1, [1]⟩) ∧
    s.round.a.sendDatagramQueue.find? 0 ≠ none :=
  LTS.exists_reachable_of_exec [.send [1], .toB ⟨.data, 0, 0, 1, [1]⟩] rfl (by decide +kernel)

/-! ## A repeated datagram -/

/-- `b` holds a datagram below the offset it waits for. -/
def Wedged (s : StreamNet) : Prop :=
  ∃ e ∈ s.b.recvDatagramQueue.entries, e.1 < s.b.recvOffset

theorem Wedged.move {l : Label} (hw : Wedged s) (hm : Move s l s') :
    Wedged s' ∧ s'.delivered = s.delivered ∧ s'.toA = s.toA := by
  cases hm with
  | send data => exact ⟨hw, rfl, rfl⟩
  | expire t => exact ⟨hw, rfl, rfl⟩
  | retransmit t => exact ⟨hw, rfl, rfl⟩
  | toA hd => exact ⟨hw, rfl, rfl⟩
  | @toB d hd =>
    have hset : Stream.Blocked
        { s.b with recvDatagramQueue := s.b.recvDatagramQueue.set d.offset d } :=
      Stream.Blocked.set hw d
    rw [hset.drainReceived]
    exact ⟨hset, by simp [putB], by simp [putB]⟩

/-- Once `b` holds a datagram below the offset it waits for, no run delivers or
acknowledges anything more. -/
theorem wedged_run {id : UInt32} {ls : List Label} (h : (lts id).Reachable s) (hw : Wedged s)
    (hr : (lts id).Run s ls s') (ht : s'.total < 2 ^ 32) :
    Wedged s' ∧ s'.delivered = s.delivered ∧ s'.toA = s.toA := by
  refine (LTS.run_invariant (M := lts id)
    (P := fun x => x.total < 2 ^ 32 → Inv x ∧ Wedged x ∧ x.delivered = s.delivered ∧ x.toA = s.toA)
    (fun x l x' hx hs hx' => ?_) hr (fun hx => ⟨(inv_inductive id).reachable h hx, hw, rfl, rfl⟩)
    ht).2
  obtain ⟨hi, hwx, hd, ha⟩ := hx (Nat.lt_of_le_of_lt (step_total hs) hx')
  obtain ⟨hw', hd', ha'⟩ := hwx.move (hi.move_of_step hs)
  exact ⟨hi.step hs hx', hw', hd'.trans hd, ha'.trans ha⟩

end StreamNet
end ShadowTalk.Sml
