import ShadowTalk.Sml.AckOrder
import ShadowTalk.Sml.LateCopy

/-!
# When everything can still arrive

With every `send` on an acknowledged stream, what was sent is one cut into segments, and
`b` waits for the start of one of them. That segment is still queued at `a`, and `a` sends
it as soon as the last acknowledgement of `b` arrives.

* `covered_inductive`: all segments that `b` has not delivered are queued at `a`.
* `Covered.advance`: unless `b` is wedged, two datagrams that have been sent already move
  it to a later segment.
* `settles_iff`: the stream can come to rest with everything delivered and acknowledged
  exactly if `b` is not wedged, or has everything already.
-/
namespace ShadowTalk.Sml
open ShadowTalk.Core
open ShadowTalk.Sml.Stream (Filed segEnd segmentList cutDatagrams Tiling Draining fileSegment
  Blocked)

namespace Stream

variable {id : UInt32} {S : Bytes} {C : List Datagram} {q : DatagramMap} {o : UInt32}

/-- The segments of `data`, as a cut. -/
theorem segmentList_eq_cutDatagrams (id : UInt32) (base : Nat) (data : Bytes) (offset : Nat) :
    segmentList id base data offset =
      cutDatagrams id (offset + base) ((segmentList id base data offset).map Datagram.payload) := by
  induction offset using segmentList.induct data with
  | case1 offset hlt ih =>
    have hpay := segmentAt_payload_length id base hlt
    rw [segmentList, if_pos hlt, List.map_cons, cutDatagrams, hpay]
    have hnext : offset + base + segLength (data.length - offset) =
        offset + segLength (data.length - offset) + base := by omega
    rw [hnext, ← ih]
    rfl
  | case2 offset hlt =>
    rw [segmentList, if_neg hlt]
    rfl

theorem segmentList_pieces {base : Nat} {data p : Bytes}
    (hp : p ∈ (segmentList id base data 0).map Datagram.payload) : p ≠ [] := by
  obtain ⟨d, hd, rfl⟩ := List.mem_map.1 hp
  obtain ⟨j, -, hj, rfl⟩ := mem_segmentList (k := 0) hd
  have hpay := segmentAt_payload_length id base hj
  have hpos := segLength_pos (n := data.length - segmentMax * j) (by omega)
  exact List.ne_nil_of_length_pos (by omega)

theorem cutDatagrams_append (id : UInt32) (o : Nat) (cut more : List Bytes) :
    cutDatagrams id o (cut ++ more) =
      cutDatagrams id o cut ++ cutDatagrams id (o + cut.flatten.length) more := by
  induction cut generalizing o with
  | nil => rfl
  | cons p cut ih =>
    rw [List.cons_append, cutDatagrams, ih, cutDatagrams, List.cons_append, List.flatten_cons,
      List.length_append, Nat.add_assoc]

/-- A queue that holds nothing below `o` is one that the drain loop may have left there. -/
theorem draining_of_above (hq : Filed (· ∈ C) q) (ha : ∀ e ∈ q.entries, o ≤ e.1)
    (hb : o.toNat = S.length ∨ ∃ x ∈ C, x.offset = o) :
    Draining S C (C.filter (·.offset < o) ++ q.entries.map Prod.snd) o q.entries where
  sorted := q.sorted
  held e he := ⟨(hq e he).1, List.mem_append_right _ (List.mem_map_of_mem he)⟩
  above := ha
  boundary := hb
  come x hx hlt := List.mem_append_left _ (List.mem_filter.2 ⟨hx, decide_eq_true hlt⟩)
  kept x hx := by
    rcases List.mem_append.1 hx with hx | hx
    · exact .inl (of_decide_eq_true (List.mem_filter.1 hx).2)
    · obtain ⟨e, he, rfl⟩ := List.mem_map.1 hx
      exact .inr ⟨e.2, (hq e he).1 ▸ he⟩

/-- From a segment that starts at `recv_offset_` the loop gets to the start of another one,
and leaves nothing below it. -/
theorem drainLoop_above {s : Stream} (T : Tiling S C) (hS : S.length < 2 ^ 32)
    (hq : Filed (· ∈ C) s.recvDatagramQueue)
    (ha : ∀ e ∈ s.recvDatagramQueue.entries, s.recvOffset ≤ e.1)
    (hb : s.recvOffset.toNat = S.length ∨ ∃ x ∈ C, x.offset = s.recvOffset) :
    (∀ e ∈ (drainLoop s).2.entries, (drainLoop s).1.1 ≤ e.1) ∧
      ((drainLoop s).1.1.toNat = S.length ∨ ∃ x ∈ C, x.offset = (drainLoop s).1.1) := by
  have hloop := (draining_of_above hq ha hb).drainLoop T hS fun x hx => by
    rcases List.mem_append.1 hx with hx | hx
    · exact (List.mem_filter.1 hx).1
    · obtain ⟨e, he, rfl⟩ := List.mem_map.1 hx
      exact (hq e he).2
  exact ⟨hloop.above, hloop.boundary⟩

end Stream

namespace StreamNet

variable {s s' : StreamNet} {id : UInt32} {cut : List Bytes} {d : Datagram}

/-- `cut` is what was sent, in segments; all that `b` has not delivered of it is queued. -/
structure Covered (id : UInt32) (cut : List Bytes) (s : StreamNet) : Prop where
  flat : cut.flatten = s.sent.flatten
  pieces : ∀ p ∈ cut, p ≠ []
  id_eq : s.a.id = id
  carries : Carries (· ∈ cutDatagrams id 0 cut) s
  boundary : s.b.recvOffset.toNat = s.total ∨
    ∃ x ∈ cutDatagrams id 0 cut, x.offset = s.b.recvOffset
  queued : ∀ x ∈ cutDatagrams id 0 cut, s.b.recvOffset ≤ x.offset →
    (x.offset, x) ∈ s.a.sendDatagramQueue.entries
  first : ∀ x ∈ cutDatagrams id 0 cut, x.offset = 0 → x ∈ s.toB
  acked : s.b.recvOffset = 0 ∨ ∃ x ∈ s.toA, x.offset = s.b.recvOffset
  acks : ∀ x ∈ s.toA, x.offset ≤ s.b.recvOffset
  sendOffset : s.a.sendOffset ≤ s.b.recvOffset

theorem covered_start (id : UInt32) : Covered id [] (start id) where
  flat := rfl
  pieces := List.forall_mem_nil _
  id_eq := rfl
  carries := ⟨Stream.filed_empty _, List.forall_mem_nil _, Stream.filed_empty _⟩
  boundary := .inl rfl
  queued x hx := by cases hx
  first x hx := by cases hx
  acked := .inl rfl
  acks x hx := by cases hx
  sendOffset := le_refl _

theorem Covered.total (h : Covered id cut s) : cut.flatten.length = s.total := by
  rw [h.flat, StreamNet.total]

theorem Covered.tiling (h : Covered id cut s) (ht : s.total < 2 ^ 32) :
    Tiling cut.flatten (cutDatagrams id 0 cut) :=
  Stream.tiling_cut id h.pieces (h.total.symm ▸ ht)

/-- `a` takes an acknowledged offset that is not beyond what `b` has delivered. -/
theorem Covered.putA (h : Covered id cut s) {a : Stream} (hid : a.id = id)
    (hq : a.sendDatagramQueue = s.a.sendDatagramQueue) (ho : a.sendOffset ≤ s.b.recvOffset) :
    Covered id cut (s.putA a.sendOneDatagram) where
  flat := h.flat
  pieces := h.pieces
  id_eq := (Stream.sendOneDatagram_id a).trans hid
  carries := h.carries.putA (hq ▸ h.carries.sendQueue)
  boundary := h.boundary
  queued x hx hle := by
    show _ ∈ a.sendOneDatagram.1.sendDatagramQueue.entries
    rw [Stream.sendOneDatagram_sendQueue, hq]
    exact Stream.mem_dropSent_of_not_lt (h.queued x hx hle) (not_lt.2 (le_trans ho hle))
  first x hx h0 := List.mem_append_left _ (h.first x hx h0)
  acked := h.acked
  acks := h.acks
  sendOffset := by
    show a.sendOneDatagram.1.sendOffset ≤ _
    rw [Stream.sendOneDatagram_sendOffset]
    exact ho

theorem Covered.send_nil (h : Covered id cut s) :
    Covered id cut ((s.grow []).putA (s.a.enqueue []).sendOneDatagram) := by
  have htotal : (s.grow []).total = s.total := total_grow s []
  have hsent : (s.grow []).sent.flatten = s.sent.flatten := by rw [sent_grow, List.append_nil]
  have hg : Covered id cut (s.grow []) :=
    ⟨h.flat.trans hsent.symm, h.pieces, h.id_eq, ⟨h.carries.1, h.carries.2, h.carries.3⟩,
      htotal.symm ▸ h.boundary, h.queued, h.first, h.acked, h.acks, h.sendOffset⟩
  refine hg.putA (a := s.a.enqueue []) h.id_eq ?_ h.sendOffset
  unfold Stream.enqueue
  rw [Stream.segments_nil]
  rfl

/-- The segments of a `send` on an acknowledged stream go behind the cut. -/
theorem Covered.send (hi : Inv s) (h : Covered id cut s) {data : Bytes} (h0 : data ≠ [])
    (hq : s.a.sendDatagramQueue = .empty) (ho : s.a.sendOffset.toNat = s.total)
    (ht : (s.grow data).total < 2 ^ 32) :
    ∃ cut', Covered id cut' ((s.grow data).putA (s.a.enqueue data).sendOneDatagram) := by
  have htotal := total_grow s data
  have hlen := List.length_pos_of_ne_nil h0
  have hlast := Stream.lastStart_lt hlen
  have hb : s.a.sendOffset.toNat + Stream.lastStart data.length < 2 ^ 32 := by omega
  -- `b` has delivered all that is acknowledged
  have hrecv : s.b.recvOffset.toNat = s.total := by
    have := UInt32.le_iff_toNat_le.1 h.sendOffset
    have := hi.recvOffset
    omega
  have hqueue : (s.a.enqueue data).sendDatagramQueue.entries =
      (segmentList id s.total data 0).map fileSegment := by
    rw [Stream.enqueue_queue hq data, Stream.queued_entries hb, h.id_eq, ho]
  have hkeep : ∀ e ∈ (s.a.enqueue data).sendDatagramQueue.entries, ¬ e.1 < s.a.sendOffset := by
    rw [Stream.enqueue_queue hq data]
    exact fun e he => Stream.queued_not_lt hb he
  have hcut : cutDatagrams id 0 (cut ++ (segmentList id s.total data 0).map Datagram.payload) =
      cutDatagrams id 0 cut ++ segmentList id s.total data 0 := by
    rw [Stream.cutDatagrams_append, Nat.zero_add, h.total]
    have := Stream.segmentList_eq_cutDatagrams id s.total data 0
    rw [Nat.zero_add] at this
    rw [← this]
  have hsub : ∀ x ∈ cutDatagrams id 0 cut,
      x ∈ cutDatagrams id 0 cut ++ segmentList id s.total data 0 := fun x hx =>
    List.mem_append_left _ hx
  have hc := h.carries.mono hsub
  refine ⟨cut ++ (segmentList id s.total data 0).map Datagram.payload, ?_, ?_, ?_, ?_, ?_, ?_, ?_,
    h.acked, h.acks, ?_⟩
  · show _ = (s.grow data).sent.flatten
    rw [List.flatten_append, Stream.segmentList_payloads, List.drop_zero, sent_grow, h.flat]
  · intro p hp
    rcases List.mem_append.1 hp with hp | hp
    · exact h.pieces p hp
    · exact Stream.segmentList_pieces hp
  · exact (Stream.sendOneDatagram_id _).trans h.id_eq
  · rw [hcut]
    have hg : Carries (· ∈ cutDatagrams id 0 cut ++ segmentList id s.total data 0) (s.grow data) :=
      ⟨hc.sendQueue, hc.toB, hc.recvQueue⟩
    refine hg.putA fun e he => ?_
    rw [hqueue] at he
    obtain ⟨x, hx, rfl⟩ := List.mem_map.1 he
    exact ⟨rfl, List.mem_append_right _ hx⟩
  · -- `b` waits for the first of the new segments
    refine .inr ⟨Stream.segmentAt id s.total data 0, ?_, ?_⟩
    · rw [hcut, segmentList, if_pos hlen]
      exact List.mem_append_right _ List.mem_cons_self
    · show UInt32.ofNat (0 + s.total) = s.b.recvOffset
      rw [Nat.zero_add, ← hrecv, UInt32.ofNat_toNat]
  · intro x hx hle
    rw [hcut] at hx
    rcases List.mem_append.1 hx with hx | hx
    · have hlt := (h.tiling (by omega)).lt hx
      rw [h.total] at hlt
      have := UInt32.le_iff_toNat_le.1 hle
      change s.b.recvOffset.toNat ≤ _ at this
      omega
    · show _ ∈ (s.a.enqueue data).sendOneDatagram.1.sendDatagramQueue.entries
      have hin : fileSegment x ∈ (s.a.enqueue data).sendDatagramQueue.entries := by
        rw [hqueue]
        exact List.mem_map_of_mem hx
      rw [Stream.sendOneDatagram_sendQueue]
      exact Stream.mem_dropSent_of_not_lt hin (hkeep _ hin)
  · intro x hx hx0
    rw [hcut] at hx
    rcases List.mem_append.1 hx with hx | hx
    · exact List.mem_append_left _ (h.first x hx hx0)
    · -- only the first segment of the first `send` starts at 0, and that one is sent at once
      obtain ⟨j, -, hj, rfl⟩ := Stream.mem_segmentList (k := 0) hx
      have hoff : (UInt32.ofNat (Stream.segmentMax * j + s.total)).toNat = 0 := by
        rw [show UInt32.ofNat (Stream.segmentMax * j + s.total) = 0 from hx0]
        rfl
      rw [UInt32.toNat_ofNat_of_lt' (by show _ < 2 ^ 32; omega)] at hoff
      have hj0 : Stream.segmentMax * j = 0 := by omega
      refine List.mem_append_right _ ?_
      have hsends := Stream.send_sends hq hb h0
      rw [h.id_eq, ho] at hsends
      show _ ∈ sends (s.a.send data).2
      rw [hsends, hj0]
      exact List.mem_singleton.2 rfl
  · show (s.a.enqueue data).sendOneDatagram.1.sendOffset ≤ _
    rw [Stream.sendOneDatagram_sendOffset]
    exact h.sendOffset

/-- `b` files a datagram: either nothing is drained, or it was at the front. -/
theorem Covered.putB (hi : Inv s) (h : Covered id cut s) (ht : s.total < 2 ^ 32)
    (hd : d ∈ s.toB) : Covered id cut (s.putB (Stream.drainReceived
      { s.b with recvDatagramQueue := s.b.recvDatagramQueue.set d.offset d })) := by
  have hcarries := h.carries.putB (h.carries.toB d hd)
  rcases Stream.drainReceived_cases
    { s.b with recvDatagramQueue := s.b.recvDatagramQueue.set d.offset d } with hr | ⟨x, hx⟩
  · rw [hr] at hcarries ⊢
    have hA : (s.putB ({ s.b with recvDatagramQueue := s.b.recvDatagramQueue.set d.offset d },
        [])).toA = s.toA := List.append_nil _
    exact ⟨h.flat, h.pieces, h.id_eq, hcarries, h.boundary, h.queued, h.first,
      hA.symm ▸ h.acked, fun y hy => h.acks y (hA ▸ hy), h.sendOffset⟩
  · have hseg := hi.carries.recvQueue.set (hi.carries.toB d hd)
    have hin := h.carries.recvQueue.set (h.carries.toB d hd)
    have habove : ∀ e ∈ (s.b.recvDatagramQueue.set d.offset d).entries, s.b.recvOffset ≤ e.1 := by
      intro e he
      rcases OMap.front?_le hx he with rfl | hlt
      · exact le_refl _
      · exact le_of_lt hlt
    have hadv := (Stream.drainLoop_advance
      (s := { s.b with recvDatagramQueue := s.b.recvDatagramQueue.set d.offset d }) ht
      (hseg.mono fun y hy => ⟨hy.pos, hy.le⟩) hx).1
    have hend := (Stream.drainLoop_above
      (s := { s.b with recvDatagramQueue := s.b.recvDatagramQueue.set d.offset d })
      (h.tiling ht) (h.total.symm ▸ ht) hin habove (h.total.symm ▸ h.boundary)).2
    rw [Stream.drainReceived_of_eq hx] at hcarries ⊢
    have hle : ∀ {o : UInt32}, o ≤ s.b.recvOffset → o ≤ (Stream.drainLoop
        { s.b with recvDatagramQueue := s.b.recvDatagramQueue.set d.offset d }).1.1 := fun ho =>
      le_trans ho (le_of_lt (UInt32.lt_iff_toNat_lt.2 hadv))
    refine ⟨h.flat, h.pieces, h.id_eq, hcarries, h.total ▸ hend, fun y hy hyo => ?_, h.first, ?_,
      fun y hy => ?_, hle h.sendOffset⟩
    · exact h.queued y hy (le_trans (hle (le_refl _)) hyo)
    · refine .inr ⟨⟨.dataAck, s.b.id, (Stream.drainLoop { s.b with
        recvDatagramQueue := s.b.recvDatagramQueue.set d.offset d }).1.1, 0, []⟩,
        List.mem_append_right _ ?_, rfl⟩
      rw [sends_append]
      exact List.mem_append_right _ (List.mem_singleton.2 rfl)
    · rcases List.mem_append.1 hy with hy | hy
      · exact hle (h.acks y hy)
      · rw [sends_append, Stream.drainLoop_sends, List.nil_append, sends_send,
          List.mem_singleton] at hy
        rw [hy]
        exact le_refl _

theorem Covered.step {l : Label} (hi : Inv s) (h : Covered id cut s) (hs : step s l = some s')
    (hc : SendClean s l) (ht : s'.total < 2 ^ 32) : ∃ cut', Covered id cut' s' := by
  have ht' := Nat.lt_of_le_of_lt (step_total hs) ht
  cases hi.move_of_step hs with
  | send data =>
    by_cases h0 : data = []
    · subst h0
      exact ⟨cut, h.send_nil⟩
    · obtain ⟨hq, ho⟩ := hc.resolve_left h0
      exact h.send hi h0 hq ho ht
  | expire t =>
    exact ⟨cut, h.flat, h.pieces, h.id_eq, ⟨h.carries.1, h.carries.2, h.carries.3⟩, h.boundary,
      h.queued, h.first, h.acked, h.acks, h.sendOffset⟩
  | retransmit t => exact ⟨cut, h.putA (a := { s.a with timer := t }) h.id_eq rfl h.sendOffset⟩
  | toB hd => exact ⟨cut, h.putB hi ht' hd⟩
  | @toA d hd =>
    exact ⟨cut, h.putA (a := { s.a with sendOffset := d.offset }) h.id_eq rfl (h.acks d hd)⟩

theorem covered_inductive (id : UInt32) : ((lts id).guard SendClean).Inductive fun s =>
    s.total < 2 ^ 32 → Inv s ∧ ∃ cut, Covered id cut s where
  init := forall_eq.2 fun _ => ⟨inv_start id, [], covered_start id⟩
  step s l s' h hs ht := by
    obtain ⟨hi, cut, hcov⟩ := h (Nat.lt_of_le_of_lt (step_total hs.1) ht)
    exact ⟨hi.step hs.1 ht, hcov.step hi hs.1 hs.2 ht⟩

/-! ## Progress -/

/-- Only datagrams that have been sent already are delivered. -/
def Arrivals (ls : List Label) : Prop := ∀ l ∈ ls, ∃ d, l = .toB d ∨ l = .toA d

/-- The acknowledgement of what `b` has delivered makes `a` send what `b` waits for. -/
theorem Covered.sends_next (hi : Inv s) (h : Covered id cut s) {x a : Datagram}
    (hx : x ∈ cutDatagrams id 0 cut) (hxo : x.offset = s.b.recvOffset)
    (ha : a.offset = s.b.recvOffset) (hA : a ∈ s.toA) : x ∈ sends (s.a.feed a).2 := by
  rw [Stream.feed_dataAck (hi.acks a hA).1 hi.aRecv, Stream.sendOneDatagram_sends]
  have hin : (x.offset, x) ∈ (Stream.dropSent a.offset s.a.sendDatagramQueue).entries :=
    Stream.mem_dropSent_of_not_lt (h.queued x hx (le_of_eq hxo.symm))
      (not_lt.2 (le_of_eq (ha.trans hxo.symm)))
  cases hf : (Stream.dropSent a.offset s.a.sendDatagramQueue).front? with
  | none =>
    rw [OMap.front?_eq_none.1 hf] at hin
    cases hin
  | some e =>
    -- nothing below it is left
    have hge := (Stream.mem_dropSent (OMap.front?_mem hf)).2
    rcases OMap.front?_le hf hin with heq | hlt
    · rw [← heq]
      exact List.mem_singleton.2 rfl
    · exact absurd (ha.trans hxo.symm ▸ hlt) hge

/-- What `b` waits for arrives. -/
theorem Covered.arrives (hi : Inv s) (h : Covered id cut s) (ht : s.total < 2 ^ 32)
    (hw : ¬ Wedged s) {x : Datagram} (hx : x ∈ s.toB) (hxo : x.offset = s.b.recvOffset) :
    ¬ Wedged (s.putB (s.b.feed x)) ∧
      s.b.recvOffset.toNat < (s.putB (s.b.feed x)).b.recvOffset.toNat := by
  have hseg := hi.carries.recvQueue.set (hi.carries.toB x hx)
  have hin := h.carries.recvQueue.set (h.carries.toB x hx)
  have hlow : ∀ e ∈ s.b.recvDatagramQueue.entries, ¬ e.1 < s.b.recvOffset := fun e he hlt =>
    hw ⟨e, he, hlt⟩
  have hfront : (s.b.recvDatagramQueue.set x.offset x).front? = some (s.b.recvOffset, x) := by
    rw [hxo]
    exact OMap.front?_set_of_le x hlow
  have habove : ∀ e ∈ (s.b.recvDatagramQueue.set x.offset x).entries, s.b.recvOffset ≤ e.1 := by
    intro e he
    rcases OMap.mem_set.1 he with ⟨he, -⟩ | rfl
    · exact not_lt.1 (hlow e he)
    · exact le_of_eq hxo.symm
  have hadv := (Stream.drainLoop_advance
    (s := { s.b with recvDatagramQueue := s.b.recvDatagramQueue.set x.offset x }) ht
    (hseg.mono fun y hy => ⟨hy.pos, hy.le⟩) hfront).1
  have hend := (Stream.drainLoop_above
    (s := { s.b with recvDatagramQueue := s.b.recvDatagramQueue.set x.offset x })
    (h.tiling ht) (h.total.symm ▸ ht) hin habove (h.total.symm ▸ h.boundary)).1
  rw [Stream.feed_data (hi.carries.toB x hx).type, Stream.drainReceived_of_eq hfront]
  refine ⟨fun hw' => ?_, hadv⟩
  obtain ⟨e, he, hlt⟩ := hw'
  exact not_lt.2 (hend e he) hlt

/-- One datagram that has been sent already, or two, and `b` has delivered a segment more. -/
theorem Covered.advance (hi : Inv s) (h : Covered id cut s) (ht : s.total < 2 ^ 32)
    (hw : ¬ Wedged s) (hlt : s.b.recvOffset.toNat < s.total) :
    ∃ ls s', ((lts id).guard SendClean).Run s ls s' ∧ Arrivals ls ∧ s'.sent = s.sent ∧
      ¬ Wedged s' ∧ s.b.recvOffset.toNat < s'.b.recvOffset.toNat := by
  obtain ⟨x, hx, hxo⟩ := h.boundary.resolve_left (Nat.ne_of_lt hlt)
  rcases h.acked with h0 | ⟨a, hA, ha⟩
  · have hin := h.first x hx (hxo.trans h0)
    refine ⟨[.toB x], _, .single ⟨if_pos hin, trivial⟩, fun l hl => ?_, rfl,
      h.arrives hi ht hw hin hxo⟩
    exact ⟨x, .inl (List.mem_singleton.1 hl)⟩
  · have hstep : StreamNet.step s (.toA a) = some (s.putA (s.a.feed a)) := if_pos hA
    have hi₁ := hi.step hstep ht
    have hcov : Covered id cut (s.putA (s.a.feed a)) := by
      rw [Stream.feed_dataAck (hi.acks a hA).1 hi.aRecv]
      exact h.putA (a := { s.a with sendOffset := a.offset }) h.id_eq rfl (h.acks a hA)
    have hin : x ∈ (s.putA (s.a.feed a)).toB :=
      List.mem_append_right _ (h.sends_next hi hx hxo ha hA)
    refine ⟨[.toA a, .toB x], _, .cons ⟨hstep, trivial⟩ (.single ⟨if_pos hin, trivial⟩),
      fun l hl => ?_, rfl, hcov.arrives hi₁ ht hw hin hxo⟩
    rcases List.mem_cons.1 hl with rfl | hl
    · exact ⟨a, .inr rfl⟩
    · exact ⟨x, .inl (List.mem_singleton.1 hl)⟩

/-- Everything is delivered and acknowledged. -/
structure Settled (s : StreamNet) : Prop where
  delivered : s.delivered.flatten = s.sent.flatten
  queue : s.a.sendDatagramQueue = .empty
  sendOffset : s.a.sendOffset.toNat = s.total

/-- The last acknowledgement arrives. -/
theorem Covered.settle (hi : Inv s) (hsl : SliceInv s) (h : Covered id cut s)
    (ht : s.total < 2 ^ 32) (heq : s.b.recvOffset.toNat = s.total) :
    ∃ ls s', ((lts id).guard SendClean).Run s ls s' ∧ Arrivals ls ∧ Settled s' := by
  have hdel : s.delivered.flatten = s.sent.flatten := by
    rw [hsl.delivered, heq]
    exact List.take_length
  have hempty : ∀ o : UInt32, o.toNat = s.total →
      Stream.dropSent o s.a.sendDatagramQueue = .empty := by
    intro o ho
    apply OMap.ext_entries
    refine List.eq_nil_iff_forall_not_mem.2 fun e he => ?_
    obtain ⟨hmem, hge⟩ := Stream.mem_dropSent he
    obtain ⟨hk, hin⟩ := h.carries.sendQueue e hmem
    have hlt := (h.tiling ht).lt hin
    rw [h.total, ← hk, ← ho] at hlt
    exact hge (UInt32.lt_iff_toNat_lt.2 hlt)
  rcases h.acked with h0 | ⟨a, hA, ha⟩
  · have htotal : s.total = 0 := by
      rw [← heq, h0]
      rfl
    have hoff : s.a.sendOffset.toNat = s.total := by
      have := hi.sendOffset
      omega
    refine ⟨[], s, .nil s, List.forall_mem_nil _, hdel, ?_, hoff⟩
    rw [← hempty _ hoff, Stream.dropSent_eq_self hi.unacked]
  · have hoff : a.offset.toNat = s.total := by rw [ha, heq]
    have hstep : StreamNet.step s (.toA a) = some (s.putA (s.a.feed a)) := if_pos hA
    refine ⟨[.toA a], _, .single ⟨hstep, trivial⟩, fun l hl => ?_, ?_⟩
    · exact ⟨a, .inr (List.mem_singleton.1 hl)⟩
    · rw [Stream.feed_dataAck (hi.acks a hA).1 hi.aRecv]
      refine ⟨hdel, ?_, ?_⟩
      · show (Stream.sendOneDatagram _).1.sendDatagramQueue = _
        rw [Stream.sendOneDatagram_sendQueue]
        exact hempty _ hoff
      · show (Stream.sendOneDatagram _).1.sendOffset.toNat = s.total
        rw [Stream.sendOneDatagram_sendOffset]
        exact hoff

theorem Arrivals.append {ls ks : List Label} (h : Arrivals ls) (h' : Arrivals ks) :
    Arrivals (ls ++ ks) := fun l hl => (List.mem_append.1 hl).elim (h l) (h' l)

/-- A receiver that is not wedged gets everything, segment by segment. -/
theorem settles_of_not_wedged (n : Nat) (hr : ((lts id).guard SendClean).Reachable s)
    (ht : s.total < 2 ^ 32) (hw : ¬ Wedged s) (hn : s.total - s.b.recvOffset.toNat ≤ n) :
    ∃ ls s', ((lts id).guard SendClean).Run s ls s' ∧ Arrivals ls ∧ Settled s' := by
  -- by induction on the number of bytes that are missing
  induction n generalizing s with
  | zero =>
    obtain ⟨hi, cut, hcov⟩ := (covered_inductive id).reachable hr ht
    have hle := hi.recvOffset
    exact hcov.settle hi ((sliceInv_inductive id).reachable hr ht).2 ht (by omega)
  | succ n ih =>
    obtain ⟨hi, cut, hcov⟩ := (covered_inductive id).reachable hr ht
    have hle := hi.recvOffset
    by_cases hlt : s.b.recvOffset.toNat < s.total
    · obtain ⟨ls, s₁, hrun, hls, hsent, hw₁, hadv⟩ := hcov.advance hi ht hw hlt
      have htotal : s₁.total = s.total := by rw [total, hsent, total]
      obtain ⟨ks, s', hrun', hks, hset⟩ := ih (hr.run hrun) (htotal.symm ▸ ht) hw₁ (by omega)
      exact ⟨ls ++ ks, s', hrun.append hrun', hls.append hks, hset⟩
    · exact hcov.settle hi ((sliceInv_inductive id).reachable hr ht).2 ht (by omega)

theorem sent_of_arrivals {ls : List Label} (hr : ((lts id).guard SendClean).Run s ls s')
    (hls : Arrivals ls) : s'.sent = s.sent := by
  induction hr with
  | nil => rfl
  | @cons s s₁ s' l ls hs _ ih =>
    rw [ih fun k hk => hls k (List.mem_cons_of_mem _ hk)]
    obtain ⟨d, rfl | rfl⟩ := hls l List.mem_cons_self
    · have hs := hs.1
      change (if d ∈ s.toB then some (s.putB (s.b.feed d)) else none) = some s₁ at hs
      split at hs
      · cases hs
        rfl
      · cases hs
    · have hs := hs.1
      change (if d ∈ s.toA then some (s.putA (s.a.feed d)) else none) = some s₁ at hs
      split at hs
      · cases hs
        rfl
      · cases hs

/-- With every `send` on an acknowledged stream: from where the stream stands, datagrams
that have been sent already, and what is sent in answer to them, bring everything over
and acknowledge it, exactly if `b` does not hold a repeated datagram in front of its queue,
or has delivered everything already. -/
theorem settles_iff (hr : ((lts id).guard SendClean).Reachable s) (ht : s.total < 2 ^ 32) :
    (∃ ls s', ((lts id).guard SendClean).Run s ls s' ∧ Arrivals ls ∧ Settled s') ↔
      ¬ Wedged s ∨ s.delivered.flatten = s.sent.flatten := by
  constructor
  · intro hex
    obtain ⟨ls, s', hrun, hls, hset⟩ := hex
    by_cases hw : Wedged s
    · have hsent := sent_of_arrivals hrun hls
      have ht' : s'.total < 2 ^ 32 := by rwa [total, hsent]
      have hsame := (wedged_run hr.of_guard hw hrun.of_guard ht').2.1
      exact .inr (by rw [← hsame, hset.delivered, hsent])
    · exact .inl hw
  · intro h
    obtain ⟨hi, cut, hcov⟩ := (covered_inductive id).reachable hr ht
    have hsl := ((sliceInv_inductive id).reachable hr ht).2
    rcases h with hw | hdel
    · exact settles_of_not_wedged _ hr ht hw (le_refl _)
    · refine hcov.settle hi hsl ht ?_
      have hlen := congrArg List.length hsl.delivered
      have hle := hi.recvOffset
      rw [hdel, List.length_take] at hlen
      change s.total = min _ s.total at hlen
      omega

/-- Of two segments the second one is lost: it can still come over, unless the first one has
come twice. -/
theorem settles_iff_lost :
    (∃ s : StreamNet, s.sent = [[1, 2], [3]] ∧ s.delivered = [[1, 2]] ∧
      ∃ ls s', ((lts 0).guard SendClean).Run s ls s' ∧ Arrivals ls ∧ Settled s') ∧
    ∃ s : StreamNet, s.sent = [[1, 2], [3]] ∧ s.delivered = [[1, 2]] ∧
      ¬ ∃ ls s', ((lts 0).guard SendClean).Run s ls s' ∧ Arrivals ls ∧ Settled s' := by
  have honce : ∃ s, ((lts 0).guard SendClean).Reachable s ∧ s.sent = [[1, 2], [3]] ∧
      s.delivered = [[1, 2]] ∧ s.total < 2 ^ 32 ∧ s.b.recvDatagramQueue = .empty :=
    LTS.exists_reachable_of_execGuard [.send [1, 2], .toB ⟨.data, 0, 0, 2, [1, 2]⟩,
      .toA ⟨.dataAck, 0, 2, 0, []⟩, .send [3]] rfl (by decide +kernel)
  have htwice : ∃ s, ((lts 0).guard SendClean).Reachable s ∧ s.sent = [[1, 2], [3]] ∧
      s.delivered = [[1, 2]] ∧ s.total < 2 ^ 32 ∧
        ∃ e ∈ s.b.recvDatagramQueue.entries, e.1 < s.b.recvOffset :=
    LTS.exists_reachable_of_execGuard cleanTrace rfl (by decide +kernel)
  constructor
  · obtain ⟨s, hr, hsent, hdel, ht, hq⟩ := honce
    refine ⟨s, hsent, hdel, (settles_iff hr ht).2 (.inl ?_)⟩
    rintro ⟨e, he, -⟩
    rw [hq] at he
    cases he
  · obtain ⟨s, hr, hsent, hdel, ht, hw⟩ := htwice
    refine ⟨s, hsent, hdel, mt (settles_iff hr ht).1 ?_⟩
    rw [hsent, hdel]
    rintro (hnot | hall)
    · exact hnot hw
    · revert hall
      decide

end StreamNet
end ShadowTalk.Sml
