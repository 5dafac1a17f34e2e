import ShadowTalk.Sml.StreamNet
import ShadowTalk.Sml.Segmentation

/-!
# Acknowledgements out of order

`a` takes the offset of every acknowledgement as its `send_offset_`, also of one that
was sent before the last one it took.

* `Ends`: what is on its way ends at most where the last segment starts, or where it
  ends; and until all is acknowledged, the last segment is queued.
* `forward_iff_inOrder`: with each `send` on an empty queue, `send_offset_` never
  decreases and each `send` starts where the earlier ones end, exactly if the
  acknowledgements are taken in the order of their offsets.
* `acks_move_back`: a late acknowledgement takes back what is acknowledged already.
-/
namespace ShadowTalk.Sml
open ShadowTalk.Core
open ShadowTalk.Sml.Stream (Filed segEnd segmentAt lastStart)

namespace StreamNet

/-- Every `send` is made on an empty queue, and keeps the bytes sent below 2^32. -/
def Paced (s : StreamNet) : Label → Prop
  | .send data => s.a.sendDatagramQueue = .empty ∧ s.total + data.length < 2 ^ 32
  | _ => True

instance decidablePaced (s : StreamNet) : (l : Label) → Decidable (Paced s l)
  | .send data => @instDecidableAnd _ _ inferInstance (Nat.decLt (s.total + data.length) (2 ^ 32))
  | .expire | .retransmit | .toB _ | .toA _ => .isTrue trivial

def paced (id : UInt32) : LTS StreamNet Label := (lts id).guard Paced

/-- An acknowledgement is not below the one that was taken before it. -/
def AckInOrder (s : StreamNet) : Label → Prop
  | .toA d => s.a.sendOffset ≤ d.offset
  | _ => True

/-- The first segment of the `send` is sent, and its offset is the number of bytes of the
earlier ones. -/
def StartsAtTotal (s : StreamNet) : Label → Prop
  | .send data => data ≠ [] → ∃ d, sends (s.a.send data).2 = [d] ∧ d.offset.toNat = s.total ∧
      d.payload = data.take Stream.segmentMax
  | _ => True

/-- The step does not take back what is acknowledged, and a `send` starts at the end. -/
def Forward (s : StreamNet) (l : Label) : Prop :=
  (∀ s', step s l = some s' → s.a.sendOffset ≤ s'.a.sendOffset) ∧ StartsAtTotal s l

variable {s s' : StreamNet} {k : Nat}

/-! ## Where segments end -/

/-- An end before the last segment, or the end of everything. -/
def Stop (k n x : Nat) : Prop := x ≤ k ∨ x = n

/-- `k` is where the last segment starts. -/
structure Ends (k : Nat) (s : StreamNet) : Prop where
  carries : Carries (fun d => Stop k s.total (segEnd d)) s
  acks : ∀ d ∈ s.toA, Stop k s.total d.offset.toNat
  recvOffset : Stop k s.total s.b.recvOffset.toNat
  sendOffset : Stop k s.total s.a.sendOffset.toNat
  last : s.a.sendOffset.toNat = s.total ∨ ∃ e ∈ s.a.sendDatagramQueue.entries, e.1.toNat = k

theorem ends_start (id : UInt32) : Ends 0 (start id) where
  carries := ⟨Stream.filed_empty _, List.forall_mem_nil _, Stream.filed_empty _⟩
  acks _ h := by cases h
  recvOffset := .inl (Nat.le_refl 0)
  sendOffset := .inl (Nat.le_refl 0)
  last := .inl rfl

/-- With an empty queue everything is acknowledged. -/
theorem Ends.sendOffset_of_empty (h : Ends k s) (hq : s.a.sendDatagramQueue = .empty) :
    s.a.sendOffset.toNat = s.total := by
  rcases h.last with heq | ⟨e, he, -⟩
  · exact heq
  · rw [hq] at he
    cases he

/-- `a` takes `o` for what is acknowledged, which is not below what was. -/
theorem Ends.putA (h : Ends k s) {a : Stream} (hq : a.sendDatagramQueue = s.a.sendDatagramQueue)
    (hle : s.a.sendOffset ≤ a.sendOffset) (hn : a.sendOffset.toNat ≤ s.total)
    (ho : Stop k s.total a.sendOffset.toNat) : Ends k (s.putA a.sendOneDatagram) where
  carries := h.carries.putA (hq ▸ h.carries.sendQueue)
  acks := h.acks
  recvOffset := h.recvOffset
  sendOffset := by
    show Stop k s.total a.sendOneDatagram.1.sendOffset.toNat
    rw [Stream.sendOneDatagram_sendOffset]
    exact ho
  last := by
    show a.sendOneDatagram.1.sendOffset.toNat = s.total ∨
      ∃ e ∈ a.sendOneDatagram.1.sendDatagramQueue.entries, e.1.toNat = k
    rw [Stream.sendOneDatagram_sendOffset, Stream.sendOneDatagram_sendQueue, hq]
    rw [UInt32.le_iff_toNat_le] at hle
    rcases ho with hk | heq
    · rcases h.last with hlast | ⟨e, he, hek⟩
      · exact .inl (by omega)
      · -- the last segment is not below the acknowledged offset
        refine .inr ⟨e, Stream.mem_dropSent_of_not_lt he ?_, hek⟩
        rw [UInt32.lt_iff_toNat_lt]
        omega
    · exact .inl heq

theorem Ends.putB (hi : Inv s) (h : Ends k s) (ht : s.total < 2 ^ 32) {d : Datagram}
    (hd : d ∈ s.toB) :
    Ends k (s.putB (Stream.drainReceived
      { s.b with recvDatagramQueue := s.b.recvDatagramQueue.set d.offset d })) := by
  have hseg := hi.carries.recvQueue.set (hi.carries.toB d hd)
  have hset := h.carries.recvQueue.set (h.carries.toB d hd)
  have hoff : Stop k s.total (Stream.drainReceived
      { s.b with recvDatagramQueue := s.b.recvDatagramQueue.set d.offset d }).1.recvOffset.toNat := by
    rw [(Stream.drainReceived_eq_drainLoop _).1]
    refine Stream.drainLoop_offset (P := Stop k s.total)
      (s := { s.b with recvDatagramQueue := s.b.recvDatagramQueue.set d.offset d })
      ((hseg.and hset).mono fun x hx => ⟨?_, hx.2⟩) h.recvOffset
    exact Nat.lt_of_le_of_lt hx.1.le ht
  refine ⟨h.carries.putB (h.carries.toB d hd), fun x hx => ?_, hoff, h.sendOffset, h.last⟩
  rcases List.mem_append.1 hx with hx | hx
  · exact h.acks x hx
  · rw [Stream.eq_ack_of_mem_drainReceived hx]
    exact hoff

/-! ## A `send` on an empty queue -/

variable {data : Bytes}

/-- A segment ends where the last one starts, or before, or it is the last one. -/
theorem stop_segmentAt {id : UInt32} {base j : Nat} (hj : Stream.segmentMax * j < data.length)
    (hb : base + data.length < 2 ^ 32) :
    Stop (base + lastStart data.length) (base + data.length)
      (segEnd (segmentAt id base data (Stream.segmentMax * j))) := by
  have hle := Stream.segLength_le (data.length - Stream.segmentMax * j)
  have hend : segEnd (segmentAt id base data (Stream.segmentMax * j)) =
      Stream.segmentMax * j + base + Stream.segLength (data.length - Stream.segmentMax * j) := by
    unfold segEnd
    rw [Stream.segmentAt_length]
    show (UInt32.ofNat (Stream.segmentMax * j + base)).toNat + _ = _
    rw [UInt32.toNat_ofNat_of_lt' (by show _ < 2 ^ 32; omega)]
  rw [hend]
  by_cases hn : Stream.segmentMax * j + Stream.segLength (data.length - Stream.segmentMax * j) <
      data.length
  · have hnext := Stream.next_multiple hn
    rw [hnext] at hn
    have := Stream.offset_le_lastStart hn
    exact .inl (by omega)
  · exact .inr (by omega)

/-- What was there before a `send` ends at the total, so before the last segment. -/
theorem Inv.ends_grow (hi : Inv s) (data : Bytes) :
    Carries (fun d => Stop (s.total + lastStart data.length) (s.grow data).total (segEnd d))
      (s.grow data) := by
  have hc := hi.carries.mono (Q := fun d => Stop (s.total + lastStart data.length)
    (s.grow data).total (segEnd d)) fun d hd => .inl (hd.le.trans (Nat.le_add_right _ _))
  exact ⟨hc.sendQueue, hc.toB, hc.recvQueue⟩

theorem Ends.send (hi : Inv s) (h : Ends k s) (hq : s.a.sendDatagramQueue = .empty)
    (ht : s.total + data.length < 2 ^ 32) (h0 : data ≠ []) :
    Ends (s.total + lastStart data.length)
      ((s.grow data).putA (s.a.enqueue data).sendOneDatagram) := by
  have hoff := h.sendOffset_of_empty hq
  have hlen := List.length_pos_of_ne_nil h0
  have hlast := Stream.lastStart_lt hlen
  have hb : s.a.sendOffset.toNat + lastStart data.length < 2 ^ 32 := by omega
  have hqueue := Stream.enqueue_queue hq data
  have hentries := Stream.queued_entries hb
  have htotal := total_grow s data
  refine ⟨(hi.ends_grow data).putA ?_, fun d hd => ?_, .inl ?_, .inl ?_, .inr ?_⟩
  · intro e he
    rw [hqueue, hentries] at he
    obtain ⟨d, hd, rfl⟩ := List.mem_map.1 he
    obtain ⟨j, -, hj, rfl⟩ := Stream.mem_segmentList (k := 0) hd
    refine ⟨rfl, ?_⟩
    show Stop _ (s.grow data).total (segEnd (segmentAt _ _ _ _))
    rw [htotal, hoff]
    exact stop_segmentAt hj ht
  · exact .inl ((hi.acks d hd).2.trans (Nat.le_add_right _ _))
  · exact hi.recvOffset.trans (Nat.le_add_right _ _)
  · show (s.a.enqueue data).sendOneDatagram.1.sendOffset.toNat ≤ _
    rw [Stream.sendOneDatagram_sendOffset]
    exact hoff.le.trans (Nat.le_add_right _ _)
  · have hmem := Stream.segmentAt_mem s.a.id s.a.sendOffset.toNat (k := 0)
      (j := (data.length - 1) / Stream.segmentMax) (Nat.zero_le _) hlast
    have hin : Stream.fileSegment (segmentAt s.a.id s.a.sendOffset.toNat data
        (lastStart data.length)) ∈ (s.a.queued data).entries := by
      rw [hentries]
      exact List.mem_map_of_mem hmem
    refine ⟨Stream.fileSegment (segmentAt s.a.id s.a.sendOffset.toNat data
      (lastStart data.length)), ?_, ?_⟩
    · show _ ∈ (s.a.enqueue data).sendOneDatagram.1.sendDatagramQueue.entries
      rw [Stream.sendOneDatagram_sendQueue, hqueue]
      exact Stream.mem_dropSent_of_not_lt hin (Stream.queued_not_lt hb hin)
    · show (UInt32.ofNat (lastStart data.length + s.a.sendOffset.toNat)).toNat = _
      rw [UInt32.toNat_ofNat_of_lt' (by show _ < 2 ^ 32; omega), hoff, Nat.add_comm]

/-- A `send` of nothing. -/
theorem Ends.send_nil (hi : Inv s) (h : Ends k s) :
    Ends k ((s.grow []).putA (s.a.enqueue []).sendOneDatagram) := by
  have htotal : (s.grow []).total = s.total := total_grow s []
  have hg : Ends k (s.grow []) := by
    refine ⟨⟨?_, ?_, ?_⟩, ?_, ?_, ?_, ?_⟩ <;> rw [htotal]
    · exact h.carries.sendQueue
    · exact h.carries.toB
    · exact h.carries.recvQueue
    · exact h.acks
    · exact h.recvOffset
    · exact h.sendOffset
    · exact h.last
  refine hg.putA ?_ (le_refl _) (htotal ▸ hi.sendOffset) hg.sendOffset
  unfold Stream.enqueue
  rw [Stream.segments_nil]
  rfl

/-! ## Runs -/

/-- What holds along a run that takes its acknowledgements in order. -/
structure Ordered (s : StreamNet) : Prop where
  total : s.total < 2 ^ 32
  inv : Inv s
  ends : ∃ k, Ends k s

theorem Ordered.step {l : Label} (h : Ordered s) (hs : step s l = some s') (hp : Paced s l)
    (ho : AckInOrder s l) : Ordered s' := by
  obtain ⟨ht, hi, k, hk⟩ := h
  have ht' : s'.total < 2 ^ 32 := by
    cases hi.move_of_step hs with
    | send data =>
      rw [putA_total, total_grow]
      exact hp.2
    | _ => exact ht
  refine ⟨ht', hi.step hs ht', ?_⟩
  cases hi.move_of_step hs with
  | send data =>
    by_cases h0 : data = []
    · subst h0
      exact ⟨k, hk.send_nil hi⟩
    · exact ⟨_, hk.send hi hp.1 hp.2 h0⟩
  | expire t =>
    exact ⟨k, ⟨hk.carries.1, hk.carries.2, hk.carries.3⟩, hk.acks, hk.recvOffset, hk.sendOffset,
      hk.last⟩
  | retransmit t =>
    exact ⟨k, hk.putA (a := { s.a with timer := t }) rfl (le_refl _) hi.sendOffset hk.sendOffset⟩
  | toB hd => exact ⟨k, hk.putB hi ht hd⟩
  | @toA d hd =>
    exact ⟨k, hk.putA (a := { s.a with sendOffset := d.offset }) rfl ho (hi.acks d hd).2
      (hk.acks d hd)⟩

theorem ordered_inductive (id : UInt32) : ((paced id).guard AckInOrder).Inductive Ordered where
  init := forall_eq.2 ⟨Nat.two_pow_pos 32, inv_start id, 0, ends_start id⟩
  step _ _ _ h hs := h.step hs.1.1 hs.1.2 hs.2

theorem Ordered.startsAtTotal {l : Label} (h : Ordered s) (hp : Paced s l) : StartsAtTotal s l := by
  cases l with
  | send data =>
    intro h0
    obtain ⟨k, hk⟩ := h.ends
    have hoff := hk.sendOffset_of_empty hp.1
    have hlast := Stream.lastStart_lt (List.length_pos_of_ne_nil h0)
    have hlt := hp.2
    refine ⟨_, Stream.send_sends hp.1 (by omega) h0, ?_, ?_⟩
    · show (UInt32.ofNat (0 + s.a.sendOffset.toNat)).toNat = _
      rw [Nat.zero_add, UInt32.ofNat_toNat, hoff]
    · show (data.drop 0).take (Stream.segLength (data.length - 0)) = _
      rw [Stream.segLength_eq_min, List.drop_zero, Nat.sub_zero, List.take_eq_take_iff]
      omega
  | _ => trivial

/-- Only an acknowledgement changes `send_offset_`, and it becomes its offset. -/
theorem Move.sendOffset_le_iff {l : Label} (hm : Move s l s') :
    s.a.sendOffset ≤ s'.a.sendOffset ↔ AckInOrder s l := by
  cases hm with
  | send data =>
    refine iff_of_true ?_ trivial
    show _ ≤ (s.a.enqueue data).sendOneDatagram.1.sendOffset
    rw [Stream.sendOneDatagram_sendOffset]
    exact le_refl _
  | expire t => exact iff_of_true (le_refl _) trivial
  | retransmit t =>
    refine iff_of_true ?_ trivial
    show _ ≤ (Stream.sendOneDatagram { s.a with timer := t }).1.sendOffset
    rw [Stream.sendOneDatagram_sendOffset]
  | toB hd => exact iff_of_true (le_refl _) trivial
  | @toA d hd =>
    show _ ≤ (Stream.sendOneDatagram { s.a with sendOffset := d.offset }).1.sendOffset ↔ _
    rw [Stream.sendOneDatagram_sendOffset]
    rfl

theorem Ordered.forward_iff {l : Label} (h : Ordered s) (hs : StreamNet.step s l = some s')
    (hp : Paced s l) : Forward s l ↔ AckInOrder s l := by
  have hle := (h.inv.move_of_step hs).sendOffset_le_iff
  constructor
  · intro hf
    exact hle.1 (hf.1 s' hs)
  · intro ho
    refine ⟨fun s'' hs'' => ?_, h.startsAtTotal hp⟩
    obtain rfl : s' = s'' := Option.some.inj (hs.symm.trans hs'')
    exact hle.2 ho

/-- With every `send` made on an empty queue: a run never takes back what is
acknowledged, and starts every `send` at the number of bytes sent before, exactly if it
takes the acknowledgements in the order of their offsets. -/
theorem forward_iff_inOrder {id : UInt32} {ls : List Label} :
    ((paced id).guard Forward).Run (start id) ls s ↔
      ((paced id).guard AckInOrder).Run (start id) ls s :=
  (ordered_inductive id).run_iff (fun _ _ _ h hs => h.forward_iff hs.1 hs.2) rfl

/-- An acknowledgement arrives again after a later one. -/
def lateAckTrace : List Label :=
  [.send [1], .toB ⟨.data, 0, 0, 1, [1]⟩, .toA ⟨.dataAck, 0, 1, 0, []⟩, .send [2],
    .toB ⟨.data, 0, 1, 1, [2]⟩, .toA ⟨.dataAck, 0, 2, 0, []⟩]

/-- Counterexample: the first acknowledgement once more, after both bytes are
acknowledged. The third byte is then sent at the offset of the second. -/
theorem acks_move_back : ∃ s s' : StreamNet, (paced 0).Reachable s ∧
    (paced 0).step s (.toA ⟨.dataAck, 0, 1, 0, []⟩) s' ∧ s.a.sendOffset = 2 ∧
    s'.a.sendOffset = 1 ∧ s'.total = 2 ∧ s'.a.sendDatagramQueue = .empty ∧
    sends (s'.a.send [3]).2 = [⟨.data, 0, 1, 1, [3]⟩] := by
  have hrun : ∃ s, (paced 0).Reachable s ∧ s.a.sendOffset = 2 ∧
      (step s (.toA ⟨.dataAck, 0, 1, 0, []⟩)).any (fun s' => decide (s'.a.sendOffset = 1 ∧
        s'.total = 2 ∧ s'.a.sendDatagramQueue = .empty ∧
        sends (s'.a.send [3]).2 = [⟨.data, 0, 1, 1, [3]⟩])) = true :=
    LTS.exists_reachable_of_execGuard lateAckTrace rfl (by decide +kernel)
  obtain ⟨s, hr, hoff, hany⟩ := hrun
  obtain ⟨s', hs', hdec⟩ := (Option.any_eq_true _ _).1 hany
  exact ⟨s, s', hr, ⟨hs', trivial⟩, hoff, of_decide_eq_true hdec⟩

end StreamNet
end ShadowTalk.Sml
