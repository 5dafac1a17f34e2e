import ShadowTalk.Sml.Stream
import Mathlib.Tactic.Common

/-!
# What `stream::send` queues

`segmentList` is the cut of the data into segments, as a list. As long as no offset
passes 2^32, the queue gets exactly this list (`segments_entries`); the last offset
is `lastStart` after the first one.

* `segments_whole_iff`: on an empty queue the data is queued as a whole, and sent
  from its start, exactly if the offset of the last segment does not wrap.
* `segments_lost`: across the wrap all segments behind it are erased again.
-/
namespace ShadowTalk.Sml.Stream
open ShadowTalk.Core

/-- The segment of `data` at `offset`. -/
def segmentAt (id : UInt32) (base : Nat) (data : Bytes) (offset : Nat) : Datagram :=
  ⟨.data, id, .ofNat (offset + base), .ofNat (segLength (data.length - offset)),
    slice data offset (segLength (data.length - offset))⟩

/-- The segments of `data` from `offset` on, in order. -/
def segmentList (id : UInt32) (base : Nat) (data : Bytes) (offset : Nat) : List Datagram :=
  if offset < data.length then
    segmentAt id base data offset ::
      segmentList id base data (offset + segLength (data.length - offset))
  else []
termination_by data.length - offset
decreasing_by have := segLength_pos (n := data.length - offset) (by omega); omega

/-- Where the last segment of `n` bytes starts. -/
def lastStart (n : Nat) : Nat := segmentMax * ((n - 1) / segmentMax)

/-- An entry of the queue, filed under its offset. -/
def fileSegment (d : Datagram) : UInt32 × Datagram := (d.offset, d)

variable {id : UInt32} {base offset : Nat} {data : Bytes} {q : DatagramMap} {d : Datagram}

theorem segLength_eq_min (n : Nat) : segLength n = min segmentMax n := by
  unfold segLength
  split <;> omega

theorem lastStart_lt {n : Nat} (h : 0 < n) : lastStart n < n := by
  unfold lastStart segmentMax
  omega

/-- A segment starts at a multiple of the segment size. -/
theorem offset_le_lastStart {n k : Nat} (h : segmentMax * k < n) : segmentMax * k ≤ lastStart n := by
  unfold lastStart
  unfold segmentMax at *
  omega

theorem lastStart_of_end {n k : Nat} (h : segmentMax * k < n)
    (he : segmentMax * k + segLength (n - segmentMax * k) = n) : segmentMax * k = lastStart n := by
  rw [segLength_eq_min] at he
  unfold lastStart
  unfold segmentMax at *
  omega

theorem next_multiple {n k : Nat} (h : segmentMax * k + segLength (n - segmentMax * k) < n) :
    segmentMax * k + segLength (n - segmentMax * k) = segmentMax * (k + 1) := by
  rw [segLength_eq_min] at *
  unfold segmentMax at *
  omega

theorem mem_segmentList {k : Nat} (h : d ∈ segmentList id base data (segmentMax * k)) :
    ∃ j, k ≤ j ∧ segmentMax * j < data.length ∧ d = segmentAt id base data (segmentMax * j) := by
  generalize ho : segmentMax * k = offset at h
  induction offset using segmentList.induct data generalizing k with
  | case1 offset hlt ih =>
    rw [segmentList, if_pos hlt, List.mem_cons] at h
    rcases h with rfl | h
    · exact ⟨k, Nat.le_refl k, by rw [ho]; exact hlt, by rw [ho]⟩
    · by_cases hn : offset + segLength (data.length - offset) < data.length
      · have hnext := next_multiple (n := data.length) (k := k) (by rw [ho]; exact hn)
        rw [ho] at hnext
        obtain ⟨j, hj, hlt', rfl⟩ := ih hnext.symm h
        exact ⟨j, by omega, hlt', rfl⟩
      · rw [segmentList, if_neg hn] at h
        cases h
  | case2 offset hlt =>
    rw [segmentList, if_neg hlt] at h
    cases h

/-- Every multiple of the segment size below the length is the start of a segment. -/
theorem segmentAt_mem (id : UInt32) (base : Nat) {k j : Nat} (hk : k ≤ j) (hj : segmentMax * j < data.length) :
    segmentAt id base data (segmentMax * j) ∈ segmentList id base data (segmentMax * k) := by
  induction hn : j - k generalizing k with
  | zero =>
    have hjk : j = k := by omega
    rw [segmentList, if_pos (hjk ▸ hj), hjk]
    exact List.mem_cons_self
  | succ n ih =>
    have hlen : segLength (data.length - segmentMax * k) = segmentMax := by
      rw [segLength_eq_min]
      unfold segmentMax at *
      omega
    rw [segmentList, if_pos (by unfold segmentMax at *; omega), hlen, ← Nat.mul_succ]
    exact List.mem_cons_of_mem _ (ih (by omega) (by omega))

theorem segmentList_payloads (id : UInt32) (base : Nat) (data : Bytes) (offset : Nat) :
    ((segmentList id base data offset).map Datagram.payload).flatten = data.drop offset := by
  induction offset using segmentList.induct data with
  | case1 offset hlt ih =>
    rw [segmentList, if_pos hlt, List.map_cons, List.flatten_cons, ih]
    show (data.drop offset).take _ ++ _ = _
    rw [← List.drop_drop, List.take_append_drop]
  | case2 offset hlt =>
    rw [segmentList, if_neg hlt, List.drop_eq_nil_of_le (Nat.not_lt.1 hlt)]
    rfl

/-- The offsets from `o` on follow each other modulo 2^32; every segment has 1 to 1000
bytes, and `length_` says how many. -/
def Consecutive : UInt32 → List (UInt32 × Datagram) → Prop
  | _, [] => True
  | o, e :: es =>
    e.1 = o ∧ e.2.offset = o ∧ 0 < e.2.payload.length ∧ e.2.payload.length ≤ segmentMax ∧
      e.2.length.toNat = e.2.payload.length ∧ Consecutive (o + e.2.length) es

theorem segmentAt_payload_length (id : UInt32) (base : Nat) (h : offset < data.length) :
    (segmentAt id base data offset).payload.length = segLength (data.length - offset) := by
  have hle := segLength_le (data.length - offset)
  exact slice_length (by omega)

theorem segmentAt_length (id : UInt32) (base : Nat) (data : Bytes) (offset : Nat) :
    (segmentAt id base data offset).length.toNat = segLength (data.length - offset) := by
  have hle := segLength_le_max (data.length - offset)
  unfold segmentMax at hle
  exact UInt32.toNat_ofNat_of_lt' (by show segLength _ < 2 ^ 32; omega)

theorem segmentList_consecutive (id : UInt32) (base : Nat) (data : Bytes) (offset : Nat) :
    Consecutive (.ofNat (offset + base))
      ((segmentList id base data offset).map fileSegment) := by
  induction offset using segmentList.induct data with
  | case1 offset hlt ih =>
    have hpay := segmentAt_payload_length id base hlt
    rw [segmentList, if_pos hlt, List.map_cons]
    refine ⟨rfl, rfl, ?_, ?_, ?_, ?_⟩
    · show 0 < (segmentAt id base data offset).payload.length
      rw [hpay]
      exact segLength_pos (by omega)
    · show (segmentAt id base data offset).payload.length ≤ _
      rw [hpay]
      exact segLength_le_max _
    · exact (segmentAt_length id base data offset).trans hpay.symm
    · have hnext : (UInt32.ofNat (offset + base) + (fileSegment (segmentAt id base data
          offset)).2.length) = .ofNat (offset + segLength (data.length - offset) + base) := by
        show UInt32.ofNat _ + UInt32.ofNat _ = _
        rw [← UInt32.ofNat_add]
        congr 1
        omega
      rw [hnext]
      exact ih
  | case2 offset hlt =>
    rw [segmentList, if_neg hlt]
    trivial

/-- Without a wrap the segments are put behind each other. -/
theorem segments_entries {k : Nat} (hb : base + lastStart data.length < 2 ^ 32)
    (hq : ∀ e ∈ q.entries, e.1.toNat < segmentMax * k + base) :
    (segments id base data (segmentMax * k) q).entries =
      q.entries ++ (segmentList id base data (segmentMax * k)).map fileSegment := by
  generalize ho : segmentMax * k = offset at hq ⊢
  induction offset, q using segments.induct id base data generalizing k with
  | case1 offset q hlt n d =>
    rename_i ih
    have hle := offset_le_lastStart (n := data.length) (k := k) (by rw [ho]; exact hlt)
    rw [ho] at hle
    have hkey : (UInt32.ofNat (offset + base)).toNat = offset + base :=
      UInt32.toNat_ofNat_of_lt' (by show offset + base < 2 ^ 32; omega)
    have hdo : d.offset = .ofNat (offset + base) := rfl
    have hins : (q.insert d.offset d).entries = q.entries ++ [(d.offset, d)] := by
      apply OMap.insert_entries_of_lt
      intro e he
      rw [UInt32.lt_iff_toNat_lt, hdo, hkey]
      exact hq e he
    have hseg : segmentList id base data offset = d :: segmentList id base data (offset + n) := by
      rw [segmentList, if_pos hlt]
      rfl
    have hrec : segments id base data offset q =
        segments id base data (offset + n) (q.insert d.offset d) := by
      rw [segments, if_pos hlt]
    rw [hrec, hseg, List.map_cons]
    by_cases hn : offset + n < data.length
    · have hnext := next_multiple (n := data.length) (k := k) (by rw [ho]; exact hn)
      rw [ho] at hnext
      have hpos : 0 < n := segLength_pos (by omega)
      rw [ih hnext.symm, hins, List.append_assoc]
      · rfl
      · intro e he
        rw [hins, List.mem_append, List.mem_singleton] at he
        rcases he with he | rfl
        · have := hq e he
          omega
        · show d.offset.toNat < _
          rw [hdo, hkey]
          omega
    · rw [segments, if_neg hn, segmentList, if_neg hn, hins]
      rfl
  | case2 offset q hlt =>
    rw [segments, if_neg hlt, segmentList, if_neg hlt]
    simp

theorem mem_segments_list {e : UInt32 × Datagram}
    (h : e ∈ (segments id base data offset q).entries) :
    e ∈ q.entries ∨ ∃ d ∈ segmentList id base data offset, e = fileSegment d := by
  induction offset, q using segments.induct id base data with
  | case1 offset q hlt n d ih =>
    have hseg : segmentList id base data offset = d :: segmentList id base data (offset + n) := by
      rw [segmentList, if_pos hlt]
      rfl
    rw [segments, if_pos hlt] at h
    rw [hseg]
    rcases ih h with h | ⟨x, hx, rfl⟩
    · rcases OMap.mem_insert.1 h with h | ⟨-, rfl⟩
      · exact .inl h
      · exact .inr ⟨d, List.mem_cons_self, rfl⟩
    · exact .inr ⟨x, List.mem_cons_of_mem _ hx, rfl⟩
  | case2 offset q hlt =>
    rw [segments, if_neg hlt] at h
    exact .inl h

theorem consecutive_last {o : UInt32} {l : List (UInt32 × Datagram)} {e : UInt32 × Datagram}
    (h : Consecutive o (l ++ [e])) :
    e.1 = o + .ofNat (l.map fun e => e.2.payload).flatten.length := by
  induction l generalizing o with
  | nil =>
    obtain ⟨h, -⟩ := h
    simpa using h
  | cons x xs ih =>
    obtain ⟨-, -, -, -, hlen, hrest⟩ := h
    have hx : x.2.length = .ofNat x.2.payload.length := by
      rw [← hlen, UInt32.ofNat_toNat]
    rw [ih hrest, hx, List.map_cons, List.flatten_cons, List.length_append, UInt32.ofNat_add,
      UInt32.add_assoc]

/-! ## `send` on an empty queue -/

/-- After a `send`: what is queued, in the order of its distance from `s` modulo 2^32,
is the data cut into consecutive segments from `s` on, and the one at `s` was sent. -/
def SentWhole (s : UInt32) (data : Bytes) (r : Stream × List StreamEff) : Prop :=
  ∃ l : List (UInt32 × Datagram), l.Perm r.1.sendDatagramQueue.entries ∧
    l.Pairwise (fun a b => a.1 - s < b.1 - s) ∧ Consecutive s l ∧
    (l.map fun e => e.2.payload).flatten = data ∧ sends r.2 = (l.head?.map Prod.snd).toList

/-- What a `send` on an empty queue files. -/
def queued (s : Stream) (data : Bytes) : DatagramMap := segments s.id s.sendOffset.toNat data 0 .empty

variable {s : Stream}

theorem enqueue_queue (hq : s.sendDatagramQueue = .empty) (data : Bytes) :
    (s.enqueue data).sendDatagramQueue = s.queued data := by
  unfold enqueue currentMaxOffset queued
  rw [hq]
  rfl

theorem send_queue (hq : s.sendDatagramQueue = .empty) (data : Bytes) :
    (s.send data).1.sendDatagramQueue = dropSent s.sendOffset (s.queued data) ∧
      sends (s.send data).2 =
        ((dropSent s.sendOffset (s.queued data)).front?.map Prod.snd).toList := by
  unfold send
  rw [sendOneDatagram_sendQueue, sendOneDatagram_sends, enqueue_queue hq]
  exact ⟨rfl, rfl⟩

theorem queued_entries (hb : s.sendOffset.toNat + lastStart data.length < 2 ^ 32) :
    (s.queued data).entries =
      (segmentList s.id s.sendOffset.toNat data 0).map fileSegment := by
  exact segments_entries (k := 0) (q := .empty) hb fun e he => by cases he

/-- Without a wrap nothing that was queued is below the acknowledged offset. -/
theorem queued_not_lt (hb : s.sendOffset.toNat + lastStart data.length < 2 ^ 32)
    {e : UInt32 × Datagram} (he : e ∈ (s.queued data).entries) : ¬ e.1 < s.sendOffset := by
  rw [queued_entries hb] at he
  obtain ⟨d, hd, rfl⟩ := List.mem_map.1 he
  obtain ⟨j, -, hj, rfl⟩ := mem_segmentList (k := 0) hd
  have hle := offset_le_lastStart hj
  rw [UInt32.lt_iff_toNat_lt]
  show ¬ (UInt32.ofNat (segmentMax * j + s.sendOffset.toNat)).toNat < _
  rw [UInt32.toNat_ofNat_of_lt' (by show _ < 2 ^ 32; omega)]
  omega

/-- Without a wrap the first segment is sent. -/
theorem send_sends (hq : s.sendDatagramQueue = .empty)
    (hb : s.sendOffset.toNat + lastStart data.length < 2 ^ 32) (h0 : data ≠ []) :
    sends (s.send data).2 = [segmentAt s.id s.sendOffset.toNat data 0] := by
  rw [(send_queue hq data).2, dropSent_eq_self fun e he => queued_not_lt hb he, OMap.front?,
    queued_entries hb, segmentList, if_pos (List.length_pos_of_ne_nil h0)]
  rfl

theorem sentWhole_of_lt (hq : s.sendDatagramQueue = .empty)
    (hb : s.sendOffset.toNat + lastStart data.length < 2 ^ 32) :
    SentWhole s.sendOffset data (s.send data) := by
  obtain ⟨h1, h2⟩ := send_queue hq data
  rw [dropSent_eq_self fun e he => queued_not_lt hb he] at h1 h2
  refine ⟨(s.queued data).entries, ?_, ?_, ?_, ?_, ?_⟩
  · rw [h1]
  · refine (s.queued data).sorted.imp_of_mem fun {a b} ha hb' hlt => ?_
    have hna := queued_not_lt hb ha
    have hnb := queued_not_lt hb hb'
    rw [UInt32.not_lt] at hna hnb
    rw [UInt32.lt_iff_toNat_lt] at hlt ⊢
    rw [UInt32.toNat_sub_of_le _ _ hna, UInt32.toNat_sub_of_le _ _ hnb]
    rw [UInt32.le_iff_toNat_le] at hna
    omega
  · have h := segmentList_consecutive s.id s.sendOffset.toNat data 0
    rw [Nat.zero_add, UInt32.ofNat_toNat] at h
    rw [queued_entries hb]
    exact h
  · rw [queued_entries hb, List.map_map]
    exact segmentList_payloads s.id s.sendOffset.toNat data 0
  · rw [h2]
    rfl

/-- The last segment is never below the acknowledged offset if all of the data is
queued: it has not wrapped. -/
theorem lt_of_sentWhole (hq : s.sendDatagramQueue = .empty) (hd : data.length < 2 ^ 31)
    (h : SentWhole s.sendOffset data (s.send data)) :
    s.sendOffset.toNat + lastStart data.length < 2 ^ 32 := by
  have hs := s.sendOffset.toNat_lt
  obtain ⟨l, hperm, -, hcons, hdata, -⟩ := h
  rcases List.eq_nil_or_concat l with rfl | ⟨init, e, rfl⟩
  · rw [← hdata]
    simpa [lastStart] using hs
  · rw [List.concat_eq_append] at hperm hcons hdata
    have he : e ∈ (dropSent s.sendOffset (s.queued data)).entries := by
      rw [← (send_queue hq data).1]
      exact hperm.subset (by simp)
    obtain ⟨hmem, hge⟩ := mem_dropSent he
    rcases mem_segments_list hmem with hmem | ⟨d, hdm, rfl⟩
    · cases hmem
    obtain ⟨j, -, hj, rfl⟩ := mem_segmentList (k := 0) hdm
    have hpay := segmentAt_payload_length s.id s.sendOffset.toNat hj
    have hlast := consecutive_last hcons
    have hlen := congrArg List.length hdata
    simp only [List.map_append, List.map_cons, List.map_nil, List.flatten_append,
      List.flatten_cons, List.flatten_nil, List.append_nil, List.length_append] at hlen
    change _ + (segmentAt s.id s.sendOffset.toNat data (segmentMax * j)).payload.length = _ at hlen
    rw [hpay] at hlen
    generalize (init.map fun e => e.2.payload).flatten.length = t at hlast hlen
    -- the last segment starts where the others end
    have hkey : UInt32.ofNat (segmentMax * j) = UInt32.ofNat t := by
      change UInt32.ofNat (segmentMax * j + s.sendOffset.toNat) = _ at hlast
      rw [UInt32.ofNat_add, UInt32.ofNat_toNat, UInt32.add_comm] at hlast
      exact (UInt32.add_right_inj _).1 hlast
    have htj : segmentMax * j = t := by
      have := congrArg UInt32.toNat hkey
      rwa [UInt32.toNat_ofNat_of_lt' (by show _ < 2 ^ 32; omega),
        UInt32.toNat_ofNat_of_lt' (by show _ < 2 ^ 32; omega)] at this
    have hend := lastStart_of_end hj (by omega)
    rw [UInt32.lt_iff_toNat_lt] at hge
    change ¬ (UInt32.ofNat (segmentMax * j + s.sendOffset.toNat)).toNat < _ at hge
    rw [UInt32.toNat_ofNat'] at hge
    omega

/-- Of data that is sent on an empty queue all is queued, and the start is sent,
exactly if the last segment starts before the offsets wrap. -/
theorem segments_whole_iff (hq : s.sendDatagramQueue = .empty) (hd : data.length < 2 ^ 31) :
    SentWhole s.sendOffset data (s.send data) ↔
      s.sendOffset.toNat + lastStart data.length < 2 ^ 32 :=
  ⟨lt_of_sentWhole hq hd, sentWhole_of_lt hq⟩

/-- Three bytes, of which the last is beyond 2^32. -/
theorem segments_whole_near : SentWhole 4294967294 [1, 2, 3]
    (send { new 0 with sendOffset := 4294967294 } [1, 2, 3]) :=
  (segments_whole_iff (s := { new 0 with sendOffset := 4294967294 }) rfl (by decide)).2 (by decide)

/-- Counterexample: 1001 bytes, 1000 before 2^32. The second segment gets the offset 0
and is erased. -/
theorem segments_lost : ¬ SentWhole 4294966296 (List.replicate 1001 7)
    (send { new 0 with sendOffset := 4294966296 } (List.replicate 1001 7)) := by
  intro h
  have hlt := lt_of_sentWhole (s := { new 0 with sendOffset := 4294966296 }) rfl
    (by rw [List.length_replicate]; decide) h
  rw [List.length_replicate] at hlt
  exact absurd hlt (by decide)

end ShadowTalk.Sml.Stream
