import ShadowTalk.Sml.Tunnel

/-!
# From one application to the other

A run of the tunnel is explained by a run of the two handshakes (`PeerNet`) and, for each
stream and each direction, by a run of one sender and one receiver (`StreamNet`): what
arrives encrypted is decrypted with the key it was encrypted with, and so `stream::feed`
sees a datagram that the other side has handed to `send_datagram`.

* `sim_inductive`: there are such runs for every state of a clean run.
* `delivered_prefix_of_clean`: what one application is given from a stream is a prefix of
  what the other one has sent on it.
-/
namespace ShadowTalk.Sml
open ShadowTalk.Core

/-- For each side and each stream, what the side sends and the other one receives. -/
abbrev Lines := Side → UInt32 → StreamNet

namespace Lines

/-- Only the line of `x` and `id` changes. -/
def set (str : Lines) (x : Side) (id : UInt32) (t : StreamNet) : Lines :=
  fun y i => if y = x ∧ i = id then t else str y i

variable (str : Lines) (x : Side) (id : UInt32) (t : StreamNet)

@[simp] theorem set_self : str.set x id t x id = t := if_pos ⟨rfl, rfl⟩

@[simp] theorem set_other (i : UInt32) : str.set x id t x.other i = str x.other i :=
  if_neg fun h => Side.other_ne x h.1

theorem set_ne (y : Side) {i : UInt32} (hi : i ≠ id) : str.set x id t y i = str y i :=
  if_neg fun h => hi h.2

/-- Everything said so far is still said. -/
structure Grow (str str' : Lines) : Prop where
  toB : ∀ x i d, d ∈ (str x i).toB → d ∈ (str' x i).toB
  toA : ∀ x i d, d ∈ (str x i).toA → d ∈ (str' x i).toA

theorem Grow.refl : Grow str str := ⟨fun _ _ _ h => h, fun _ _ _ h => h⟩

variable {str x id t}

theorem Grow.set (hB : ∀ d ∈ (str x id).toB, d ∈ t.toB) (hA : ∀ d ∈ (str x id).toA, d ∈ t.toA) :
    Grow str (str.set x id t) := by
  refine ⟨fun y i d hd => ?_, fun y i d hd => ?_⟩
  · unfold Lines.set
    split
    · rename_i h
      obtain ⟨rfl, rfl⟩ := h
      exact hB d hd
    · exact hd
  · unfold Lines.set
    split
    · rename_i h
      obtain ⟨rfl, rfl⟩ := h
      exact hA d hd
    · exact hd

/-- `x` has handed `d` to `send_datagram`: it sends data, or acknowledges the data of the
other side. -/
structure Said (str : Lines) (x : Side) (d : Datagram) : Prop where
  le : d.payload.length ≤ Stream.segmentMax
  mem : d ∈ (str x d.id).toB ∨ d ∈ (str x.other d.id).toA

theorem Said.grow {str' : Lines} {d : Datagram} (h : Said str x d) (hg : Grow str str') :
    Said str' x d := ⟨h.le, h.mem.imp (hg.toB _ _ _) (hg.toA _ _ _)⟩

end Lines

namespace Tunnel
open Lines

/-- The lines explain the streams of both peers. -/
structure Explains (s : Tunnel) (str : Lines) : Prop where
  reachable : ∀ x i, ((StreamNet.lts i).guard StreamNet.SendClean).Reachable (str x i)
  small : ∀ x i, (str x i).total < 2 ^ 32
  sent : ∀ x i, (str x i).sent = s.sentOn x i
  delivered : ∀ x i, (str x i).delivered = s.delivered x.other i
  sender : ∀ x i, ((s.peer.get x).stream i).SendAs (str x i).a
  receiver : ∀ x i, ((s.peer.get x.other).stream i).RecvAs (str x i).b

variable {env : Env} {conf : Side → Configuration} {s : Tunnel} {str : Lines} {x : Side}
  {iv : Nat → Iv} {p q : Peer} {id : UInt32} {t : StreamNet} {d : Datagram}

theorem Explains.inv (h : Explains s str) (x : Side) (i : UInt32) : (str x i).Inv :=
  (StreamNet.inv_inductive i).of_guard.reachable (h.reachable x i) (h.small x i)

/-- What has been received is delivered. -/
theorem Explains.stop (h : Explains s str) (x : Side) (i : UInt32) :
    ∀ e, ((s.peer.get x).stream i).recvDatagramQueue.front? = some e →
      e.1 ≠ ((s.peer.get x).stream i).recvOffset := by
  have hr := h.receiver x.other i
  rw [Side.other_other] at hr
  rw [← hr.queue, ← hr.recvOffset]
  exact (h.inv x.other i).stop

section
variable (env s x iv q)

@[simp] theorem put_peer_self : (s.put env x iv q).peer.get x = q.flush := Two.get_set_self _ _ _

@[simp] theorem put_peer_other : (s.put env x iv q).peer.get x.other = s.peer.get x.other :=
  Two.get_set_other _ _ _

@[simp] theorem put_sentOn (y : Side) (i : UInt32) : (s.put env x iv q).sentOn y i = s.sentOn y i :=
  rfl

theorem put_delivered_self (i : UInt32) :
    (s.put env x iv q).delivered x i = s.delivered x i ++ Peer.payloads i q.out := by
  unfold delivered put
  rw [Two.get_set_self, Peer.payloads_append, Peer.payloads_ringPuts]

@[simp] theorem put_delivered_other (i : UInt32) :
    (s.put env x iv q).delivered x.other i = s.delivered x.other i := by
  unfold delivered put
  rw [Two.get_set_other]

end

/-- The peer of `x` has become `q`: what the lines from `x` send, and what the lines to `x`
receive, has to be explained again. -/
theorem Explains.put {s₁ : Tunnel} {str' : Lines} (h : Explains s str) (hp : s₁.peer = s.peer)
    (hring : s₁.ring = s.ring)
    (hreach : ∀ y i, ((StreamNet.lts i).guard StreamNet.SendClean).Reachable (str' y i))
    (hsmall : ∀ y i, (str' y i).total < 2 ^ 32) (hsent : ∀ y i, (str' y i).sent = s₁.sentOn y i)
    (hsender : ∀ i, (q.stream i).SendAs (str' x i).a)
    (hreceiver : ∀ i, (q.stream i).RecvAs (str' x.other i).b)
    (hdelivered : ∀ i, (str' x.other i).delivered =
      (str x.other i).delivered ++ Peer.payloads i q.out)
    (ha : ∀ i, (str' x.other i).a = (str x.other i).a)
    (hb : ∀ i, (str' x i).b = (str x i).b ∧ (str' x i).delivered = (str x i).delivered) :
    Explains (s₁.put env x iv q) str' where
  reachable := hreach
  small := hsmall
  sent := hsent
  delivered y i := by
    have hkeep : ∀ z j, s₁.delivered z j = s.delivered z j := fun z j => by
      rw [Tunnel.delivered, hring]
      rfl
    rcases Side.eq_or_eq_other x y with rfl | rfl
    · rw [(hb i).2, put_delivered_other, h.delivered, hkeep]
    · rw [hdelivered, h.delivered, Side.other_other, put_delivered_self, hkeep]
  sender y i := by
    rcases Side.eq_or_eq_other x y with rfl | rfl
    · rw [put_peer_self]
      exact hsender i
    · rw [put_peer_other, ha, hp]
      exact h.sender _ i
  receiver y i := by
    rcases Side.eq_or_eq_other x y with rfl | rfl
    · rw [put_peer_other, (hb i).1, hp]
      exact h.receiver _ i
    · rw [Side.other_other, put_peer_self]
      exact hreceiver i

theorem Explains.recvAs (h : Explains s str) (x : Side) (i : UInt32) :
    ((s.peer.get x).stream i).RecvAs (str x.other i).b := by
  have hr := h.receiver x.other i
  rwa [Side.other_other] at hr

/-- No stream does anything. -/
theorem Explains.idle (h : Explains s str) (hout : (s.peer.get x).out = [])
    (hi : (s.peer.get x).Idles q) : Explains (s.put env x iv q) str := by
  refine h.put rfl rfl h.reachable h.small h.sent (fun i => ?_) (fun i => ?_) (fun i => ?_)
    (fun _ => rfl) fun _ => ⟨rfl, rfl⟩
  · rw [hi.stream]
    exact h.sender x i
  · rw [hi.stream]
    exact h.recvAs x i
  · rw [hi.payloads, hout]
    simp

/-- One step of one line. -/
theorem Explains.reachable_set (h : Explains s str) {y : Side} {l : StreamNet.Label}
    (hs : StreamNet.step (str y id) l = some t) (hc : StreamNet.SendClean (str y id) l)
    (z : Side) (i : UInt32) :
    ((StreamNet.lts i).guard StreamNet.SendClean).Reachable (str.set y id t z i) := by
  unfold Lines.set
  split
  · rename_i he
    obtain ⟨rfl, rfl⟩ := he
    exact (h.reachable z i).step ⟨hs, hc⟩
  · exact h.reachable z i

theorem small_set {y : Side} (h : ∀ z i, (str z i).total < 2 ^ 32) (ht : t.total < 2 ^ 32)
    (z : Side) (i : UInt32) : (str.set y id t z i).total < 2 ^ 32 := by
  unfold Lines.set
  split
  · exact ht
  · exact h z i

/-- The sending half of stream `id` of `x` takes a step of its line. -/
theorem Explains.sending {s₁ : Tunnel} {r : Stream × List StreamEff} {l : StreamNet.Label}
    (h : Explains s str) (hp : s₁.peer = s.peer) (hring : s₁.ring = s.ring)
    (hout : (s.peer.get x).out = []) (hruns : Peer.Runs id r (s.peer.get x) q)
    (hs : StreamNet.step (str x id) l = some t) (hc : StreamNet.SendClean (str x id) l)
    (hsmall : t.total < 2 ^ 32)
    (hsent : ∀ y i, (str.set x id t y i).sent = s₁.sentOn y i) (hsend : r.1.SendAs t.a)
    (hrecv : ((s.peer.get x).stream id).RecvAs r.1) (hnone : received r.2 = [])
    (hb : t.b = (str x id).b) (hdel : t.delivered = (str x id).delivered) :
    Explains (s₁.put env x iv q) (str.set x id t) := by
  refine h.put hp hring (h.reachable_set hs hc) (small_set h.small hsmall) hsent (fun i => ?_)
    (fun i => ?_) (fun i => ?_) (fun i => by rw [set_other]) fun i => ?_
  · by_cases hi : i = id
    · subst hi
      rw [set_self, hruns.stream]
      exact hsend
    · rw [set_ne _ _ _ _ _ hi, hruns.others i hi]
      exact h.sender x i
  · rw [set_other]
    by_cases hi : i = id
    · subst hi
      rw [hruns.stream]
      exact hrecv.symm.trans (h.recvAs x i)
    · rw [hruns.others i hi]
      exact h.recvAs x i
  · rw [set_other]
    have hnil : Peer.payloads i q.out = [] := by
      by_cases hi : i = id
      · subst hi
        rw [hruns.payloads, hout, hnone]
        rfl
      · rw [hruns.otherPayloads i hi, hout]
        rfl
    rw [hnil, List.append_nil]
  · by_cases hi : i = id
    · subst hi
      rw [set_self]
      exact ⟨hb, hdel⟩
    · rw [set_ne _ _ _ _ _ hi]
      exact ⟨rfl, rfl⟩

/-- The receiving half of stream `id` of `x` takes a step of its line. -/
theorem Explains.receiving {r : Stream × List StreamEff} {l : StreamNet.Label}
    (h : Explains s str) (hout : (s.peer.get x).out = []) (hruns : Peer.Runs id r (s.peer.get x) q)
    (hs : StreamNet.step (str x.other id) l = some t)
    (hc : StreamNet.SendClean (str x.other id) l) (hrecv : r.1.RecvAs t.b)
    (hsend : ((s.peer.get x).stream id).SendAs r.1) (ha : t.a = (str x.other id).a)
    (hsent : t.sent = (str x.other id).sent)
    (hdel : t.delivered = (str x.other id).delivered ++ received r.2) :
    Explains (s.put env x iv q) (str.set x.other id t) := by
  have hself : ∀ i, str.set x.other id t x i = str x i := fun i => by
    have := set_other str x.other id t i
    rwa [Side.other_other] at this
  have hsmall : t.total < 2 ^ 32 := by
    rw [StreamNet.total, hsent]
    exact h.small x.other id
  refine h.put rfl rfl (h.reachable_set hs hc) (small_set h.small hsmall) (fun y i => ?_)
    (fun i => ?_) (fun i => ?_) (fun i => ?_) (fun i => ?_) fun i => by
      rw [hself]; exact ⟨rfl, rfl⟩
  · unfold Lines.set
    split
    · rename_i he
      obtain ⟨rfl, rfl⟩ := he
      rw [hsent, h.sent]
    · exact h.sent y i
  · rw [hself]
    by_cases hi : i = id
    · subst hi
      rw [hruns.stream]
      exact hsend.symm.trans (h.sender x i)
    · rw [hruns.others i hi]
      exact h.sender x i
  · by_cases hi : i = id
    · subst hi
      rw [set_self, hruns.stream]
      exact hrecv
    · rw [set_ne _ _ _ _ _ hi, hruns.others i hi]
      exact h.recvAs x i
  · by_cases hi : i = id
    · subst hi
      rw [set_self, hruns.payloads, hout, hdel]
      rfl
    · rw [set_ne _ _ _ _ _ hi, hruns.otherPayloads i hi, hout]
      simp
  · by_cases hi : i = id
    · subst hi
      rw [set_self, ha]
    · rw [set_ne _ _ _ _ _ hi]

/-! ## What goes out encrypted -/

/-- `x` encrypts with the key it has, and what a line of `x` has sent. -/
def Seals (str : Lines) (x : Side) (p q : Peer) : Prop :=
  ∀ e ∈ Peer.encrypted q.out, p.Agreed ∧ e.1 = p.encryptLayer ∧ Said str x e.2

theorem seals_of_idles (hout : p.out = []) (hi : p.Idles q) : Seals str x p q := by
  intro e he
  rw [hi.encrypted, hout] at he
  cases he

theorem seals_of_runs {r : Stream × List StreamEff} (hout : p.out = []) (hr : Peer.Runs id r p q)
    (hs : ∀ d ∈ sends r.2, Said str x d) : Seals str x p q := by
  intro e he
  rw [hr.encrypted, hout] at he
  split at he
  · rename_i hb
    obtain ⟨d, hd, rfl⟩ := List.mem_map.1 he
    simp only [Bits.established, Bool.and_eq_true] at hb
    exact ⟨hb.2, rfl, hs d hd⟩
  · cases he

theorem segmented (h : p.Streams) (i : UInt32) : Stream.Segmented i (p.stream i) := by
  unfold Peer.stream
  cases hf : p.streamMap.find? i with
  | none => exact Stream.segmented_new i
  | some u => exact h i u hf

/-- The sending half of a line has sent these datagrams. -/
theorem said_sending {es : List StreamEff} (hs : ∀ d ∈ sends es, Stream.Says id d)
    (ht : ∀ d ∈ sends es, d ∈ t.toB) : ∀ d ∈ sends es, Said (str.set x id t) x d := by
  intro d hd
  obtain ⟨hid, -, hle⟩ := hs d hd
  refine ⟨hle, .inl ?_⟩
  rw [hid, set_self]
  exact ht d hd

/-- The receiving half of a line has answered with these datagrams. -/
theorem said_receiving {es : List StreamEff} (hs : ∀ d ∈ sends es, Stream.Says id d)
    (ht : ∀ d ∈ sends es, d ∈ t.toA) : ∀ d ∈ sends es, Said (str.set x.other id t) x d := by
  intro d hd
  obtain ⟨hid, -, hle⟩ := hs d hd
  refine ⟨hle, .inr ?_⟩
  rw [hid, set_self]
  exact ht d hd

theorem sent_set (h : ∀ y i, (str y i).sent = s.sentOn y i) (ht : t.sent = (str x id).sent)
    (y : Side) (i : UInt32) : (str.set x id t y i).sent = s.sentOn y i := by
  unfold Lines.set
  split
  · rename_i he
    obtain ⟨rfl, rfl⟩ := he
    rw [ht, h]
  · exact h y i

/-- What the other side has said arrives at a stream. -/
theorem Explains.fed (h : Explains s str) (hout : (s.peer.get x).out = [])
    (hst : (s.peer.get x).Streams) (hd : Said str x.other d)
    (hr : Peer.Runs d.id (((s.peer.get x).stream d.id).feed d) (s.peer.get x) q) :
    ∃ str', Grow str str' ∧ Explains (s.put env x iv q) str' ∧ Seals str' x (s.peer.get x) q := by
  have hsays := (segmented hst d.id).says_feed d
  rcases hd.mem with hB | hA
  · -- data for the receiving half
    have htype : d.type = .data := ((h.inv x.other d.id).carries.toB d hB).type
    obtain ⟨hrecv, heff⟩ := (h.recvAs x d.id).feed htype
    have hstep : StreamNet.step (str x.other d.id) (.toB d) =
        some ((str x.other d.id).putB ((str x.other d.id).b.feed d)) := if_pos hB
    refine ⟨str.set x.other d.id ((str x.other d.id).putB ((str x.other d.id).b.feed d)),
      Grow.set (fun _ hm => hm) fun _ hm => List.mem_append_left _ hm,
      h.receiving hout hr hstep trivial hrecv (Stream.sendAs_feed _ htype) rfl rfl ?_,
      seals_of_runs hout hr (said_receiving hsays fun y hy => ?_)⟩
    · rw [← heff]
      rfl
    · rw [← heff] at hy
      exact List.mem_append_right _ hy
  · -- an acknowledgement for the sending half
    rw [Side.other_other] at hA
    have htype : d.type = .dataAck := ((h.inv x d.id).acks d hA).1
    have hstop : ∀ e, (str x d.id).a.recvDatagramQueue.front? = some e →
        e.1 ≠ (str x d.id).a.recvOffset := by
      intro e he
      rw [(h.inv x d.id).aRecv] at he
      cases he
    obtain ⟨hsend, heff, hrecv⟩ := (h.sender x d.id).feed_dataAck htype (h.stop x d.id) hstop
    have hstep : StreamNet.step (str x d.id) (.toA d) =
        some ((str x d.id).putA ((str x d.id).a.feed d)) := if_pos hA
    have hnone : received (((s.peer.get x).stream d.id).feed d).2 = [] := by
      rw [Stream.feed_dataAck_of_stop htype (h.stop x d.id)]
      exact Stream.sendOneDatagram_received _
    refine ⟨str.set x d.id ((str x d.id).putA ((str x d.id).a.feed d)),
      Grow.set (fun _ hm => List.mem_append_left _ hm) fun _ hm => hm,
      h.sending rfl rfl hout hr hstep trivial (h.small x d.id) (sent_set h.sent rfl) hsend hrecv
        hnone rfl rfl, seals_of_runs hout hr (said_sending hsays fun y hy => ?_)⟩
    rw [← heff] at hy
    exact List.mem_append_right _ hy

theorem call_sentOn (s : Tunnel) (x : Side) (i : UInt32) (data : Bytes) (y : Side) (j : UInt32) :
    (s.call x (.send i data)).sentOn y j =
      s.sentOn y j ++ if y = x ∧ j = i then [data] else [] := by
  unfold call sentOn
  rcases Side.eq_or_eq_other x y with rfl | rfl
  · rw [Two.get_set_self, List.filterMap_append]
    by_cases hj : i = j
    · simp [hj]
    · simp [hj, Ne.symm hj]
  · rw [Two.get_set_other, if_neg fun h => Side.other_ne x h.1, List.append_nil]

/-- A call, or a timer. -/
theorem Explains.handled {e : Peer.Event} (h : Explains s str) (hout : (s.peer.get x).out = [])
    (hst : (s.peer.get x).Streams) (hc : Clean env s (.act x e iv))
    (hr : Peer.HandleRuns (s.peer.get x) q e) :
    ∃ str', Grow str str' ∧ Explains ((s.call x e).put env x iv q) str' ∧
      Seals str' x (s.peer.get x) q := by
  cases hr with
  | idle he hi =>
    have hcall : s.call x e = s := by
      cases e with
      | send i data => exact absurd rfl (he i data)
      | _ => rfl
    rw [hcall]
    exact ⟨str, .refl str, h.idle hout hi, seals_of_idles hout hi⟩
  | send i data hr =>
    obtain ⟨hlt, hclean⟩ := hc
    obtain ⟨hsend, heff⟩ := (h.sender x i).send data
    have htotal : ((str x i).grow data).sent.flatten = (s.sentOn x i).flatten ++ data := by
      rw [StreamNet.sent_grow, h.sent]
    have hsc : StreamNet.SendClean (str x i) (.send data) := by
      refine hclean.imp id fun hq => ⟨(h.sender x i).queue.trans hq.1, ?_⟩
      rw [(h.sender x i).sendOffset, hq.2, StreamNet.total, h.sent]
    have hsays : ∀ d ∈ sends (((s.peer.get x).stream i).send data).2, Stream.Says i d :=
      ((segmented hst i).enqueue data).says_sendOneDatagram
    refine ⟨str.set x i (((str x i).grow data).putA ((str x i).a.send data)),
      Grow.set (fun _ hm => List.mem_append_left _ hm) fun _ hm => hm,
      h.sending (l := .send data) rfl rfl hout hr rfl hsc ?_ (fun y j => ?_) hsend
        (Stream.recvAs_send _ data) (Stream.sendOneDatagram_received _) rfl rfl,
      seals_of_runs hout hr (said_sending hsays fun y hy => ?_)⟩
    · show ((str x i).grow data).sent.flatten.length < 2 ^ 32
      rw [htotal]
      exact hlt
    · rw [call_sentOn]
      unfold Lines.set
      split
      · show (str x i).sent ++ [data] = _
        rename_i he
        rw [h.sent, he.1, he.2]
      · rw [h.sent, List.append_nil]
    · rw [← heff] at hy
      exact List.mem_append_right _ hy
  | expire i hs hr =>
    obtain ⟨v, hv, hsend, hrecv⟩ := (h.sender x i).expire hs
    refine ⟨str.set x i { str x i with a := v },
      Grow.set (fun _ hm => hm) fun _ hm => hm,
      h.sending (l := .expire) rfl rfl hout hr ?_ trivial (h.small x i) (sent_set h.sent rfl) hsend
        hrecv rfl rfl rfl, seals_of_runs hout hr fun _ hd => by cases hd⟩
    rw [StreamNet.step, hv]
    rfl
  | @retransmit u i hs hr =>
    obtain ⟨v, hv, hsend, heff, hrecv⟩ := (h.sender x i).retransmit hs
    have hnone : received u.2 = [] := by
      obtain ⟨f, -, rfl⟩ := Option.map_eq_some_iff.1 hs
      exact Stream.sendOneDatagram_received _
    refine ⟨str.set x i ((str x i).putA v),
      Grow.set (fun _ hm => List.mem_append_left _ hm) fun _ hm => hm,
      h.sending (l := .retransmit) rfl rfl hout hr ?_ trivial (h.small x i) (sent_set h.sent rfl)
        hsend hrecv hnone rfl rfl,
      seals_of_runs hout hr (said_sending ((segmented hst i).says_retransmit hs) fun y hy => ?_)⟩
    · rw [StreamNet.step, hv]
      rfl
    · rw [← heff] at hy
      exact List.mem_append_right _ hy

/-! ## The bytes on the wire -/

/-- What `x` has put on the wire: a datagram of the handshake, or one that it has encrypted
with the key it still has. -/
inductive OnWire (env : Env) (n : PeerNet) (str : Lines) (x : Side) (bytes : Bytes) : Prop
  | raw (u : Packet Datagram (Tag Datagram)) (hu : u ∈ n.net) (hx : u.src = x) (hd : Raw u.msg)
    (hb : u.msg.toBytes env.endian = .ok bytes)
  | sealed (key : Bytes) (iv : Iv) (d : Datagram) (ha : (n.get x).state.Agreed)
    (hk : (n.get x).state.encryptLayer = some key) (hd : Said str x d)
    (hb : (d.encryptPayload env key iv).toBytes env.endian = .ok bytes)

/-- A run of the handshakes and a run of each line explain the state. -/
structure Sim (env : Env) (conf : Side → Configuration) (s : Tunnel) (n : PeerNet) (str : Lines) :
    Prop where
  net : ((PeerNet.lts env conf).guard PeerNet.NoReset).Reachable n
  peer : ∀ x, (n.get x).state = s.peer.get x
  raws : ∀ x, (s.peer.get x).Raws
  streams : ∀ x, (s.peer.get x).Streams
  explains : Explains s str
  wire : ∀ w ∈ s.wire, OnWire env n str w.1 w.2

theorem toOption_eq_some {α : Type} {r : Except Exc α} {a : α} (h : r.toOption = some a) :
    r = .ok a := by
  cases r with
  | error e => cases h
  | ok b => exact congrArg _ (Option.some.inj h)

/-- What is on the wire comes from one effect. -/
theorem mem_wires {es : List PeerEff} {w : Bytes} (h : w ∈ wires env iv es) :
    (∃ d ∈ Peer.rawSends es, d.toBytes env.endian = .ok w) ∨
      ∃ key d v, (some key, d) ∈ Peer.encrypted es ∧
        (d.encryptPayload env key (v : Iv)).toBytes env.endian = .ok w := by
  obtain ⟨⟨e, k⟩, he, hw⟩ := List.mem_filterMap.1 h
  have hmem : e ∈ es := List.fst_mem_of_mem_zipIdx he
  unfold PeerEff.wire at hw
  split at hw
  · rename_i d hd
    simp only at hd
    exact .inl ⟨d, List.mem_filterMap.2 ⟨e, hmem, by rw [hd]⟩, toOption_eq_some hw⟩
  · rename_i key d hd
    simp only at hd
    exact .inr ⟨key, d, _, List.mem_filterMap.2 ⟨e, hmem, by rw [hd]⟩, toOption_eq_some hw⟩
  · cases hw

variable {n : PeerNet}

theorem Sim.ok (h : Sim env conf s n str) : PeerNet.NetOk env conf n := PeerNet.netOk h.net

theorem Sim.out (h : Sim env conf s n str) (x : Side) : (s.peer.get x).out = [] := by
  rw [← h.peer]
  exact h.ok.out x

theorem Sim.inv (h : Sim env conf s n str) (x : Side) : (s.peer.get x).Inv env (conf x) := by
  rw [← h.peer]
  exact (h.ok.peer x).inv

/-- The handshakes can take the step that makes the peer of `x` become `q`. -/
def Steps (env : Env) (conf : Side → Configuration) (n : PeerNet) (x : Side) (q : Peer) : Prop :=
  ∃ l k c, ((PeerNet.lts env conf).guard PeerNet.NoReset).step n l
    (n.move (peerMachine env conf) x (⟨q.flush, k⟩, Peer.rawSends q.out) c)

/-- A step of `x`: the handshakes follow, the lines have followed. -/
theorem Sim.put {s₁ : Tunnel} {str' : Lines} (h : Sim env conf s n str) (hwire : s₁.wire = s.wire)
    (hp : s₁.peer = s.peer) (hs : Steps env conf n x q) (hraws : q.Raws) (hstreams : q.Streams)
    (hg : Grow str str') (he : Explains (s₁.put env x iv q) str')
    (hseal : Seals str' x (s.peer.get x) q) :
    ∃ n' str', Sim env conf (s₁.put env x iv q) n' str' := by
  obtain ⟨l, k, c, hs⟩ := hs
  refine ⟨n.move (peerMachine env conf) x (⟨q.flush, k⟩, Peer.rawSends q.out) c, str', h.net.step hs,
    fun y => ?_, fun y => ?_, fun y => ?_, he, fun w hw => ?_⟩
  · rcases Side.eq_or_eq_other x y with rfl | rfl
    · rw [Net.get_move_self, put_peer_self]
    · rw [Net.get_move_other, put_peer_other, hp, h.peer]
  · rcases Side.eq_or_eq_other x y with rfl | rfl
    · rw [put_peer_self]
      exact hraws.flush
    · rw [put_peer_other, hp]
      exact h.raws _
  · rcases Side.eq_or_eq_other x y with rfl | rfl
    · rw [put_peer_self]
      exact hstreams
    · rw [put_peer_other, hp]
      exact h.streams _
  · rcases List.mem_append.1 hw with hw | hw
    · rw [hwire] at hw
      cases h.wire w hw with
      | raw u hu hx hd hb => exact .raw u (Net.mem_move.2 (.inl hu)) hx hd hb
      | sealed key v d ha hk hd hb =>
        have hkeep := PeerNet.keepsKey_step h.ok hs ha
        exact .sealed key v d hkeep.agreed (hkeep.encryptLayer.trans hk) (hd.grow hg) hb
    · obtain ⟨b, hb, rfl⟩ := List.mem_map.1 hw
      rcases mem_wires hb with ⟨d, hd, hb⟩ | ⟨key, d, v, hd, hb⟩
      · obtain ⟨u, hu, hx, hm⟩ := Net.exists_mem_move n x (⟨q.flush, k⟩, _) c hd
        exact .raw u hu hx (hm ▸ hraws.out d hd) (hm ▸ hb)
      · obtain ⟨ha, hk, hsaid⟩ := hseal _ hd
        rw [← h.peer] at ha hk
        have hkeep := PeerNet.keepsKey_step h.ok hs ha
        exact .sealed key v d hkeep.agreed (hkeep.encryptLayer.trans hk.symm) hsaid hb

/-! ## The steps -/

theorem steps_deliver {u : Packet Datagram (Tag Datagram)} {y : Side} {priv : Bytes}
    (hu : u ∈ n.net) (hy : u.src.other = y) (hp : (n.get y).state = p)
    (hno : u.msg.type = .hello → p.datagramHandler ≠ .established) :
    Steps env conf n y (p.recv env (conf y) u.msg priv).1 := by
  subst hy hp
  obtain ⟨j, hj⟩ := List.getElem?_of_mem hu
  refine ⟨.deliver j priv, (n.get u.src.other).resets + (n.get u.src.other).state.resetBy u.msg,
    some u.msg, ?_, fun v hv ht => ?_⟩
  · show (n.net[j]?.map fun v => n.arrive (peerMachine env conf) v priv) = _
    rw [hj]
    rfl
  · obtain rfl : u = v := Option.some.inj (hj.symm.trans hv)
    exact hno ht

theorem steps_junk {priv : Bytes} (hp : (n.get x).state = p) (hd : Peer.isJunk d = true) :
    Steps env conf n x (p.recv env (conf x) d priv).1 := by
  subst hp
  refine ⟨.act x (.junk d priv), (n.get x).resets, none, ?_, trivial⟩
  show Option.map _ (if Peer.isJunk d then some _ else none) = some _
  rw [if_pos hd]
  rfl

theorem steps_handle {e : Peer.Event} {r : Peer × Option Exc} (hp : (n.get x).state = p)
    (he : ∀ d priv, e ≠ .recv d priv) (hr : p.handle env (conf x) e = some r) :
    Steps env conf n x r.1 := by
  subst hp
  have stream : e.isStream = true → Steps env conf n x r.1 := by
    intro hs
    refine ⟨.act x (.stream e), (n.get x).resets, none, ?_, trivial⟩
    show Option.map _ (if e.isStream then Option.map _ _ else none) = some _
    rw [if_pos hs, hr]
    rfl
  cases e with
  | recv d priv => exact absurd rfl (he d priv)
  | expire =>
    refine ⟨.act x .expire, (n.get x).resets, none, ?_, trivial⟩
    show Option.map _ (Option.map _ ((n.get x).state.handle env (conf x) .expire)) = some _
    rw [hr]
    rfl
  | retransmit =>
    refine ⟨.act x .retransmit, (n.get x).resets, none, ?_, trivial⟩
    show Option.map _ (Option.map _ ((n.get x).state.handle env (conf x) .retransmit)) = some _
    rw [hr]
    rfl
  | _ => exact stream rfl

/-- The bytes fit the buffer. -/
theorem recv_eq {y : Side} {bytes priv : Bytes} (hle : bytes.length ≤ bufferSize)
    (hp : Datagram.parse env.endian bytes = .ok d) : s.recv env conf y bytes priv iv =
      s.put env y iv ((s.peer.get y).recv env (conf y) d priv).1 := by
  have htake : Datagram.parse env.endian (bytes.take bufferSize) = .ok d :=
    (congrArg _ (List.take_of_length_le hle)).trans hp
  show s.feed env conf y (Datagram.parse env.endian (bytes.take bufferSize)) priv iv = _
  rw [htake]
  rfl

/-- A datagram of the handshake arrives as it was sent. -/
theorem parse_raw (hd : Raw d) {bytes : Bytes} (hb : d.toBytes env.endian = .ok bytes) :
    bytes.length ≤ bufferSize ∧ Datagram.parse env.endian bytes = .ok d := by
  have hle := hd.le
  have hlen := Datagram.encode_length env.endian d
  rw [Datagram.toBytes_eq env.endian d (by omega), Except.ok.injEq] at hb
  subst hb
  refine ⟨?_, ?_⟩
  · rw [bufferSize]
    omega
  · rw [Datagram.parse_eq env.endian (by omega), if_pos (by omega), Datagram.decode_encode]

/-- A datagram of the handshake arrives. -/
theorem Sim.recv_raw {u : Packet Datagram (Tag Datagram)} {y : Side} {bytes priv : Bytes}
    (hf : ∀ x, Fits env (conf x)) (h : Sim env conf s n str) (hy : u.src.other = y)
    (hu : u ∈ n.net) (hd : Raw u.msg) (hb : u.msg.toBytes env.endian = .ok bytes)
    (hno : u.msg.type = .hello → (s.peer.get y).datagramHandler ≠ .established) :
    ∃ n' str', Sim env conf (s.recv env conf y bytes priv iv) n' str' := by
  obtain ⟨hle, hparse⟩ := parse_raw hd hb
  have hturn := Peer.turn_of_recv (h.inv y) u.msg priv
  -- an established peer takes none of these for a stream
  have hidle := hturn.idles fun he ht => by
    rcases ht with ht | ht | ht | ht
    · rcases hd.type with h' | h' | h' | h' | h' <;> rw [ht] at h' <;> cases h'
    · rcases hd.type with h' | h' | h' | h' | h' <;> rw [ht] at h' <;> cases h'
    · exact hno ht he
    · rcases hd.type with h' | h' | h' | h' | h' <;> rw [ht] at h' <;> cases h'
  have hout := h.out y
  rw [recv_eq hle hparse]
  exact h.put rfl rfl (steps_deliver hu hy (h.peer y) hno)
    (Peer.Raws.turn (hf y) (h.raws y) (fun _ => hd) hturn) (hturn.emits (h.inv y) (h.streams y)).1
    (.refl str) (h.explains.idle hout hidle) (seals_of_idles hout hidle)

theorem Explains.said_type (h : Explains s str) (hd : Said str x d) :
    d.type = .data ∨ d.type = .dataAck := by
  rcases hd.mem with hB | hA
  · exact .inl ((h.inv x d.id).carries.toB d hB).type
  · exact .inr ((h.inv x.other d.id).acks d hA).1

/-- An encrypted datagram arrives: a peer that is not established ignores it, and one that
is established has the key. -/
theorem Sim.recv_sealed {y : Side} {bytes priv key : Bytes} {v : Iv} (hp : PeerNet.Paired env conf)
    (hcfb : Cfb env) (hf : ∀ x, Fits env (conf x)) (h : Sim env conf s n str)
    (ha : (n.get y.other).state.Agreed) (hk : (n.get y.other).state.encryptLayer = some key)
    (hd : Said str y.other d)
    (hb : (d.encryptPayload env key v).toBytes env.endian = .ok bytes) :
    ∃ n' str', Sim env conf (s.recv env conf y bytes priv iv) n' str' := by
  obtain ⟨wire, w, hwire, hle, hparse, hdec⟩ := lossless_of_le hcfb hd.le v v.2
  obtain rfl : wire = bytes := Except.ok.inj (hwire.symm.trans hb)
  have hw := Peer.decryptPayload_ok (hdec _ hk)
  have htype : w.type = .data ∨ w.type = .dataAck := hw.2 ▸ h.explains.said_type hd
  have hjunk : Peer.isJunk w = true := by
    unfold Peer.isJunk Msg.of
    rcases htype with ht | ht <;> simp [ht]
  have hturn := Peer.turn_of_recv (h.inv y) w priv
  have hout := h.out y
  have hstreams := (hturn.emits (h.inv y) (h.streams y)).1
  have hraws : Peer.Raws ((s.peer.get y).recv env (conf y) w priv).1 :=
    Peer.Raws.turn (hf y) (h.raws y)
      (fun he => by rcases htype with ht | ht <;> rw [ht] at he <;> cases he) hturn
  rw [recv_eq hle hparse]
  by_cases he : (s.peer.get y).datagramHandler = .established
  · -- both sides have a key, and it is the same one
    have hay : (s.peer.get y).Agreed := by
      rw [Peer.Agreed, (h.inv y).establishedBits he]
    have hall : ∀ x, (n.get x).state.Agreed := by
      intro x
      rcases Side.eq_or_eq_other y x with rfl | rfl
      · rw [h.peer]
        exact hay
      · exact ha
    obtain ⟨_, k, hsame⟩ := PeerNet.same_key hp h.net hall
    have hkey : (s.peer.get y).encryptLayer = some key := by
      rw [← h.peer, (hsame y).2, ← hk, (hsame y.other).2]
    obtain ⟨-, hruns⟩ := Peer.recv_runs (h.inv y) he htype (hdec _ hkey) priv
    obtain ⟨str', hg, hex, hseal⟩ := h.explains.fed hout (h.streams y) hd hruns
    exact h.put rfl rfl (steps_junk (h.peer y) hjunk) hraws hstreams hg hex hseal
  · have hidle := hturn.idles fun h' => absurd h' he
    exact h.put rfl rfl (steps_junk (h.peer y) hjunk) hraws hstreams (.refl str)
      (h.explains.idle hout hidle) (seals_of_idles hout hidle)

/-- A timer, or a call. -/
theorem Sim.act {e : Peer.Event} {r : Peer × Option Exc} (h : Sim env conf s n str)
    (hc : Clean env s (.act x e iv)) (hrecv : ∀ d priv, e ≠ .recv d priv)
    (hr : (s.peer.get x).handle env (conf x) e = some r) :
    ∃ n' str', Sim env conf ((s.call x e).put env x iv r.1) n' str' := by
  have hdel : ∀ i, e ≠ .delStream i := by
    rintro i rfl
    exact hc
  have hwire : (s.call x e).wire = s.wire := by cases e <;> rfl
  have hpeer : (s.call x e).peer = s.peer := by cases e <;> rfl
  obtain ⟨str', hg, hex, hseal⟩ :=
    h.explains.handled (h.out x) (h.streams x) hc (Peer.handle_runs hr hrecv hdel)
  exact h.put hwire hpeer (steps_handle (h.peer x) hrecv hr) ((h.raws x).handle hrecv hr)
    ((h.streams x).handle (h.inv x) hr).1 hg hex hseal

theorem new_out (env : Env) (c : Configuration) :
    (Peer.new env c).out = [.send (.createHello c.id)] := rfl

theorem sim_start (hf : ∀ x, Fits env (conf x)) :
    Sim env conf (start env conf) (PeerNet.start env conf) fun _ i => .start i where
  net := .ofInit rfl
  peer x := by cases x <;> rfl
  raws x := by cases x <;> exact (Peer.raws_new (hf _)).flush
  streams x := by cases x <;> exact fun i u hu => by cases hu
  explains :=
    { reachable := fun x i => .ofInit rfl
      small := fun x i => Nat.two_pow_pos 32
      sent := fun x i => by cases x <;> rfl
      delivered := fun x i => by cases x <;> rfl
      sender := fun x i => by cases x <;> exact .refl _
      receiver := fun x i => by cases x <;> exact .refl _ }
  wire w hw := by
    have hello : ∀ {x : Side} {b : Bytes}, b ∈ wires env (fun _ => noIv) (Peer.new env (conf x)).out →
        ((.createHello (conf x).id : Datagram).toBytes env.endian = .ok b) := by
      intro x b hb
      rw [new_out] at hb
      rcases mem_wires hb with ⟨d, hd, hb⟩ | ⟨key, d, v, hd, -⟩
      · rwa [List.mem_singleton.1 hd] at hb
      · cases hd
    rcases List.mem_append.1 hw with hw | hw
    · obtain ⟨b, hb, rfl⟩ := List.mem_map.1 hw
      exact .raw _ List.mem_cons_self rfl (Peer.raw_hello (hf .a)) (hello hb)
    · obtain ⟨b, hb, rfl⟩ := List.mem_map.1 hw
      exact .raw _ (List.mem_cons_of_mem _ List.mem_cons_self) rfl (Peer.raw_hello (hf .b)) (hello hb)

/-! ## Runs -/

/-- Every step of a clean run is a step of the handshakes and of at most one line. -/
theorem sim_inductive (hp : PeerNet.Paired env conf) (hcfb : Cfb env)
    (hf : ∀ x, Fits env (conf x)) :
    ((lts env conf).guard (Clean env)).Inductive fun s => ∃ n str, Sim env conf s n str where
  init := forall_eq.2 ⟨_, _, sim_start hf⟩
  step s l s' h hs := by
    obtain ⟨n, str, h⟩ := h
    obtain ⟨hs, hc⟩ := hs
    cases l with
    | recv i priv iv =>
      obtain ⟨⟨x, bytes⟩, hi, rfl⟩ := Option.map_eq_some_iff.1
        (show (s.wire[i]?).map (fun w => s.recv env conf w.1.other w.2 priv iv) = some s' from hs)
      cases h.wire _ (List.mem_of_getElem? hi) with
      | raw u hu hx hd hb =>
        refine h.recv_raw hf (congrArg Side.other hx) hu hd hb fun ht => ?_
        obtain ⟨hle, hparse⟩ := parse_raw hd hb
        refine hc (x, bytes) hi u.msg ?_ ht
        rw [List.take_of_length_le hle, hparse]
        rfl
      | sealed key v d ha hk hd hb =>
        have hx := Side.other_other x
        exact h.recv_sealed hp hcfb hf (hx.symm ▸ ha) (hx.symm ▸ hk) (hx.symm ▸ hd) hb
    | act x e iv =>
      have hrecv : ∀ d priv, e ≠ .recv d priv := by
        rintro d priv rfl
        cases hs
      have hr : ((s.peer.get x).handle env (conf x) e).map
          (fun r => (s.call x e).put env x iv r.1) = some s' := by
        cases e with
        | recv d priv => exact absurd rfl (hrecv d priv)
        | _ => exact hs
      obtain ⟨r, hhandle, rfl⟩ := Option.map_eq_some_iff.1 hr
      exact h.act hc hrecv hhandle

/-- A clean run of the two clients is explained by a run of the handshakes and, for each
side and stream, a run of one sender and one receiver. -/
theorem explained_of_clean (hp : PeerNet.Paired env conf) (hcfb : Cfb env)
    (hf : ∀ x, Fits env (conf x)) (h : ((lts env conf).guard (Clean env)).Reachable s) :
    ∃ n str, Sim env conf s n str := (sim_inductive hp hcfb hf).reachable h

/-- What the single sender and receiver of a stream do, the stream does. -/
theorem Sim.delivered_prefix (h : Sim env conf s n str) (x : Side) (id : UInt32) :
    (s.delivered x.other id).flatten <+: (s.sentOn x id).flatten := by
  have hex := h.explains
  obtain ⟨-, hslice⟩ :=
    (StreamNet.sliceInv_inductive id).reachable (hex.reachable x id) (hex.small x id)
  rw [← hex.delivered, ← hex.sent, hslice.delivered]
  exact List.take_prefix _ _

/-- From the call of `send` on one client to the `output_ring` of the other one: in a clean
run the bytes that come out of a stream are a prefix of those that went in. -/
theorem delivered_prefix_of_clean (hp : PeerNet.Paired env conf) (hcfb : Cfb env)
    (hf : ∀ x, Fits env (conf x)) (h : ((lts env conf).guard (Clean env)).Reachable s) :
    (s.delivered x.other id).flatten <+: (s.sentOn x id).flatten := by
  obtain ⟨n, str, hsim⟩ := (sim_inductive hp hcfb hf).reachable h
  exact hsim.delivered_prefix x id

/-! ## Two clients of the small group -/

theorem fits_small (x : Side) : Fits smallEnv (PeerNet.smallConf x) := by
  refine ⟨?_, fun e => ?_⟩
  · cases x <;> decide
  · show 1 ≤ 1487
    decide

/-- A handshake, and two bytes from `a` to `b`. -/
def helloTrace : List Label :=
  (List.range 12).map (fun i => .recv i (if i = 2 then [7] else if i = 3 then [9] else []) fun _ => noIv) ++
    [.act .a (.addStream 0) fun _ => noIv, .act .a (.send 0 [1, 2]) fun _ => noIv,
      .recv 12 [] fun _ => noIv]

theorem delivered_prefix_helloTrace : ∃ s : Tunnel, s.sentOn .a 0 = [[1, 2]] ∧
    s.delivered .b 0 = [[1, 2]] ∧ (s.delivered .b 0).flatten <+: (s.sentOn .a 0).flatten := by
  have hrun : ∃ s, ((lts smallEnv PeerNet.smallConf).guard (Clean smallEnv)).Reachable s ∧
      s.sentOn .a 0 = [[1, 2]] ∧ s.delivered .b 0 = [[1, 2]] :=
    LTS.exists_reachable_of_execGuard helloTrace rfl (by decide +kernel)
  obtain ⟨s, hr, hsent, hdel⟩ := hrun
  exact ⟨s, hsent, hdel,
    delivered_prefix_of_clean (x := .a) PeerNet.paired_small cfb_small fits_small hr⟩

theorem explained_helloTrace : ∃ s n str, s.delivered .b 0 = [[1, 2]] ∧
    Sim smallEnv PeerNet.smallConf s n str := by
  have hrun : ∃ s, ((lts smallEnv PeerNet.smallConf).guard (Clean smallEnv)).Reachable s ∧
      s.delivered .b 0 = [[1, 2]] :=
    LTS.exists_reachable_of_execGuard helloTrace rfl (by decide +kernel)
  obtain ⟨s, hr, hdel⟩ := hrun
  obtain ⟨n, str, hsim⟩ := explained_of_clean PeerNet.paired_small cfb_small fits_small hr
  exact ⟨s, n, str, hdel, hsim⟩

end Tunnel
end ShadowTalk.Sml
