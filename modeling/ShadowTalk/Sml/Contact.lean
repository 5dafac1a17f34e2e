import ShadowTalk.Sml.AddPeer
import ShadowTalk.Sml.Turn
import ShadowTalk.Sml.Redelivery
import Mathlib.Data.Set.Insert

/-!
# What an application is told of an address

`Contact` is what the messages in `output_ring` are about, seen from the application: a
session begins with `new_peer`, and data comes only from a stream that has been announced
in it, or that the application has added itself.

* `Contact.run_recvData`, `run_newStream`: what precedes a message in a run of contacts.
* `Turn.tells`, `handle_tells`: what an event of a peer tells, one case for each outcome.
* `UdpLayer.heard_refines`: whatever arrives, what is put into the ring for an address is
  a run of contacts, with the application's calls in it; sessions end where a hello or an
  abort reaches the established peer, or where the peer is deleted.
-/
namespace ShadowTalk.Sml
open ShadowTalk.Core

/-- A message for the application, a call it makes, or the end of a session, which nobody
tells it. -/
inductive Notice where
  | newPeer (id : Bytes)
  | newStream (id : UInt32)
  | recvData (id : UInt32) (payload : Bytes)
  | addStream (id : UInt32)
  | delStream (id : UInt32)
  | restart
  deriving DecidableEq

namespace Notice

/-- Put into `output_ring`. -/
def isMessage : Notice → Bool
  | newPeer _ | newStream _ | recvData _ _ => true
  | _ => false

/-- Not put into `output_ring`. -/
def isSilent (n : Notice) : Bool := !n.isMessage

/-- Taken out of `input_ring`. -/
def isCommand : Notice → Bool
  | addStream _ | delStream _ => true
  | _ => false

/-- After this the application knows of stream `id`. -/
def opens (id : UInt32) : Notice → Bool
  | newStream i | addStream i => i == id
  | _ => false

/-- After this it does not. -/
def closes (id : UInt32) : Notice → Bool
  | delStream i => i == id
  | restart => true
  | _ => false

end Notice

/-- Whether there is a session with an address, and the streams that are known. -/
structure Contact where
  here : Bool
  streams : Set UInt32

namespace Contact

def unknown : Contact := ⟨false, ∅⟩

inductive Step : Contact → Notice → Contact → Prop
  | newPeer {c : Contact} (id : Bytes) (h : c.here = false) :
    Step c (.newPeer id) { c with here := true }
  | newStream {c : Contact} (id : UInt32) (h : c.here = true) (hn : id ∉ c.streams) :
    Step c (.newStream id) { c with streams := insert id c.streams }
  | recvData {c : Contact} (id : UInt32) (payload : Bytes) (h : c.here = true)
    (hm : id ∈ c.streams) : Step c (.recvData id payload) c
  | addStream {c : Contact} (id : UInt32) :
    Step c (.addStream id) { c with streams := insert id c.streams }
  | delStream {c : Contact} (id : UInt32) :
    Step c (.delStream id) { c with streams := c.streams \ {id} }
  | restart {c : Contact} : Step c .restart unknown

def lts : LTS Contact Notice := ⟨(· = unknown), Step⟩

variable {c c' : Contact} {ks : List Notice} {n : Notice}

/-! ## What precedes a message -/

/-- A stream that is known has been opened, and not closed since. -/
theorem run_streams (hr : lts.Run c ks c') {id : UInt32} (hm : id ∈ c'.streams) :
    (id ∈ c.streams ∧ ∀ n ∈ ks, ¬ n.closes id) ∨
      ∃ l n r, ks = l ++ n :: r ∧ n.opens id = true ∧ ∀ m ∈ r, ¬ m.closes id := by
  induction hr with
  | nil => exact .inl ⟨hm, List.forall_mem_nil _⟩
  | @cons a b _ n ks hs _ ih =>
    rcases ih hm with ⟨hb, hks⟩ | ⟨l, m, r, rfl, hopen, hr⟩
    · by_cases ho : n.opens id = true
      · exact .inr ⟨[], n, ks, rfl, ho, hks⟩
      · refine .inl ?_
        -- a step that does not open the stream finds it open, and leaves it open
        have hkeep : id ∈ a.streams ∧ ¬ n.closes id := by
          cases hs with
          | newPeer => exact ⟨hb, Bool.false_ne_true⟩
          | newStream i h hn =>
            refine ⟨(Set.mem_insert_iff.1 hb).resolve_left fun hi => ho ?_, Bool.false_ne_true⟩
            exact beq_iff_eq.2 hi.symm
          | recvData => exact ⟨hb, Bool.false_ne_true⟩
          | addStream i =>
            refine ⟨(Set.mem_insert_iff.1 hb).resolve_left fun hi => ho ?_, Bool.false_ne_true⟩
            exact beq_iff_eq.2 hi.symm
          | delStream i =>
            obtain ⟨hb, hi⟩ := hb
            exact ⟨hb, fun hcl => hi (beq_iff_eq.1 hcl).symm⟩
          | restart => exact absurd hb (Set.notMem_empty id)
        exact ⟨hkeep.1, List.forall_mem_cons.2 ⟨hkeep.2, hks⟩⟩
    · exact .inr ⟨n :: l, m, r, rfl, hopen, hr⟩

/-- A session that is there has begun with `new_peer`. -/
theorem run_here (hr : lts.Run c ks c') (hh : c'.here = true) :
    (c.here = true ∧ .restart ∉ ks) ∨
      ∃ l id r, ks = l ++ .newPeer id :: r ∧ .restart ∉ r := by
  induction hr with
  | nil => exact .inl ⟨hh, List.not_mem_nil⟩
  | @cons a b _ n ks hs _ ih =>
    rcases ih hh with ⟨hb, hks⟩ | ⟨l, id, r, rfl, hr⟩
    · cases hs with
      | newPeer id h => exact .inr ⟨[], id, ks, rfl, hks⟩
      | restart => cases hb
      | _ => exact .inl ⟨hb, by simp [hks]⟩
    · exact .inr ⟨n :: l, id, r, rfl, hr⟩

theorem run_split {l r : List Notice} (hr : lts.Run c (l ++ n :: r) c') :
    ∃ a b, lts.Run c l a ∧ Step a n b ∧ lts.Run b r c' := by
  induction l generalizing c with
  | nil =>
    cases hr with
    | cons hs hr => exact ⟨_, _, .nil _, hs, hr⟩
  | cons m l ih =>
    cases hr with
    | cons hs hr =>
      obtain ⟨a, b, hl, hn, hr⟩ := ih hr
      exact ⟨a, b, .cons hs hl, hn, hr⟩

/-- Data comes in a session, from a stream that is open in it. -/
theorem run_recvData {l r : List Notice} {id : UInt32} {payload : Bytes}
    (hr : lts.Run unknown (l ++ .recvData id payload :: r) c') :
    (∃ l₁ i l₂, l = l₁ ++ .newPeer i :: l₂ ∧ .restart ∉ l₂) ∧
      ∃ l₁ n l₂, l = l₁ ++ n :: l₂ ∧ n.opens id = true ∧ ∀ m ∈ l₂, ¬ m.closes id := by
  obtain ⟨a, b, hl, hs, -⟩ := run_split hr
  cases hs with
  | recvData _ _ h hm =>
    refine ⟨(run_here hl h).resolve_left fun hn => ?_, (run_streams hl hm).resolve_left fun hn => ?_⟩
    · cases hn.1
    · exact absurd hn.1 (Set.notMem_empty id)

/-- A stream is announced in a session. -/
theorem run_newStream {l r : List Notice} {id : UInt32}
    (hr : lts.Run unknown (l ++ .newStream id :: r) c') :
    ∃ l₁ i l₂, l = l₁ ++ .newPeer i :: l₂ ∧ .restart ∉ l₂ := by
  obtain ⟨a, b, hl, hs, -⟩ := run_split hr
  cases hs with
  | newStream _ h hn =>
    refine (run_here hl h).resolve_left fun hn => ?_
    cases hn.1

end Contact

/-! ## Peers -/

/-- The message that an effect puts into the ring. -/
def PeerEff.notice : PeerEff → Option Notice
  | .newPeer id => some (.newPeer id)
  | .newStream id => some (.newStream id)
  | .recvData id payload => some (.recvData id payload)
  | _ => none

namespace Peer

def notices (es : List PeerEff) : List Notice := es.filterMap PeerEff.notice

theorem notices_append (l m : List PeerEff) : notices (l ++ m) = notices l ++ notices m :=
  List.filterMap_append

/-- The application's call that an event stands for. -/
def Event.commands : Event → List Notice
  | .addStream id => [.addStream id]
  | .delStream id => [.delStream id]
  | _ => []

theorem Event.isCommand_commands (e : Event) : ∀ k ∈ e.commands, k.isCommand = true := by
  cases e with
  | addStream id => exact List.forall_mem_singleton.2 rfl
  | delStream id => exact List.forall_mem_singleton.2 rfl
  | _ => exact List.forall_mem_nil _

def contact (p : Peer) : Contact :=
  ⟨decide (p.datagramHandler = .established), {i | HasStream p i}⟩

variable {env : Env} {conf : Configuration} {p q u : Peer} {d : Datagram} {priv : Bytes}
  {id : UInt32} {ks ks' : List Notice} {r : Peer × Option Exc}

/-- From `p` to `q` the application is told the messages among `ks`. -/
structure Tells (p : Peer) (ks : List Notice) (q : Peer) : Prop where
  run : Contact.lts.Run p.contact ks q.contact
  notices : notices q.out = notices p.out ++ ks.filter Notice.isMessage

theorem Tells.trans (h : Tells p ks q) (h' : Tells q ks' u) : Tells p (ks ++ ks') u where
  run := h.run.append h'.run
  notices := by rw [h'.notices, h.notices, List.filter_append, List.append_assoc]

/-- Neither the session nor its streams have changed, and nothing is put into the ring. -/
theorem tells_quiet (hh : p.datagramHandler = .established ↔ q.datagramHandler = .established)
    (hm : q.streamMap = p.streamMap) (hn : notices q.out = notices p.out) : Tells p [] q where
  run := by
    have hc : p.contact = q.contact := by
      unfold contact HasStream
      rw [hm, decide_eq_decide.2 hh]
    rw [hc]
    exact .nil _
  notices := by rw [hn, List.filter_nil, List.append_nil]

/-! ### Streams -/

theorem contact_set (hm : HasStream p id) (s : Stream) :
    ({ p with streamMap := p.streamMap.set id s } : Peer).contact = p.contact := by
  unfold contact
  congr 1
  ext i
  show (Option.isSome _ = true) ↔ HasStream p i
  by_cases hi : i = id
  · subst hi
    rw [OMap.find?_set_self]
    exact iff_of_true rfl hm
  · rw [OMap.find?_set_ne _ _ hi]
    rfl

theorem contact_insert (p : Peer) (id : UInt32) (s : Stream) :
    ({ p with streamMap := p.streamMap.insert id s } : Peer).contact =
      { p.contact with streams := insert id p.contact.streams } := by
  unfold contact
  congr 1
  ext i
  show (Option.isSome _ = true) ↔ i ∈ insert id {i | HasStream p i}
  by_cases hi : i = id
  · subst hi
    rw [OMap.find?_insert_self]
    exact iff_of_true rfl (Set.mem_insert i _)
  · rw [OMap.find?_insert_ne _ _ hi, Set.mem_insert_iff]
    exact (or_iff_right hi).symm

theorem tells_streamEff (hm : HasStream p id) {e : StreamEff}
    (h : p.datagramHandler = .established ∨ received [e] = []) :
    Tells p ((received [e]).map (.recvData id)) (p.streamEff id e) := by
  cases e with
  | sendDatagram d =>
    refine tells_quiet ?_ (streamEff_streamMap p id _) ?_
    · rw [(streamEff_same p id _).datagramHandler]
    · show notices (p.sendDatagram d).out = _
      unfold sendDatagram
      split
      · show notices (p.out ++ [.sendEncrypted p.encryptLayer d]) = _
        rw [notices_append]
        exact List.append_nil _
      · rfl
  | recvData payload =>
    have hp := h.resolve_right (by simp)
    refine ⟨.single (.recvData id payload (decide_eq_true hp) hm), ?_⟩
    show notices (p.out ++ [.recvData id payload]) = _
    rw [notices_append]
    rfl

/-- A stream that the application knows does something. -/
theorem tells_putStream (hm : HasStream p id) {r : Stream × List StreamEff}
    (h : p.datagramHandler = .established ∨ received r.2 = []) :
    Tells p ((received r.2).map (.recvData id)) (p.putStream id r) := by
  have key : ∀ (es : List StreamEff) (q : Peer), HasStream q id →
      q.datagramHandler = .established ∨ received es = [] →
      Tells q ((received es).map (.recvData id)) (es.foldl (fun p e => p.streamEff id e) q) := by
    intro es
    induction es with
    | nil => exact fun q _ _ => tells_quiet Iff.rfl rfl rfl
    | cons e es ih =>
      intro q hq h
      have hrecv : received (e :: es) = received [e] ++ received es := received_append [e] es
      rw [hrecv, List.append_eq_nil_iff] at h
      have hq' : HasStream (q.streamEff id e) id := by
        unfold HasStream
        rw [streamEff_streamMap]
        exact hq
      have hrest := ih (q.streamEff id e) hq' (by
        rw [(streamEff_same q id e).datagramHandler]
        exact h.imp_right And.right)
      rw [List.foldl_cons, hrecv, List.map_append]
      exact (tells_streamEff hq (h.imp_right And.left)).trans hrest
  have hset := contact_set hm r.1
  have hrun := key r.2 { p with streamMap := p.streamMap.set id r.1 } (hm.set rfl) h
  exact ⟨hset ▸ hrun.run, hrun.notices⟩

theorem isMessage_recvData {l : List Bytes} :
    ∀ k ∈ l.map (Notice.recvData id), k.isMessage = true := by
  intro k hk
  obtain ⟨payload, -, rfl⟩ := List.mem_map.1 hk
  rfl

/-- The stream of a datagram is announced before its data. -/
theorem tells_feedStream (hp : p.datagramHandler = .established) (d : Datagram) :
    ∃ ks, Tells p ks (p.feedStream d) ∧ ∀ k ∈ ks, k.isMessage = true := by
  unfold feedStream
  cases hs : p.streamMap.find? d.id with
  | some s =>
    have hm : HasStream p d.id := by
      unfold HasStream
      rw [hs]
      rfl
    simp only [hs]
    exact ⟨_, tells_putStream hm (.inl hp), isMessage_recvData⟩
  | none =>
    have hnm : ¬ HasStream p d.id := by
      unfold HasStream
      rw [hs]
      decide
    generalize hq : (({ p with streamMap := p.streamMap.insert d.id (.new d.id) } : Peer).put
      (.newStream d.id)) = q
    have hnew : Tells p [.newStream d.id] q := by
      refine ⟨.single ?_, ?_⟩
      · rw [← hq]
        show Contact.Step _ _ ({ p with streamMap := p.streamMap.insert d.id (.new d.id) } :
          Peer).contact
        rw [contact_insert]
        exact .newStream d.id (decide_eq_true hp) hnm
      · rw [← hq]
        exact notices_append _ _
    have hfind : q.streamMap.find? d.id = some (.new d.id) := by
      rw [← hq]
      show (p.streamMap.insert d.id (.new d.id)).find? d.id = _
      rw [OMap.find?_insert_self, hs]
      rfl
    have hm : HasStream q d.id := by
      unfold HasStream
      rw [hfind]
      rfl
    have hqp : q.datagramHandler = .established := by
      rw [← hq]
      exact hp
    simp only [hfind]
    refine ⟨_, hnew.trans (tells_putStream hm (.inl hqp)), fun k hk => ?_⟩
    rcases List.mem_append.1 hk with hk | hk
    · rw [List.mem_singleton.1 hk]
      rfl
    · exact isMessage_recvData k hk

/-! ### Events -/

theorem HelloTake.notices (ht : HelloTake env conf p d q) :
    Peer.notices q.out = Peer.notices p.out ∧ q.datagramHandler = p.datagramHandler ∧
      q.streamMap = p.streamMap := by
  cases ht with
  | hello ht => exact ⟨(notices_append _ _).trans (List.append_nil _), rfl, rfl⟩
  | ack ht => exact ⟨rfl, rfl, rfl⟩

theorem KeyTake.notices (ht : KeyTake p d q) :
    Peer.notices q.out = Peer.notices p.out ∧ q.streamMap = p.streamMap := by
  cases ht with
  | key ht => exact ⟨(notices_append _ _).trans (List.append_nil _), rfl⟩
  | ack ht => exact ⟨rfl, rfl⟩
  | hello ht => exact ⟨(notices_append _ _).trans (List.append_nil _), rfl⟩
  | ignore => exact ⟨rfl, rfl⟩

/-- A datagram that is not for the streams leaves `p` outside a session, or in it. -/
theorem tells_of_phase (ph ph' : Handler) (hp : p.datagramHandler = ph)
    (hq : q.datagramHandler = ph') (hh : ph = .established ↔ ph' = .established)
    (hm : q.streamMap = p.streamMap) (es : List PeerEff)
    (ho : notices q.out = notices p.out ++ notices es) (he : notices es = []) :
    Tells p [] q := by
  refine tells_quiet ?_ hm ?_
  · rw [hp, hq]
    exact hh
  · rw [ho, he, List.append_nil]

/-- `d` ends the session of `p`. -/
def endedBy (p : Peer) (d : Datagram) : Bool :=
  decide (p.datagramHandler = .established ∧ (d.type = .hello ∨ d.type = .abort))

theorem tells_restarted (p : Peer) (d : Datagram) :
    Tells p [.restart] (p.restarted env conf d) where
  run := by
    have hc : (p.restarted env conf d).contact = .unknown := by
      unfold contact
      congr 1
      ext i
      exact iff_of_false Bool.false_ne_true (Set.notMem_empty i)
    rw [hc]
    exact .single .restart
  notices := by
    rw [restarted_out]
    exact notices_append _ _

/-- A received datagram that does not end the session is told of by messages. -/
theorem Turn.tells (ht : Turn env conf p d priv r) (hn : ¬ p.endedBy d = true) :
    ∃ ks, Tells p ks r.1 ∧ ∀ k ∈ ks, k.isMessage = true := by
  have quiet : Tells p [] r.1 → ∃ ks, Tells p ks r.1 ∧ ∀ k ∈ ks, k.isMessage = true :=
    fun h => ⟨[], h, List.forall_mem_nil _⟩
  cases ht with
  | hello hp ht hn =>
    obtain ⟨hno, hh, hm⟩ := ht.notices
    exact quiet (tells_quiet (by rw [hh]) hm hno)
  | @helloDone q hp ht hc =>
    obtain ⟨hno, hh, hm⟩ := ht.notices
    refine quiet (tells_of_phase .hello .publicKeyExchange hp rfl (by decide) hm
      [.send (.createPublicKey (env.ephemeralPub priv))] ?_ rfl)
    rw [← hno]
    exact notices_append _ _
  | key hp ht hn =>
    obtain ⟨hno, hm⟩ := ht.notices
    exact quiet (tells_quiet (by rw [ht.handler]) hm hno)
  | @keyFailed q hp ht hc shared key x hx =>
    obtain ⟨hno, hm⟩ := ht.notices
    refine quiet (tells_of_phase .publicKeyExchange .publicKeyExchange hp (ht.handler.trans hp)
      Iff.rfl hm [.agree q.id (q.dh.peerSpub.getD [])] ?_ rfl)
    rw [← hno]
    exact notices_append _ _
  | @keyDone q hp ht hc v k =>
    obtain ⟨hno, hm⟩ := ht.notices
    refine quiet (tells_of_phase .publicKeyExchange .echo hp rfl (by decide) hm
      [.agree q.id (q.dh.peerSpub.getD []), .send (.createEcho echoContent)] ?_ rfl)
    rw [← hno, ← notices_append]
    exact congrArg Peer.notices (List.append_assoc _ _ _)
  | echoDone hp ht hc =>
    refine ⟨[.newPeer p.id], ⟨.single ?_, notices_append _ _⟩, by simp [Notice.isMessage]⟩
    have hno : p.contact.here = false := by simp [contact, hp]
    exact .newPeer p.id hno
  | reset hp ht => exact absurd (decide_eq_true ⟨hp, .inl ht⟩) hn
  | answer hp ht =>
    exact quiet (tells_quiet Iff.rfl rfl ((notices_append _ _).trans (List.append_nil _)))
  | keyAgain hp ht =>
    exact quiet (tells_quiet Iff.rfl rfl ((notices_append _ _).trans (List.append_nil _)))
  | abort hp ht => exact absurd (decide_eq_true ⟨hp, .inr ht⟩) hn
  | feed hp ht payload => exact tells_feedStream hp _
  | undecryptable hp ht => exact quiet (tells_quiet Iff.rfl rfl rfl)
  | ignore hp he => exact quiet (tells_quiet Iff.rfl rfl rfl)

theorem hasStream_of_find {s : Stream} (h : p.streamMap.find? id = some s) : HasStream p id := by
  unfold HasStream
  rw [h]
  rfl

/-- The application's calls and the timers tell nothing. -/
theorem handle_tells {e : Event} (hr : p.handle env conf e = some r)
    (he : ∀ d priv, e ≠ .recv d priv) : Tells p e.commands r.1 := by
  cases e with
  | recv d priv => exact absurd rfl (he d priv)
  | expire =>
    obtain ⟨t, -, rfl⟩ := Option.map_eq_some_iff.1 hr
    exact tells_quiet Iff.rfl rfl rfl
  | retransmit =>
    obtain ⟨t, -, rfl⟩ := Option.map_eq_some_iff.1 hr
    exact tells_quiet Iff.rfl rfl ((notices_append _ _).trans (List.append_nil _))
  | addStream id =>
    obtain rfl := Option.some.inj hr
    show Tells p [.addStream id] (p.addStream id)
    unfold addStream
    split
    · rename_i s hs
      refine ⟨.single ?_, (List.append_nil _).symm⟩
      -- nothing changes, as the stream is there
      have hin : insert id p.contact.streams = p.contact.streams :=
        Set.insert_eq_of_mem (hasStream_of_find hs)
      have hstep : Contact.Step p.contact (.addStream id)
        { p.contact with streams := insert id p.contact.streams } := .addStream id
      rw [hin] at hstep
      exact hstep
    · refine ⟨.single ?_, (List.append_nil _).symm⟩
      rw [contact_insert]
      exact .addStream id
  | delStream id =>
    obtain rfl := Option.some.inj hr
    refine ⟨.single ?_, (List.append_nil _).symm⟩
    have hc : (p.delStream id).contact =
        { p.contact with streams := p.contact.streams \ {id} } := by
      unfold contact
      congr 1
      ext i
      show ((p.streamMap.erase id).find? i).isSome = true ↔ HasStream p i ∧ i ≠ id
      by_cases hi : i = id
      · subst hi
        rw [OMap.find?_erase_self]
        exact iff_of_false Bool.false_ne_true fun h => h.2 rfl
      · rw [OMap.find?_erase_ne _ hi]
        exact (and_iff_left hi).symm
    rw [hc]
    exact .delStream id
  | send id data =>
    obtain ⟨s, hs, rfl⟩ := Option.map_eq_some_iff.1 hr
    have hrecv : received (s.send data).2 = [] := Stream.sendOneDatagram_received _
    have htells := tells_putStream (hasStream_of_find hs) (r := s.send data) (.inr hrecv)
    rw [hrecv] at htells
    exact htells
  | streamExpire id =>
    simp only [handle, Option.bind_eq_some_iff, Option.map_eq_some_iff] at hr
    obtain ⟨s, hs, t, -, rfl⟩ := hr
    refine ⟨?_, (List.append_nil _).symm⟩
    show Contact.lts.Run p.contact [] ({ p with streamMap := p.streamMap.set id t } : Peer).contact
    rw [contact_set (hasStream_of_find hs)]
    exact .nil _
  | streamRetransmit id =>
    simp only [handle, Option.bind_eq_some_iff, Option.map_eq_some_iff] at hr
    obtain ⟨s, hs, u, hu, rfl⟩ := hr
    obtain ⟨t, -, rfl⟩ := Option.map_eq_some_iff.1 hu
    have hrecv : received (Stream.sendOneDatagram { s with timer := t.2 }).2 = [] :=
      Stream.sendOneDatagram_received _
    have htells := tells_putStream (hasStream_of_find hs)
      (r := Stream.sendOneDatagram { s with timer := t.2 }) (.inr hrecv)
    rw [hrecv] at htells
    exact htells

end Peer

/-! ## The layer -/

def UdpEff.notice (a : Address) : UdpEff → Option Notice
  | .peer addr e => if addr = a then e.notice else none
  | .noSuchPeer _ => none

namespace UdpLayer

/-- What is put into the ring for `a`. -/
def heard (a : Address) (out : List UdpEff) : List Notice := out.filterMap (UdpEff.notice a)

def contact (a : Address) (s : UdpLayer) : Contact :=
  ((s.peerMap a).map Peer.contact).getD .unknown

/-- The application's calls for `a`. -/
def Event.commands (a : Address) : Event → List Notice
  | .peer addr e => if addr = a then e.commands else []
  | _ => []

/-- The datagram `msg` from `addr` ends the session with its peer. -/
def endedBy (env : Env) (s : UdpLayer) (addr : Address) (msg : Bytes) : Bool :=
  (s.peerMap addr).any fun p => (Datagram.parse env.endian msg).toOption.any p.endedBy

/-- The session with `a` ends: a hello or an abort reaches its established peer, or the peer is
deleted. -/
def Ends (env : Env) (a : Address) (s : UdpLayer) : Event → Prop
  | .receive e wire _ =>
    Address.ofEndpoint e = a ∧ a ≠ s.server ∧ s.endedBy env a (wire.take bufferSize) = true
  | .delPeer addr => addr = a ∧ (s.peerMap a).isSome = true
  | _ => False

instance decidableEnds (env : Env) (a : Address) (s : UdpLayer) : DecidablePred (Ends env a s)
  | .receive _ _ _ => inferInstanceAs (Decidable (_ ∧ _))
  | .delPeer _ => inferInstanceAs (Decidable (_ ∧ _))
  | .addPeer _ => .isFalse id
  | .addTrustedPeerPublicKey _ _ => .isFalse id
  | .peer _ _ => .isFalse id
  | .queryServer => .isFalse id

/-- What an event is for the session with `a`, besides messages. -/
def silent (env : Env) (a : Address) (s : UdpLayer) (ev : Event) : List Notice :=
  if Ends env a s ev then [.restart] else ev.commands a

variable {env : Env} {conf : Configuration} {server a addr : Address} {s s' t : UdpLayer}
  {p q : Peer} {d : Datagram} {msg wire priv : Bytes} {e : Endpoint} {ks ks' : List Notice}

theorem heard_append (a : Address) (l m : List UdpEff) :
    heard a (l ++ m) = heard a l ++ heard a m := List.filterMap_append

theorem heard_peer (a : Address) (es : List PeerEff) :
    heard a (es.map (.peer a)) = Peer.notices es := by
  unfold heard Peer.notices
  rw [List.filterMap_map]
  congr 1
  funext e
  exact if_pos rfl

theorem heard_peer_ne (h : addr ≠ a) (es : List PeerEff) : heard a (es.map (.peer addr)) = [] := by
  unfold heard
  rw [List.filterMap_map]
  exact List.filterMap_eq_nil_iff.2 fun e _ => if_neg h

/-- From `s` to `s'` the application is told the messages among `ks` about `a`. -/
structure Hears (a : Address) (s : UdpLayer) (ks : List Notice) (s' : UdpLayer) : Prop where
  run : Contact.lts.Run (s.contact a) ks (s'.contact a)
  messages : heard a s'.out = heard a s.out ++ ks.filter Notice.isMessage

theorem filter_isSilent (h : ∀ k ∈ ks, k.isMessage = true) : ks.filter Notice.isSilent = [] :=
  List.filter_eq_nil_iff.2 fun k hk => by simp [Notice.isSilent, h k hk]

theorem Hears.trans (h : Hears a s ks s') (h' : Hears a s' ks' t) : Hears a s (ks ++ ks') t where
  run := h.run.append h'.run
  messages := by rw [h'.messages, h.messages, List.filter_append, List.append_assoc]

theorem hears_same (hm : s'.peerMap a = s.peerMap a) (ho : heard a s'.out = heard a s.out) :
    Hears a s [] s' where
  run := by
    have hc : s.contact a = s'.contact a := by
      unfold contact
      rw [hm]
    rw [hc]
    exact .nil _
  messages := by rw [ho, List.filter_nil, List.append_nil]

theorem hears_putPeer_ne (h : addr ≠ a) (p : Peer) : Hears a s [] (s.putPeer addr p) := by
  refine hears_same (Function.update_of_ne h.symm _ _) ?_
  show heard a (s.out ++ _) = _
  rw [heard_append, heard_peer_ne h, List.append_nil]

theorem contact_putPeer (s : UdpLayer) (a : Address) (p : Peer) :
    (s.putPeer a p).contact a = p.contact := by
  unfold contact UdpLayer.putPeer
  simp only [Function.update_self]
  rfl

theorem hears_putPeer (hp : s.peerMap a = some p) (hout : p.out = []) (h : p.Tells ks q) :
    Hears a s ks (s.putPeer a q) where
  run := by
    have hc : s.contact a = p.contact := by
      unfold contact
      rw [hp]
      rfl
    rw [contact_putPeer, hc]
    exact h.run
  messages := by
    show heard a (s.out ++ _) = _
    rw [heard_append, heard_peer, h.notices, hout]
    rfl

theorem hears_new (hp : s.peerMap a = none) (c : Configuration) :
    Hears a s [] (s.putPeer a (.new env c)) where
  run := by
    have hc : (Peer.new env c).contact = s.contact a := by
      unfold contact Peer.contact
      rw [hp]
      show Contact.mk _ _ = Contact.mk _ _
      congr 1
      ext i
      exact iff_of_false Bool.false_ne_true (Set.notMem_empty i)
    rw [contact_putPeer, hc]
    exact .nil _
  messages := by
    show heard a (s.out ++ _) = _
    rw [heard_append, heard_peer]
    rfl

theorem hears_delPeer_self (hp : (s.peerMap a).isSome = true) :
    Hears a s [.restart] (s.delPeer a) := by
  obtain ⟨p, hp⟩ := Option.isSome_iff_exists.1 hp
  unfold UdpLayer.delPeer
  simp only [hp]
  refine ⟨.single ?_, (List.append_nil _).symm⟩
  have hc : contact a { s with peerMap := Function.update s.peerMap a none } = .unknown := by
    unfold contact
    simp only [Function.update_self]
    rfl
  rw [hc]
  exact .restart

theorem hears_delPeer (s : UdpLayer) (a addr : Address) :
    ∃ ks, Hears a s ks (s.delPeer addr) ∧ ks.filter Notice.isSilent =
      if addr = a ∧ (s.peerMap a).isSome = true then [.restart] else [] := by
  by_cases h : addr = a ∧ (s.peerMap a).isSome = true
  · obtain ⟨rfl, hp⟩ := h
    rw [if_pos ⟨rfl, hp⟩]
    exact ⟨_, hears_delPeer_self hp, rfl⟩
  · rw [if_neg h]
    refine ⟨[], ?_, rfl⟩
    unfold UdpLayer.delPeer
    cases hp : s.peerMap addr with
    | some p =>
      have hne : addr ≠ a := fun ha => h ⟨ha, by rw [← ha, hp]; rfl⟩
      exact hears_same (Function.update_of_ne hne.symm _ _) rfl
    | none => exact hears_same rfl ((heard_append _ _ _).trans (List.append_nil _))

/-- A hello or an abort ends the session of its peer. -/
theorem hears_ended (hp : s.peerMap a = some p) (hout : p.out = []) (hi : p.Inv env s.conf)
    (he : p.endedBy d = true) (priv : Bytes) :
    Hears a s [.restart] (s.peerRecv env a p d priv).1 := by
  obtain ⟨hest, ht | ht⟩ := of_decide_eq_true he
  · have hdel : .delPeer ∉ (p.restarted env s.conf d).out := by
      rw [Peer.restarted_out, hout]
      simp
    unfold UdpLayer.peerRecv
    simp only [Peer.recv_hello hi hest ht, if_neg hdel]
    exact hears_putPeer hp hout (Peer.tells_restarted p d)
  · have hdel : .delPeer ∈ (p.put .delPeer).out := List.mem_append_right _ List.mem_cons_self
    have hput : Hears a s [] (s.putPeer a (p.put .delPeer)) :=
      hears_putPeer hp hout (Peer.tells_quiet Iff.rfl rfl
        ((Peer.notices_append _ _).trans (List.append_nil _)))
    unfold UdpLayer.peerRecv
    simp only [Peer.recv_abort hi hest ht, if_pos hdel]
    refine hput.trans (hears_delPeer_self ?_)
    simp [UdpLayer.putPeer]

/-- A datagram for the peer of `addr`. -/
theorem hears_peerRecv (a : Address) (hp : s.peerMap addr = some p) (hout : p.out = [])
    (hi : p.Inv env s.conf) (d : Datagram) (priv : Bytes) :
    ∃ ks, Hears a s ks (s.peerRecv env addr p d priv).1 ∧ ks.filter Notice.isSilent =
      if addr = a ∧ p.endedBy d = true then [.restart] else [] := by
  by_cases h : addr = a
  · subst h
    by_cases he : p.endedBy d = true
    · rw [if_pos ⟨rfl, he⟩]
      exact ⟨_, hears_ended hp hout hi he priv, rfl⟩
    · rw [if_neg fun h => he h.2]
      have ht := Peer.turn_of_recv hi d priv
      obtain ⟨ks, htells, hks⟩ := ht.tells he
      have hdel : .delPeer ∉ (p.recv env s.conf d priv).1.out := fun hmem =>
        he (decide_eq_true ((ht.abort_of_delPeer hout hmem).imp_right .inr))
      unfold UdpLayer.peerRecv
      simp only [if_neg hdel]
      exact ⟨ks, hears_putPeer hp hout htells, filter_isSilent hks⟩
  · rw [if_neg fun hand => h hand.1]
    have hput := hears_putPeer_ne (s := s) h (p.recv env s.conf d priv).1
    unfold UdpLayer.peerRecv
    simp only
    split
    · obtain ⟨ks, hdel, hks⟩ :=
        hears_delPeer (s.putPeer addr (p.recv env s.conf d priv).1) a addr
      rw [if_neg fun hand => h hand.1] at hks
      exact ⟨ks, hput.trans hdel, hks⟩
    · exact ⟨[], hput, rfl⟩

theorem hears_peerFeed (a : Address) (hp : s.peerMap addr = some p) (hout : p.out = [])
    (hi : p.Inv env s.conf) (msg priv : Bytes) :
    ∃ ks, Hears a s ks (s.peerFeed env addr p msg priv).1 ∧ ks.filter Notice.isSilent =
      if addr = a ∧ s.endedBy env addr msg = true then [.restart] else [] := by
  unfold UdpLayer.peerFeed UdpLayer.endedBy
  generalize Datagram.parse env.endian msg = r
  cases r with
  | error x =>
    simp only [hp, Option.any_some]
    exact ⟨[], hears_same rfl rfl, (if_neg fun h => Bool.false_ne_true h.2).symm⟩
  | ok d =>
    simp only [hp, Option.any_some]
    exact hears_peerRecv a hp hout hi d priv

/-- There is no session to end. -/
theorem endedBy_eq_false (h : ∀ p, s.peerMap addr = some p → p.datagramHandler ≠ .established) :
    s.endedBy env addr msg = false := by
  refine (Option.any_eq_false _ _).2 fun p hp => ?_
  refine (Option.any_eq_false _ _).2 fun d _ => ?_
  exact decide_eq_false fun he => h p hp he.1

theorem hears_feedPeer (a addr : Address) (hi : PeersOk env s) (hst : Peers (Stored env) s)
    (msg priv : Bytes) : ∃ ks, Hears a s ks (s.feedPeer env addr msg priv).1 ∧
      ks.filter Notice.isSilent =
        if addr = a ∧ s.endedBy env addr msg = true then [.restart] else [] := by
  unfold UdpLayer.feedPeer
  cases hp : s.peerMap addr with
  | some p => exact hears_peerFeed a hp (hst addr p hp).2 (hi addr p hp) msg priv
  | none =>
    have hnone : s.endedBy env addr msg = false :=
      endedBy_eq_false fun p hp' => by
        rw [hp] at hp'
        cases hp'
    rw [hnone, if_neg fun h => Bool.false_ne_true h.2]
    cases hc : s.createPeer env addr with
    | error x => exact ⟨[], hears_same rfl rfl, rfl⟩
    | ok s₁ =>
      obtain ⟨-, rfl⟩ := createPeer_ok hc
      have hnew : Hears a s [] (s.putPeer addr (.new env s.conf)) := by
        by_cases h : addr = a
        · subst h
          exact hears_new hp s.conf
        · exact hears_putPeer_ne h _
      have hfind : (s.putPeer addr (.new env s.conf)).peerMap addr =
          some (Peer.new env s.conf).flush := Function.update_self _ _ _
      obtain ⟨ks, hfeed, hks⟩ := hears_peerFeed a hfind rfl (Peer.inv_new env s.conf).flush msg priv
      have hnot : (s.putPeer addr (.new env s.conf)).endedBy env addr msg = false :=
        endedBy_eq_false fun p hp' => by
          rw [hfind, Option.some.injEq] at hp'
          rw [← hp']
          exact Handler.noConfusion
      rw [hnot, if_neg fun h => Bool.false_ne_true h.2] at hks
      exact ⟨ks, hnew.trans hfeed, hks⟩

theorem hears_handleReceive (a : Address) (hi : PeersOk env s) (hst : Peers (Stored env) s)
    (e : Endpoint) (wire priv : Bytes) : ∃ ks, Hears a s ks (s.handleReceive env e wire priv).1 ∧
      ks.filter Notice.isSilent =
        if Ends env a s (.receive e wire priv) then [.restart] else [] := by
  by_cases ha : Address.ofEndpoint e = s.server
  · rw [handleReceive_server ha, if_neg fun h => h.2.1 (h.1 ▸ ha)]
    generalize Address.parse (wire.take bufferSize) = r
    cases r with
    | error x => exact ⟨[], hears_same rfl rfl, rfl⟩
    | ok addr => exact ⟨[], hears_same rfl rfl, rfl⟩
  · have hfeed := hears_feedPeer (s := { s with receiving := false }) a (Address.ofEndpoint e) hi
      hst (wire.take bufferSize) priv
    generalize hr : UdpLayer.feedPeer env { s with receiving := false } (Address.ofEndpoint e)
      (wire.take bufferSize) priv = r at hfeed
    rw [handleReceive_peer ha hr]
    obtain ⟨ks, hh, hks⟩ := hfeed
    have hends : ks.filter Notice.isSilent =
        if Ends env a s (.receive e wire priv) then [.restart] else [] := by
      refine hks.trans (if_congr ?_ rfl rfl)
      refine and_congr_right fun he => ?_
      subst he
      exact (and_iff_right ha).symm
    obtain ⟨s', x⟩ := r
    cases x with
    | none => exact ⟨ks, ⟨hh.run, hh.messages⟩, hends⟩
    | some x => exact ⟨ks, ⟨hh.run, hh.messages⟩, hends⟩

/-- The events `evs` lead from `s` to `s'`, and are told of by `ks`, whatever comes after. -/
structure Told (env : Env) (a : Address) (s : UdpLayer) (evs : List Event) (ks : List Notice)
    (s' : UdpLayer) : Prop where
  messages : heard a s'.out = heard a s.out ++ ks.filter Notice.isMessage
  commands : ks.filter Notice.isCommand = evs.flatMap (Event.commands a)
  silent : ∀ evs', LTS.outputs (step env) (silent env a) s (evs ++ evs') =
    ks.filter Notice.isSilent ++ LTS.outputs (step env) (UdpLayer.silent env a) s' evs'

theorem told_nil (env : Env) (a : Address) (s : UdpLayer) : Told env a s [] [] s :=
  ⟨(List.append_nil _).symm, rfl, fun _ => rfl⟩

theorem told_append {l : Event} {evs : List Event} (h : Told env a s [l] ks s')
    (h' : Told env a s' evs ks' t) : Told env a s (l :: evs) (ks ++ ks') t where
  messages := by rw [h'.messages, h.messages, List.filter_append, List.append_assoc]
  commands := by
    rw [List.filter_append, h.commands, h'.commands, List.flatMap_singleton, List.flatMap_cons]
  silent evs' := by
    rw [List.filter_append, List.append_assoc, ← h'.silent, ← h.silent]
    rfl

theorem filter_isCommand (ks : List Notice) :
    ks.filter Notice.isCommand = (ks.filter Notice.isSilent).filter Notice.isCommand := by
  rw [List.filter_filter]
  refine List.filter_congr fun k _ => ?_
  cases k <;> rfl

theorem commands_silent (env : Env) (a : Address) (s : UdpLayer) (ev : Event) :
    (silent env a s ev).filter Notice.isCommand = ev.commands a := by
  unfold silent
  split
  · rename_i hends
    cases ev with
    | receive e wire priv => rfl
    | delPeer addr => rfl
    | _ => cases hends
  · refine List.filter_eq_self.2 ?_
    cases ev with
    | peer addr ev =>
      show ∀ k ∈ if addr = a then ev.commands else [], k.isCommand = true
      split
      · exact ev.isCommand_commands
      · exact List.forall_mem_nil _
    | _ => exact List.forall_mem_nil _

/-- One event, told of by its messages and what it is for the session. -/
theorem told_step {ev : Event} (hs : s.step env ev = some s') (hh : Hears a s ks s')
    (hks : ks.filter Notice.isSilent = silent env a s ev) : Told env a s [ev] ks s' where
  messages := hh.messages
  commands := by
    rw [filter_isCommand, hks, commands_silent, List.flatMap_singleton]
  silent evs' := by
    rw [hks, List.singleton_append, LTS.outputs, hs]
    rfl

theorem silent_of_not_ends {ev : Event} (h : ¬ Ends env a s ev) :
    silent env a s ev = ev.commands a := if_neg h

/-- Each event tells what contacts allow. -/
theorem step_told (a : Address) {ev : Event} (hi : PeersOk env s) (hst : Peers (Stored env) s)
    (hs : s.step env ev = some s') :
    ∃ ks, Contact.lts.Run (s.contact a) ks (s'.contact a) ∧ Told env a s [ev] ks s' := by
  have told : (∃ ks, Hears a s ks s' ∧ ks.filter Notice.isSilent = silent env a s ev) →
      ∃ ks, Contact.lts.Run (s.contact a) ks (s'.contact a) ∧ Told env a s [ev] ks s' := by
    rintro ⟨ks, hh, hks⟩
    exact ⟨ks, hh.run, told_step hs hh hks⟩
  refine told ?_
  cases ev with
  | receive e wire priv =>
    simp only [UdpLayer.step] at hs
    split at hs
    · cases hs
      exact hears_handleReceive a hi hst e wire priv
    · cases hs
  | addPeer addr =>
    cases hs
    refine ⟨[], ?_, rfl⟩
    unfold UdpLayer.addPeer
    split
    · split
      · refine hears_same rfl ?_
        show heard a (s.out ++ _) = _
        rw [heard_append]
        by_cases h : addr = a
        · rw [h, heard_peer]
          exact List.append_nil _
        · rw [heard_peer_ne h, List.append_nil]
      · rename_i hp
        by_cases h : addr = a
        · subst h
          exact hears_new hp s.conf
        · exact hears_putPeer_ne h _
    · exact hears_same rfl rfl
  | delPeer addr =>
    cases hs
    exact hears_delPeer s a addr
  | addTrustedPeerPublicKey id key =>
    cases hs
    exact ⟨[], hears_same rfl rfl, rfl⟩
  | peer addr ev =>
    have hrecv : ∀ d priv, ev ≠ .recv d priv := by
      rintro d priv rfl
      cases hs
    have key : ((s.peerMap addr).bind fun p => (p.handle env s.conf ev).map fun r =>
        s.putPeer addr r.1) = some s' := by
      cases ev with
      | recv d priv => cases hs
      | _ => exact hs
    obtain ⟨p, hp, hs⟩ := Option.bind_eq_some_iff.1 key
    obtain ⟨r, hr, rfl⟩ := Option.map_eq_some_iff.1 hs
    rw [silent_of_not_ends id]
    by_cases h : addr = a
    · subst h
      refine ⟨ev.commands, hears_putPeer hp (hst addr p hp).2 (Peer.handle_tells hr hrecv), ?_⟩
      refine (List.filter_eq_self.2 fun k hk => ?_).trans (if_pos rfl).symm
      have hc := ev.isCommand_commands k hk
      cases k <;> first | rfl | cases hc
    · exact ⟨[], hears_putPeer_ne h r.1, (if_neg h).symm⟩
  | queryServer =>
    cases hs
    refine ⟨[], ?_, rfl⟩
    unfold UdpLayer.queryServer
    split
    · exact hears_same rfl rfl
    · exact hears_same rfl rfl

theorem run_told {evs : List Event} (a : Address)
    (hr : (lts env conf server).Run (new conf server) evs s) :
    ∃ ks, Contact.lts.Run .unknown ks (s.contact a) ∧ Told env a (new conf server) evs ks s := by
  have hpeers := peersOk_inductive env conf server
  have hstored := peers_inductive (stored_rule env) conf server
  exact hr.refine (N := Contact.lts)
    (P := fun s => PeersOk env s ∧ Peers (Stored env) s) (f := contact a) (W := Told env a)
    (fun s l s' h hs => ⟨hpeers.step s l s' h.1 hs, hstored.step s l s' h.2 hs⟩)
    (told_nil env a)
    (fun _ _ _ _ _ _ _ h h' => told_append h h')
    (fun s l s' h hs => step_told a h.1 h.2 hs)
    ⟨hpeers.init _ rfl, hstored.init _ rfl⟩

end UdpLayer

end ShadowTalk.Sml
