import ShadowTalk.Grpc.Server

/-!
# The invariant of the gRPC server

* `effect_of_step`: what a step does to a server whose fields are as they should
  be, one case for each thing that can happen.
* `inv_inductive`: they always are: which members of a handler and its context
  are set in which state, that a `PeerInfo` only ever points to a living writer
  of its own, and that the maps are those of `PeerMaps.Holds`.
* `reads_effect`, `written_effect`, `peerOf_effect`: what a run adds to and never
  takes back.
-/
namespace ShadowTalk.Grpc
open ShadowTalk.Core

theorem PeerMaps.Holds.setWriter {SHA1 : Bytes → Digest} {s : Server}
    (h : s.maps.Holds SHA1 (s.maps.peers.map PeerInfo.name)) (p : Nat) (w : Option Nat) :
    (s.setWriter p w).maps.Holds SHA1 ((s.setWriter p w).maps.peers.map PeerInfo.name) where
  made := rfl
  ids k := by rw [Server.setWriter_names]; exact h.ids k
  byName k := by rw [Server.setWriter_names]; exact h.byName k

namespace Call

/-- The call is answered and waits for the end of `Finish`. -/
def finish (r : Response) (c : Call) : Call := (c.respond r).setStatus .finallize

/-- The stream is open and waits for its first message. -/
def startStream (p : Nat) (token : Option Bytes) (c : Call) : Call :=
  (c.openStream p token).setStatus .process

/-- The `PeerInfo` is set exactly while messages are read, and nothing is written
without it. -/
structure Inv (c : Call) : Prop where
  writer : c.ctx.peer = none → c.writer = none
  written : c.ctx.peer = none → c.ctx.written = []
  queue : ∀ w, c.writer = some w → w.Inv
  created : ∀ h, c.handler = some h → h.status ≠ .create
  peer : ∀ h, c.handler = some h → h.peer = c.ctx.peer
  process : ∀ h, c.handler = some h → (h.status = .process ↔ c.ctx.peer ≠ none)
  method : ∀ h, c.handler = some h → c.ctx.peer ≠ none → h.method = .switchMessages

variable {c : Call}

theorem inv_new (m : Method) : (new m).requestData.Inv where
  writer _ := rfl
  written _ := rfl
  queue _ h := by cases h
  created := by rintro h ⟨⟩ ⟨⟩
  peer := by rintro h ⟨⟩; rfl
  process := by rintro h ⟨⟩; exact ⟨fun h => (by cases h), fun hp => absurd rfl hp⟩
  method := by rintro h ⟨⟩ hp; exact absurd rfl hp

theorem inv_delete (hi : c.Inv) : c.delete.Inv where
  writer := hi.writer
  written := hi.written
  queue := hi.queue
  created _ h := by cases h
  peer _ h := by cases h
  process _ h := by cases h
  method _ h := by cases h

theorem inv_deleteWriter (hi : c.Inv) : c.deleteWriter.Inv where
  writer _ := rfl
  written := hi.written
  queue _ h := by cases h
  created := hi.created
  peer := hi.peer
  process := hi.process
  method := hi.method

theorem inv_setMsg (hi : c.Inv) (m : Registry.Message) : (c.setMsg m).Inv := by
  unfold setMsg
  refine ⟨hi.writer, hi.written, hi.queue, ?_, ?_, ?_, ?_⟩ <;> intro h hh <;>
    obtain ⟨h', hh', rfl⟩ := Option.map_eq_some_iff.1 hh
  · exact hi.created h' hh'
  · exact hi.peer h' hh'
  · exact hi.process h' hh'
  · exact hi.method h' hh'

theorem inv_give (hi : c.Inv) (hp : c.ctx.peer ≠ none) {r : PeerMessageWriter × List Relayed}
    (hr : r.1.Inv) : (c.give r).Inv where
  writer h := absurd h hp
  written h := absurd h hp
  queue := by rintro w ⟨⟩; exact hr
  created := hi.created
  peer := hi.peer
  process := hi.process
  method := hi.method

theorem inv_write (hi : c.Inv) (m : Relayed) : (c.write m).Inv := by
  unfold write
  split
  · rename_i w hw
    exact inv_give hi (fun hp => by rw [hi.writer hp] at hw; cases hw)
      (PeerMessageWriter.inv_write m)
  · exact hi

theorem finish_handler (r : Response) (c : Call) :
    (c.finish r).handler.isSome = c.handler.isSome := Option.isSome_map

theorem inv_finish (hi : c.Inv) (hp : c.ctx.peer = none) (r : Response) : (c.finish r).Inv := by
  refine ⟨hi.writer, hi.written, hi.queue, ?_, ?_, ?_, ?_⟩ <;> intro h hh <;>
    obtain ⟨h', hh', rfl⟩ := Option.map_eq_some_iff.1 hh
  · rintro ⟨⟩
  · exact hi.peer h' hh'
  · exact ⟨fun h => (by cases h), fun h => absurd hp h⟩
  · exact hi.method h' hh'

theorem inv_startStream {h : HandleCall} (hh : c.handler = some h) (hm : h.method = .switchMessages)
    (p : Nat) (token : Option Bytes) : (c.startStream p token).Inv := by
  unfold startStream openStream setStatus
  simp only [hh, Option.map_some]
  refine ⟨fun h => (by cases h), fun h => (by cases h),
    by rintro w ⟨⟩; exact PeerMessageWriter.inv_new, ?_, ?_, ?_, ?_⟩ <;> rintro h' ⟨⟩
  · rintro ⟨⟩
  · rfl
  · exact ⟨fun _ => fun h => (by cases h), fun _ => rfl⟩
  · exact fun _ => hm

end Call

namespace Server

variable {SHA1 : Bytes → Digest} {s s' : Server} {e : Event} {i p : Nat}

structure Inv (SHA1 : Bytes → Digest) (s : Server) : Prop where
  calls : ∀ c ∈ s.calls, c.Inv
  maps : s.maps.Holds SHA1 (s.maps.peers.map PeerInfo.name)
  /-- a `PeerInfo` that points to a writer points to the living writer of one of its
  own streams -/
  pointer : ∀ p j, s.peerWriter p = some j → s.peerOf j = some p ∧ s.hasWriter j = true

/-- What a step does, where the fields are as they should be. -/
inductive Effect (SHA1 : Bytes → Digest) (s : Server) : Event → Server → Prop
  | fails {i inp c h} : s.calls[i]? = some c → c.handler = some h →
      Effect SHA1 s (.call i false inp) ((s.accept h.method).modifyCall i Call.delete)
  | logsIn {i inp c h} : s.calls[i]? = some c → c.handler = some h → c.ctx.peer = none →
      h.status = .receivedRequest → h.method = .login →
      Effect SHA1 s (.call i true inp)
        (({ s.accept .login with maps := (s.maps.handleLogin SHA1 inp.name).1 } : Server).modifyCall
          i (Call.finish (.accessToken (s.maps.handleLogin SHA1 inp.name).2)))
  | answers {i inp c h r} : s.calls[i]? = some c → c.handler = some h → c.ctx.peer = none →
      Effect SHA1 s (.call i true inp) ((s.accept h.method).modifyCall i (Call.finish r))
  | opens {i inp c h p} : s.calls[i]? = some c → c.handler = some h → c.ctx.peer = none →
      h.method = .switchMessages → s.maps.getPeerInfo inp.token = some p →
      Effect SHA1 s (.call i true inp)
        { ((s.accept .switchMessages).modifyCall i (Call.startStream p inp.token)).setWriter p
          (some i) with opened := s.opened ++ [(p, i)] }
  | relays {i inp c h p} : s.calls[i]? = some c → c.handler = some h → c.ctx.peer = some p →
      Effect SHA1 s (.call i true inp) (s.relay i p inp.msg)
  | finishes {i inp c h} : s.calls[i]? = some c → c.handler = some h → c.ctx.peer = none →
      Effect SHA1 s (.call i true inp) (s.modifyCall i Call.delete)
  | wrote {i c w} : s.calls[i]? = some c → c.writer = some w → w.status = .running →
      Effect SHA1 s (.writer i true) (s.modifyCall i (Call.give w.wrote))
  | writeFails {i c w p} : s.calls[i]? = some c → c.writer = some w → w.status = .running →
      c.ctx.peer = some p →
      Effect SHA1 s (.writer i false) ((s.modifyCall i Call.deleteWriter).setWriter p none)

theorem modifyCall_modifyCall (f g : Call → Call) :
    (s.modifyCall i f).modifyCall i g = s.modifyCall i fun c => g (f c) := by
  simp only [modifyCall, List.modify_modify_eq]
  rfl

theorem effect_of_call {c : Call} {h : HandleCall} {inp : Input} (hi : c.Inv)
    (hc : s.calls[i]? = some c) (hh : c.handler = some h) :
    Effect SHA1 s (.call i true inp) (proceed SHA1 s i h true inp) := by
  have hst := hi.process h hh
  have hpeer := hi.peer h hh
  unfold proceed
  simp only [Bool.not_true, Bool.false_eq_true, if_false]
  cases hs : h.status with
  | create => exact absurd hs (hi.created h hh)
  | receivedRequest =>
    have hp : c.ctx.peer = none := by
      by_contra hne
      rw [hst.2 hne] at hs
      cases hs
    simp only [handleRequest, hpeer, hp]
    cases hm : h.method with
    | login =>
      simp only [if_true, modifyCall_modifyCall]
      exact .logsIn hc hh hp hs hm
    | listPeers =>
      simp only [if_true, modifyCall_modifyCall]
      rw [← hm]
      exact .answers hc hh hp
    | switchMessages =>
      simp only [accept_maps]
      rcases (s.maps.getPeerInfo inp.token).eq_none_or_eq_some with hg | ⟨p, hg⟩
      · simp only [hg, if_true, modifyCall_modifyCall]
        rw [← hm]
        exact .answers hc hh hp
      · have he : ((s.accept .switchMessages).openStream i p inp.token).modifyCall i
            (Call.setStatus .process) =
            { ((s.accept .switchMessages).modifyCall i (Call.startStream p inp.token)).setWriter p
              (some i) with opened := s.opened ++ [(p, i)] } := by
          simp only [openStream, modifyCall, setWriter, List.modify_modify_eq]
          rfl
        simp only [hg, Bool.false_eq_true, if_false, he]
        exact .opens hc hh hp hm hg
  | process =>
    have hne := hst.1 hs
    obtain ⟨p, hp⟩ := Option.ne_none_iff_exists'.1 hne
    simp only [handleRequest, hi.method h hh hne, hpeer, hp, Bool.false_eq_true, if_false]
    exact .relays hc hh hp
  | finallize =>
    have hp : c.ctx.peer = none := by
      by_contra hne
      rw [hst.2 hne] at hs
      cases hs
    exact .finishes hc hh hp

theorem effect_of_step (hi : s.Inv SHA1) (hs : step SHA1 s e = some s') : Effect SHA1 s e s' := by
  cases e with
  | call i ok inp =>
    obtain ⟨h, hh, rfl⟩ := Option.map_eq_some_iff.1 hs
    obtain ⟨c, hc, hch⟩ := view_eq_some.1 hh
    cases ok with
    | false => exact .fails hc hch
    | true => exact effect_of_call (hi.calls c (List.mem_of_getElem? hc)) hc hch
  | writer i ok =>
    obtain ⟨w, hw, hs⟩ := Option.bind_eq_some_iff.1 hs
    obtain ⟨c, hc, hcw⟩ := view_eq_some.1 hw
    split at hs
    · rename_i hr
      rw [← Option.some.inj hs]
      unfold writerProceed
      cases ok with
      | true => exact .wrote hc hcw hr
      | false =>
        cases hp : c.ctx.peer with
        | none =>
          rw [(hi.calls c (List.mem_of_getElem? hc)).writer hp] at hcw
          cases hcw
        | some p =>
          have hpo : s.peerOf i = some p := view_eq_some.2 ⟨c, hc, hp⟩
          simp only [Bool.not_false, if_true, hpo]
          exact .writeFails hc hcw hr hp
    · cases hs

/-! ## The invariant -/

section
variable {β : Type} {g : Call → β} {d : β} {k : Nat}

theorem view_relay (hm : ∀ m c, g (Call.setMsg m c) = g c) (hw : ∀ m c, g (Call.write m c) = g c)
    (m : Registry.Message) : (s.relay i p m).view g d k = s.view g d k := by
  have h1 : ∀ m, (s.modifyCall i (Call.setMsg m)).view g d k = s.view g d k :=
    fun m => view_modifyCall_of_eq (hm m)
  unfold relay
  simp only
  split
  · exact h1 m
  · rw [view_modifyCall_of_eq (hw _), view_modifyCall_of_eq (hm _)]
    exact h1 m

end

theorem relay_maps (m : Registry.Message) : (s.relay i p m).maps = s.maps := by
  unfold relay
  simp only
  split <;> rfl

theorem write_hasWriter (m : Relayed) (c : Call) : (c.write m).writer.isSome = c.writer.isSome := by
  unfold Call.write
  split
  · rename_i w hw
    rw [hw]
    rfl
  · rfl

theorem write_handler (m : Relayed) (c : Call) : (c.write m).handler = c.handler := by
  unfold Call.write
  split <;> rfl

theorem write_peer (m : Relayed) (c : Call) : (c.write m).ctx.peer = c.ctx.peer := by
  unfold Call.write
  split <;> rfl

theorem calls_accept (h : ∀ c ∈ s.calls, c.Inv) (m : Method) : ∀ c ∈ (s.accept m).calls, c.Inv := by
  intro c hc
  rcases List.mem_append.1 hc with hc | hc
  · exact h c hc
  · rw [List.mem_singleton.1 hc]
    exact Call.inv_new m

theorem calls_modifyCall {f : Call → Call} {c : Call} (h : ∀ c ∈ s.calls, c.Inv)
    (hc : s.calls[i]? = some c) (hf : (f c).Inv) : ∀ c ∈ (s.modifyCall i f).calls, c.Inv :=
  Slots.forall_mem_modify h hc hf

theorem calls_relay (h : ∀ c ∈ s.calls, c.Inv) (i p : Nat)
    (m : Registry.Message) : ∀ c ∈ (s.relay i p m).calls, c.Inv := by
  have hmsg : ∀ m (c : Call), c.Inv → (c.setMsg m).Inv := fun m c hc => Call.inv_setMsg hc m
  unfold relay
  simp only
  split
  · exact Slots.forall_mem_modify_of_keeps (hmsg m) h i
  · exact Slots.forall_mem_modify_of_keeps (P := Call.Inv) (fun c hc => Call.inv_write hc _)
      (Slots.forall_mem_modify_of_keeps (hmsg _) (Slots.forall_mem_modify_of_keeps (hmsg m) h i) i) _

theorem peerWriter_append (m : PeerMaps) (q : PeerInfo) (hq : q.writer = none)
    (hm : m.peers = s.maps.peers ++ [q]) (k : Nat) :
    ({ s with maps := m } : Server).peerWriter k = s.peerWriter k := by
  unfold peerWriter
  simp only [hm]
  rcases Nat.lt_trichotomy k s.maps.peers.length with hk | rfl | hk
  · rw [List.getElem?_append_left hk]
  · simp [hq]
  · rw [List.getElem?_eq_none (by simp; omega), List.getElem?_eq_none (by omega)]

theorem Inv.peer_lt (hi : s.Inv SHA1) {t : Option Bytes} (h : s.maps.getPeerInfo t = some p) :
    p < s.maps.peers.length := by
  unfold PeerMaps.getPeerInfo at h
  rw [hi.maps.ids] at h
  obtain ⟨hp, -⟩ := List.findIdx?_eq_some_iff_getElem.1 h
  simpa using hp

theorem Inv.of_same (hi : s.Inv SHA1) (hc : ∀ c ∈ s'.calls, c.Inv)
    (hm : s'.maps.Holds SHA1 (s'.maps.peers.map PeerInfo.name))
    (hw : ∀ q, s'.peerWriter q = s.peerWriter q) (hp : ∀ k, s'.peerOf k = s.peerOf k)
    (hh : ∀ k, s'.hasWriter k = s.hasWriter k) : s'.Inv SHA1 where
  calls := hc
  maps := hm
  pointer q j h := by
    rw [hw] at h
    rw [hp, hh]
    exact hi.pointer q j h

theorem inv_new : (new).Inv SHA1 where
  calls := by
    intro c hc
    simp only [new, accept, List.nil_append, List.cons_append, List.mem_cons, List.not_mem_nil,
      or_false] at hc
    rcases hc with rfl | rfl | rfl <;> exact Call.inv_new _
  maps := ⟨rfl, fun _ => rfl, fun _ => rfl⟩
  pointer := fun _ _ h => (by cases h)

/-- What is done to one call keeps the invariant if the call keeps its own and neither its
`PeerInfo` nor whether it has a writer changes. -/
theorem Inv.modifyCall (hi : s.Inv SHA1) {f : Call → Call} {c : Call} (hc : s.calls[i]? = some c)
    (hf : (f c).Inv) (hp : ∀ c, (f c).ctx.peer = c.ctx.peer)
    (hw : ∀ c, (f c).writer.isSome = c.writer.isSome) : (s.modifyCall i f).Inv SHA1 := by
  refine hi.of_same (calls_modifyCall hi.calls hc hf) hi.maps (fun _ => rfl) (fun k => ?_)
    (fun k => ?_)
  · exact view_modifyCall_of_eq hp
  · exact view_modifyCall_of_eq hw

/-- The same, after the next handler of the method is made. -/
theorem Inv.accept_modify (hi : s.Inv SHA1) {f : Call → Call} {c : Call}
    (hc : s.calls[i]? = some c) (hf : (f c).Inv) (hp : ∀ c, (f c).ctx.peer = c.ctx.peer)
    (hw : ∀ c, (f c).writer.isSome = c.writer.isSome) (m : Method) :
    ((s.accept m).modifyCall i f).Inv SHA1 := by
  have hc' : (s.accept m).calls[i]? = some c := Slots.getElem?_append_of_some hc
  refine hi.of_same (calls_modifyCall (calls_accept hi.calls _) hc' hf) hi.maps (fun _ => rfl)
    (fun k => ?_) (fun k => ?_)
  · exact view_accept_modify rfl hp
  · exact view_accept_modify rfl hw

theorem Inv.handleLogin (hi : s.Inv SHA1) (name : Bytes) :
    ({ s with maps := (s.maps.handleLogin SHA1 name).1 } : Server).Inv SHA1 := by
  refine hi.of_same hi.calls ?_ (peerWriter_append _ ⟨name, none⟩ rfl rfl) (fun _ => rfl)
    (fun _ => rfl)
  have := PeerMaps.handleLogin_spec hi.maps name
  simpa [PeerMaps.handleLogin] using this

theorem Inv.opens (hi : s.Inv SHA1) {inp : Input} {c : Call} {h : HandleCall}
    (hc : s.calls[i]? = some c) (hh : c.handler = some h) (hp : c.ctx.peer = none)
    (hm : h.method = .switchMessages) :
    ({ ((s.accept .switchMessages).modifyCall i (Call.startStream p inp.token)).setWriter p
      (some i) with opened := s.opened ++ [(p, i)] } : Server).Inv SHA1 := by
  have hc' : (s.accept .switchMessages).calls[i]? = some c := Slots.getElem?_append_of_some hc
  have hpo : s.peerOf i = none := (view_of_some hc).trans hp
  refine ⟨calls_modifyCall (calls_accept hi.calls _) hc' (Call.inv_startStream hh hm p _),
    PeerMaps.Holds.setWriter (s := s) hi.maps p (some i), fun q j hq => ?_⟩
  replace hq : (s.setWriter p (some i)).peerWriter q = some j := hq
  have hpeer : ∀ k, ((s.accept .switchMessages).modifyCall i
      (Call.startStream p inp.token)).peerOf k = if k = i then some p else s.peerOf k :=
    fun k => view_accept_modify_at rfl hc
  have hwriter : ∀ k, ((s.accept .switchMessages).modifyCall i
      (Call.startStream p inp.token)).hasWriter k = if k = i then true else s.hasWriter k :=
    fun k => view_accept_modify_at rfl hc
  show ((s.accept .switchMessages).modifyCall i (Call.startStream p inp.token)).peerOf j = some q ∧
    ((s.accept .switchMessages).modifyCall i (Call.startStream p inp.token)).hasWriter j = true
  rw [hpeer, hwriter]
  rw [peerWriter_setWriter] at hq
  split at hq
  · rename_i hqp
    cases hq
    rw [if_pos rfl, if_pos rfl, hqp.1]
    exact ⟨rfl, rfl⟩
  · have hold := hi.pointer q j hq
    -- the stream that opens had no `PeerInfo`, so nothing pointed to it
    have hji : j ≠ i := by
      rintro rfl
      rw [hpo] at hold
      cases hold.1
    rw [if_neg hji, if_neg hji]
    exact hold

theorem peerWriter_lt {j : Nat} (h : s.peerWriter p = some j) : p < s.maps.peers.length := by
  by_contra hge
  unfold peerWriter at h
  rw [List.getElem?_eq_none (Nat.not_lt.1 hge)] at h
  cases h

/-- A write fails: the writer is deleted, and its own `PeerInfo` points to none. -/
theorem Inv.deleteWriter (hi : s.Inv SHA1) {c : Call} (hc : s.calls[i]? = some c)
    (hp : c.ctx.peer = some p) :
    ((s.modifyCall i Call.deleteWriter).setWriter p none).Inv SHA1 := by
  have hpo : s.peerOf i = some p := (view_of_some hc).trans hp
  refine ⟨calls_modifyCall hi.calls hc (Call.inv_deleteWriter
    (hi.calls c (List.mem_of_getElem? hc))), hi.maps.setWriter p none, fun q j hq => ?_⟩
  replace hq : ((s.modifyCall i Call.deleteWriter).setWriter p none).peerWriter q = some j := hq
  rw [peerWriter_setWriter] at hq
  split at hq
  · cases hq
  · rename_i hqp
    have hold := hi.pointer q j hq
    have hji : j ≠ i := by
      rintro rfl
      rw [hpo] at hold
      have hpq := Option.some.inj hold.1
      subst hpq
      exact hqp ⟨rfl, peerWriter_lt hq⟩
    show (s.modifyCall i Call.deleteWriter).peerOf j = some q ∧
      (s.modifyCall i Call.deleteWriter).hasWriter j = true
    rw [peerOf, hasWriter, view_modifyCall hc, view_modifyCall hc, if_neg hji, if_neg hji]
    exact hold

theorem Inv.wrote (hi : s.Inv SHA1) {c : Call} {w : PeerMessageWriter}
    (hc : s.calls[i]? = some c) (hw : c.writer = some w) :
    (s.modifyCall i (Call.give w.wrote)).Inv SHA1 := by
  have hci := hi.calls c (List.mem_of_getElem? hc)
  have hp : c.ctx.peer ≠ none := fun hp => by rw [hci.writer hp] at hw; cases hw
  refine hi.of_same (calls_modifyCall hi.calls hc (Call.inv_give hci hp
    (PeerMessageWriter.inv_wrote (hci.queue w hw)))) hi.maps
    (fun _ => rfl) (fun k => ?_) (fun k => ?_)
  · exact view_modifyCall_of_eq fun _ => rfl
  · refine (view_modifyCall hc).trans ?_
    split
    · rename_i hk
      rw [hk, hasWriter, view_of_some hc, hw]
      rfl
    · rfl

theorem Inv.relay (hi : s.Inv SHA1) (i p : Nat) (m : Registry.Message) :
    (s.relay i p m).Inv SHA1 := by
  refine hi.of_same (calls_relay hi.calls i p m) ?_ (fun k => ?_) (fun k => ?_) (fun k => ?_)
  · rw [relay_maps]
    exact hi.maps
  · simp only [peerWriter, relay_maps]
  · exact view_relay (fun _ _ => rfl) write_peer _
  · exact view_relay (fun _ _ => rfl) write_hasWriter _

theorem inv_effect (hi : s.Inv SHA1) (he : Effect SHA1 s e s') : s'.Inv SHA1 := by
  cases he with
  | @fails i inp c h hc hh =>
    have hci := hi.calls c (List.mem_of_getElem? hc)
    exact hi.accept_modify hc (Call.inv_delete hci) (fun _ => rfl) (fun _ => rfl) _
  | @logsIn i inp c h hc hh hp hs hm =>
    have hci := hi.calls c (List.mem_of_getElem? hc)
    exact (hi.handleLogin inp.name).accept_modify hc (Call.inv_finish hci hp _) (fun _ => rfl)
      (fun _ => rfl) .login
  | @answers i inp c h r hc hh hp =>
    have hci := hi.calls c (List.mem_of_getElem? hc)
    exact hi.accept_modify hc (Call.inv_finish hci hp r) (fun _ => rfl) (fun _ => rfl) _
  | opens hc hh hp hm hg => exact hi.opens hc hh hp hm
  | @relays i inp c h p hc hh hp => exact hi.relay i p inp.msg
  | @finishes i inp c h hc hh hp =>
    have hci := hi.calls c (List.mem_of_getElem? hc)
    exact hi.modifyCall hc (Call.inv_delete hci) (fun _ => rfl) fun _ => rfl
  | wrote hc hw hr => exact hi.wrote hc hw
  | writeFails hc hw hr hp => exact hi.deleteWriter hc hp

theorem inv_inductive (SHA1 : Bytes → Digest) : (lts SHA1).Inductive fun s => s.Inv SHA1 where
  init s h := by subst h; exact inv_new
  step _ _ _ hi hs := inv_effect hi (effect_of_step hi hs)

/-! ## What grows in a run -/

def written (s : Server) (i : Nat) : List Relayed := s.view (fun c => c.ctx.written) [] i

def hasStatus (s : Server) (i : Nat) (st : CallStatus) : Bool :=
  (s.handler? i).any fun h => h.status = st

/-- What the event brings to the relay: a message, if the handler waits for one. -/
def readBy (s : Server) : Event → List (Nat × Registry.Message)
  | .call i true inp => if s.hasStatus i .process then [(i, inp.msg)] else []
  | _ => []

theorem relay_reads (m : Registry.Message) : (s.relay i p m).reads = s.reads ++ [(i, m)] := by
  unfold relay
  simp only
  split <;> rfl

theorem hasStatus_of_call {c : Call} {h : HandleCall} (hc : s.calls[i]? = some c)
    (hh : c.handler = some h) (st : CallStatus) : s.hasStatus i st = (h.status = st) := by
  rw [hasStatus, show s.handler? i = some h from view_eq_some.2 ⟨c, hc, hh⟩]
  simp

/-- A handler that waits for a message is one with a stream. -/
theorem Inv.process_iff (hi : s.Inv SHA1) {c : Call} {h : HandleCall} (hc : s.calls[i]? = some c)
    (hh : c.handler = some h) : s.hasStatus i .process = true ↔ s.peerOf i ≠ none := by
  rw [hasStatus_of_call hc hh, peerOf, view_of_some hc]
  exact (hi.calls c (List.mem_of_getElem? hc)).process h hh

theorem reads_effect (hi : s.Inv SHA1) (he : Effect SHA1 s e s') :
    s'.reads = s.reads ++ s.readBy e := by
  have hnone : ∀ {i : Nat} {inp : Input} {c : Call} {h : HandleCall}, s.calls[i]? = some c →
      c.handler = some h → c.ctx.peer = none → s.readBy (.call i true inp) = [] := by
    intro i inp c h hc hh hp
    refine if_neg fun hst => ?_
    exact (hi.process_iff hc hh).1 hst ((view_of_some hc).trans hp)
  cases he with
  | fails => exact (List.append_nil _).symm
  | logsIn hc hh hp => rw [hnone hc hh hp]; exact (List.append_nil _).symm
  | answers hc hh hp => rw [hnone hc hh hp]; exact (List.append_nil _).symm
  | opens hc hh hp => rw [hnone hc hh hp]; exact (List.append_nil _).symm
  | @relays i inp c h p hc hh hp =>
    have hst : s.hasStatus i .process = true :=
      (hi.process_iff hc hh).2 (by rw [peerOf, view_of_some hc, hp]; rintro ⟨⟩)
    rw [relay_reads, readBy, if_pos hst]
  | finishes hc hh hp => rw [hnone hc hh hp]; exact (List.append_nil _).symm
  | wrote => exact (List.append_nil _).symm
  | writeFails => exact (List.append_nil _).symm

theorem write_written (m : Relayed) (c : Call) : c.ctx.written <+: (c.write m).ctx.written := by
  unfold Call.write
  split
  · exact List.prefix_append _ _
  · exact List.prefix_refl _

theorem written_modifyCall {f : Call → Call}
    (hf : ∀ c, c.ctx.written <+: (f c).ctx.written) (k : Nat) :
    s.written k <+: (s.modifyCall i f).written k := by
  unfold written
  cases hc : s.calls[i]? with
  | none =>
    have : s.modifyCall i f = s := by
      unfold modifyCall
      rw [List.modify_eq_self (List.getElem?_eq_none_iff.1 hc)]
    exact this.symm ▸ List.prefix_refl _
  | some c =>
    rw [view_modifyCall hc]
    split
    · rename_i hk
      rw [hk, view_of_some hc]
      exact hf c
    · exact List.prefix_refl _

theorem written_effect (he : Effect SHA1 s e s') (k : Nat) : s.written k <+: s'.written k := by
  have haccept : ∀ {i : Nat} {m : Method} {f : Call → Call},
      (∀ c, (f c).ctx.written = c.ctx.written) →
      s.written k <+: ((s.accept m).modifyCall i f).written k := fun {i m f} h => by
    have hsame : ((s.accept m).modifyCall i f).written k = s.written k := view_accept_modify rfl h
    exact hsame.symm ▸ List.prefix_refl _
  cases he with
  | fails => exact haccept fun _ => rfl
  | @logsIn i inp c h =>
    show s.written k <+: ((s.accept .login).modifyCall i (Call.finish _)).written k
    exact haccept fun _ => rfl
  | answers => exact haccept fun _ => rfl
  | @opens i inp c h p =>
    show s.written k <+: ((s.accept .switchMessages).modifyCall i
      (Call.startStream p inp.token)).written k
    exact haccept fun _ => rfl
  | @relays i inp c h p =>
    have hsame : ∀ (t : Server) (m : Registry.Message),
        (t.modifyCall i (Call.setMsg m)).written k = t.written k := fun t m =>
      view_modifyCall_of_eq fun _ => rfl
    unfold relay
    simp only
    split
    · exact (hsame s _).symm ▸ List.prefix_refl _
    · refine List.IsPrefix.trans ?_ (written_modifyCall (write_written _) k)
      rw [hsame]
      exact (hsame s _).symm ▸ List.prefix_refl _
  | finishes => exact written_modifyCall (f := Call.delete) (fun c => List.prefix_refl _) k
  | wrote => exact written_modifyCall (fun c => List.prefix_append _ _) k
  | @writeFails i c w p =>
    show s.written k <+: (s.modifyCall i Call.deleteWriter).written k
    exact written_modifyCall (f := Call.deleteWriter) (fun c => List.prefix_refl _) k

/-- A stream stays that of its `PeerInfo`. -/
theorem peerOf_effect (he : Effect SHA1 s e s') {k q : Nat} (h : s.peerOf k = some q) :
    s'.peerOf k = some q := by
  have haccept : ∀ {i : Nat} {m : Method} {f : Call → Call}, (∀ c, (f c).ctx.peer = c.ctx.peer) →
      ((s.accept m).modifyCall i f).peerOf k = some q := fun {i m f} hf => by
    rw [← h]
    exact view_accept_modify rfl hf
  have hsame : ∀ {i : Nat} {f : Call → Call}, (∀ c, (f c).ctx.peer = c.ctx.peer) →
      (s.modifyCall i f).peerOf k = some q := fun {i f} hf => by
    rw [← h]
    exact view_modifyCall_of_eq hf
  cases he with
  | fails => exact haccept fun _ => rfl
  | @logsIn i inp c h =>
    show ((s.accept .login).modifyCall i (Call.finish _)).peerOf k = some q
    exact haccept fun _ => rfl
  | answers => exact haccept fun _ => rfl
  | @opens i inp c _ p hc hh hp =>
    show ((s.accept .switchMessages).modifyCall i (Call.startStream p inp.token)).peerOf k = some q
    have hne : k ≠ i := by
      rintro rfl
      rw [peerOf, view_of_some hc, hp] at h
      cases h
    rw [← h]
    refine (view_accept_modify_at rfl hc).trans ?_
    rw [if_neg hne]
    rfl
  | relays =>
    rw [← h]
    exact view_relay (fun _ _ => rfl) write_peer _
  | finishes => exact hsame fun _ => rfl
  | wrote => exact hsame fun _ => rfl
  | @writeFails i c w p =>
    show (s.modifyCall i Call.deleteWriter).peerOf k = some q
    exact hsame fun _ => rfl

end Server
end ShadowTalk.Grpc
