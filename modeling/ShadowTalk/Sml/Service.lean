import ShadowTalk.Core.Mailbox
import ShadowTalk.Sml.Contact
import ShadowTalk.Sml.PeerList

/-!
# `service`: the application's threads and the layer

An application posts messages into `input_ring`, from any thread, and takes messages out of
`output_ring`. `msg_handler` runs on the thread of the `io_context`, between the handlers
of the socket and the timers, and executes what it finds. Each `post` queues one
`msg_handler`.

* `refines`: whatever the threads do, the layer makes one of its own runs; its commands are
  the posted messages, in order, each executed at most once, and nothing else; what the
  application gets is what the layer has put out, in order.
* `executes_iff`: what has been posted can always be executed to the end, whatever
  exceptions the messages before it throw, unless one of them is no control message.
* `queried_announced`: the application never gets data from a peer or a stream it does not
  know.

Limitations: the rings are global variables, here one service has them for itself. A
handler that throws leaves `io_context::run`; here the next handler runs all the same. The
calls of one handler are one step of the layer, so that what it puts into `output_ring` is
there at its end.
-/
namespace ShadowTalk.Sml
open ShadowTalk.Core

/-- mirrors client/sml/message.h:10-143 -/
inductive Message where
  | addPeer (addr : Address)
  | delPeer (addr : Address)
  | newPeer (id : Bytes) (addr : Address)
  | addStream (addr : Address) (id : UInt32)
  | delStream (addr : Address) (id : UInt32)
  | newStream (addr : Address) (id : UInt32)
  | sendData (addr : Address) (id : UInt32) (data : Bytes)
  | recvData (addr : Address) (id : UInt32) (data : Bytes)
  | error (info : String)
  deriving DecidableEq

namespace Message

/-- `dynamic_cast<control_message *>` succeeds. -/
def isControl : Message → Bool
  | addPeer _ | delPeer _ | addStream _ _ | delStream _ _ | sendData _ _ _ => true
  | newPeer _ _ | newStream _ _ | recvData _ _ _ | error _ => false

variable (env : Env)

/-- mirrors client/sml/message.cpp:69-74 -/
def callAddStream (addr : Address) (id : UInt32) (s : UdpLayer) : UdpLayer :=
  match s.peerMap addr with
  | some p => s.putPeer addr (p.addStream id)
  | none => s

/-- mirrors client/sml/message.cpp:79-84 -/
def callDelStream (addr : Address) (id : UInt32) (s : UdpLayer) : UdpLayer :=
  match s.peerMap addr with
  | some p => s.putPeer addr (p.delStream id)
  | none => s

/-- mirrors client/sml/message.cpp:120-128 -/
def callSendData (addr : Address) (id : UInt32) (data : Bytes) (s : UdpLayer) : UdpLayer :=
  match s.peerMap addr with
  | some p =>
    match p.streamMap.find? id with
    | some st => s.putPeer addr (p.putStream id (st.send data))
    | none => s
  | none => s

/-- `control_message::operator()`; `none` where the message is none, so that the call goes
through a null pointer.
mirrors client/sml/message.cpp:40-50 -/
def call (s : UdpLayer) : Message → Option (UdpLayer × Option Exc)
  | addPeer addr => some (s.addPeer env addr)
  | delPeer addr => some (s.delPeer addr, none)
  | addStream addr id => some (callAddStream addr id s, none)
  | delStream addr id => some (callDelStream addr id s, none)
  | sendData addr id data => some (callSendData addr id data s, none)
  | newPeer _ _ | newStream _ _ | recvData _ _ _ | error _ => none

/-- What the layer is told to do. -/
def event : Message → Option UdpLayer.Event
  | addPeer addr => some (.addPeer addr)
  | delPeer addr => some (.delPeer addr)
  | addStream addr id => some (.peer addr (.addStream id))
  | delStream addr id => some (.peer addr (.delStream id))
  | sendData addr id data => some (.peer addr (.send id data))
  | newPeer _ _ | newStream _ _ | recvData _ _ _ | error _ => none

/-- What the message says about `a`. -/
def notice (a : Address) : Message → Option Notice
  | newPeer id addr => if addr = a then some (.newPeer id) else none
  | newStream addr id => if addr = a then some (.newStream id) else none
  | recvData addr id data => if addr = a then some (.recvData id data) else none
  | _ => none

end Message

/-- What is put into `output_ring`.
mirrors client/sml/peer.cpp:221,267, client/sml/stream.cpp:43 and
client/sml/udp_layer.cpp:81 -/
def UdpEff.message : UdpEff → Option Message
  | .peer addr (.newPeer id) => some (.newPeer id addr)
  | .peer addr (.newStream id) => some (.newStream addr id)
  | .peer addr (.recvData id data) => some (.recvData addr id data)
  | .peer _ _ => none
  | .noSuchPeer _ => some (.error "no such peer\n")

/-- The messages among the effects. -/
def messages (out : List UdpEff) : List Message := out.filterMap UdpEff.message

theorem messages_append (l m : List UdpEff) : messages (l ++ m) = messages l ++ messages m :=
  List.filterMap_append

/-- The events that the application causes. -/
def UdpLayer.Event.isCommand : UdpLayer.Event → Bool
  | .addPeer _ | .delPeer _ => true
  | .peer _ (.addStream _) | .peer _ (.delStream _) | .peer _ (.send _ _) => true
  | _ => false

/-- The deadline of a timer passes, whatever the thread of the `io_context` does. -/
def UdpLayer.Event.isDeadline : UdpLayer.Event → Bool
  | .peer _ .expire | .peer _ (.streamExpire _) => true
  | _ => false

/-! ## What a message does to the layer -/

namespace Message

variable {env : Env} {l l' : UdpLayer} {m : Message} {x : Option Exc}

/-- Either there is nothing to act on, or the layer takes the event of the message. -/
theorem call_cases (h : m.call env l = some (l', x)) :
    ∃ ev, m.event = some ev ∧ ev.isCommand = true ∧
      ((l.step env ev = none ∧ l' = l) ∨ l.step env ev = some l') := by
  cases m with
  | addPeer addr =>
    refine ⟨.addPeer addr, rfl, rfl, .inr ?_⟩
    have h : l.addPeer env addr = (l', x) := Option.some.inj h
    show some (l.addPeer env addr).1 = _
    rw [h]
  | delPeer addr =>
    cases h
    exact ⟨.delPeer addr, rfl, rfl, .inr rfl⟩
  | addStream addr id =>
    cases h
    refine ⟨.peer addr (.addStream id), rfl, rfl, ?_⟩
    show ((l.peerMap addr).bind _ = none ∧ callAddStream addr id l = l) ∨
      (l.peerMap addr).bind _ = some (callAddStream addr id l)
    unfold callAddStream
    cases l.peerMap addr with
    | none => exact .inl ⟨rfl, rfl⟩
    | some p => exact .inr rfl
  | delStream addr id =>
    cases h
    refine ⟨.peer addr (.delStream id), rfl, rfl, ?_⟩
    show ((l.peerMap addr).bind _ = none ∧ callDelStream addr id l = l) ∨
      (l.peerMap addr).bind _ = some (callDelStream addr id l)
    unfold callDelStream
    cases l.peerMap addr with
    | none => exact .inl ⟨rfl, rfl⟩
    | some p => exact .inr rfl
  | sendData addr id data =>
    cases h
    refine ⟨.peer addr (.send id data), rfl, rfl, ?_⟩
    show ((l.peerMap addr).bind (fun p => (p.handle env l.conf (.send id data)).map _) = none ∧ _) ∨
      (l.peerMap addr).bind (fun p => (p.handle env l.conf (.send id data)).map _) = _
    unfold callSendData
    cases l.peerMap addr with
    | none => exact .inl ⟨rfl, rfl⟩
    | some p =>
      simp only [Option.bind_some, Peer.handle]
      cases p.streamMap.find? id with
      | none => exact .inl ⟨rfl, rfl⟩
      | some st => exact .inr rfl
  | newPeer id addr => cases h
  | newStream addr id => cases h
  | recvData addr id data => cases h
  | error info => cases h

theorem call_eq_none : m.call env l = none ↔ m.isControl = false := by
  cases m with
  | addPeer addr => exact iff_of_false (by simp [call]) (by simp [isControl])
  | delPeer addr => exact iff_of_false (by simp [call]) (by simp [isControl])
  | addStream addr id => exact iff_of_false (by simp [call]) (by simp [isControl])
  | delStream addr id => exact iff_of_false (by simp [call]) (by simp [isControl])
  | sendData addr id data => exact iff_of_false (by simp [call]) (by simp [isControl])
  | newPeer id addr => exact iff_of_true rfl rfl
  | newStream addr id => exact iff_of_true rfl rfl
  | recvData addr id data => exact iff_of_true rfl rfl
  | error info => exact iff_of_true rfl rfl

theorem event_eq_none : m.event = none ↔ m.isControl = false := by
  cases m with
  | addPeer addr => exact iff_of_false (by simp [event]) (by simp [isControl])
  | delPeer addr => exact iff_of_false (by simp [event]) (by simp [isControl])
  | addStream addr id => exact iff_of_false (by simp [event]) (by simp [isControl])
  | delStream addr id => exact iff_of_false (by simp [event]) (by simp [isControl])
  | sendData addr id data => exact iff_of_false (by simp [event]) (by simp [isControl])
  | newPeer id addr => exact iff_of_true rfl rfl
  | newStream addr id => exact iff_of_true rfl rfl
  | recvData addr id data => exact iff_of_true rfl rfl
  | error info => exact iff_of_true rfl rfl

end Message

/-! ## The service -/

/-- mirrors client/sml/service.h:43-64 and the rings of client/sml/service.cpp:5 -/
structure Service where
  layer : UdpLayer
  /-- `input_ring`, and the handlers that come for it -/
  input : Mailbox Message
  outputRing : List Message
  /-- what `query()` has returned -/
  queried : List Message
  /-- a member function has been called through a null pointer -/
  crashed : Bool

namespace Service

inductive Label where
  /-- `post`: the message is in `input_ring` -/
  | put (m : Message)
  /-- `post`: `msg_handler` is queued -/
  | post
  /-- a queued `msg_handler` starts -/
  | start
  /-- it gets one message, or finds none -/
  | turn
  | query
  /-- any other handler, or a deadline -/
  | io (ev : UdpLayer.Event)

/-- The layer has become `l`; what it has put into `output_ring` is there. -/
def setLayer (s : Service) (l : UdpLayer) : Service :=
  { s with
    layer := l
    outputRing := s.outputRing ++ messages (l.out.drop s.layer.out.length) }

section
variable (env : Env)

/-- One turn of the loop of `msg_handler`. An exception ends it.
mirrors client/sml/service.cpp:43-49 -/
def turn (s : Service) : Option Service :=
  match s.input.items with
  | [] => s.input.finish.map fun i => { s with input := i }
  | m :: _ =>
    match m.call env s.layer with
    | none => (s.input.take false).map fun r => { s with input := r.2, crashed := true }
    | some (l, x) => (s.input.take x.isNone).map fun r => { s.setLayer l with input := r.2 }

/-- mirrors client/sml/service.cpp:21-23 -/
def query (s : Service) : Service :=
  match s.outputRing with
  | [] => s
  | m :: ms => { s with outputRing := ms, queried := s.queried ++ [m] }

/-- mirrors client/sml/service.cpp:25-28 and 43-49 -/
def step (s : Service) (l : Label) : Option Service :=
  if s.crashed then none else
  match l with
  | .put m => some { s with input := s.input.put m }
  | .post => s.input.post.map fun i => { s with input := i }
  | .start => s.input.start.map fun i => { s with input := i }
  | .turn => s.turn env
  | .query => some s.query
  | .io ev =>
    if ev.isCommand = false ∧ (s.input.running = false ∨ ev.isDeadline = true) then
      (s.layer.step env ev).map s.setLayer
    else none

end

/-- mirrors client/sml/service.cpp:7-19 -/
def new (conf : Configuration) (server : Address) : Service :=
  ⟨.new conf server, .new, [], [], false⟩

def lts (env : Env) (conf : Configuration) (server : Address) : LTS Service Label :=
  .ofFn (· = new conf server) (step env)

variable {env : Env} {conf : Configuration} {server : Address} {s s' : Service}

variable {l : Label} {ls : List Label} {evs : List UdpLayer.Event}

/-! ### Steps -/

/-- The handler finds no message, or one that it cannot call, or one that it executes. -/
theorem turn_cases (h : s.turn env = some s') :
    (∃ i, s.input.finish = some i ∧ s' = { s with input := i }) ∨
    (∃ m i, s.input.take false = some (m, i) ∧ m.isControl = false ∧
      s' = { s with input := i, crashed := true }) ∨
    ∃ m l x i, m.call env s.layer = some (l, x) ∧ s.input.take x.isNone = some (m, i) ∧
      s' = { s.setLayer l with input := i } := by
  unfold turn at h
  split at h
  · obtain ⟨i, hi, rfl⟩ := Option.map_eq_some_iff.1 h
    exact .inl ⟨i, hi, rfl⟩
  · rename_i m ms hitems
    have first : ∀ {again : Bool} {r : Message × Mailbox Message},
        s.input.take again = some r → r.1 = m := by
      intro again r hr
      have hi := (Mailbox.take_eq_some hr).2.2.1
      rw [hitems] at hi
      exact (List.cons.inj hi).1.symm
    split at h
    · rename_i hc
      obtain ⟨r, hr, rfl⟩ := Option.map_eq_some_iff.1 h
      obtain rfl := first hr
      exact .inr (.inl ⟨r.1, r.2, hr, Message.call_eq_none.1 hc, rfl⟩)
    · rename_i l x hc
      obtain ⟨r, hr, rfl⟩ := Option.map_eq_some_iff.1 h
      obtain rfl := first hr
      exact .inr (.inr ⟨r.1, l, x, r.2, hc, hr, rfl⟩)

/-- The messages of a label that `post` puts into the ring. -/
def Label.posted : Label → List Message
  | .put m => [m]
  | _ => []

/-- What the layer has put out is in `output_ring`, or has been taken from there. -/
def Ring (s : Service) : Prop := s.queried ++ s.outputRing = messages s.layer.out

theorem Ring.setLayer (h : Ring s) {l : UdpLayer} (hg : s.layer.out <+: l.out) :
    Ring (s.setLayer l) := by
  obtain ⟨more, hout⟩ := hg
  show s.queried ++ (s.outputRing ++ messages (l.out.drop s.layer.out.length)) = messages l.out
  rw [← hout, List.drop_left, messages_append, ← List.append_assoc]
  exact congrArg (· ++ messages more) h

theorem Ring.query (h : Ring s) : Ring s.query := by
  unfold Service.query
  split
  · exact h
  · rename_i m ms hring
    show s.queried ++ [m] ++ ms = messages s.layer.out
    rw [List.append_assoc, List.singleton_append, ← hring]
    exact h

/-- The labels `ls` lead from `s` to `s'`, and the layer has taken the events `evs`. -/
structure Follows (s : Service) (ls : List Label) (evs : List UdpLayer.Event) (s' : Service) :
    Prop where
  given : s'.input.given = s.input.given ++ ls.flatMap Label.posted
  taken : ∃ ms, s'.input.taken = s.input.taken ++ ms ∧
    (evs.filter UdpLayer.Event.isCommand).Sublist (ms.filterMap Message.event)

theorem Follows.append {u : Service} {evs' : List UdpLayer.Event} (h : Follows s [l] evs s')
    (h' : Follows s' ls evs' u) : Follows s (l :: ls) (evs ++ evs') u where
  given := by
    rw [h'.given, h.given, List.flatMap_singleton, List.flatMap_cons, List.append_assoc]
  taken := by
    obtain ⟨ms, ht, hs⟩ := h.taken
    obtain ⟨ms', ht', hs'⟩ := h'.taken
    refine ⟨ms ++ ms', by rw [ht', ht, List.append_assoc], ?_⟩
    rw [List.filter_append, List.filterMap_append]
    exact hs.append hs'

/-- A step that takes no message out. -/
theorem follows_quiet (ht : s'.input.taken = s.input.taken)
    (hg : s'.input.given = s.input.given ++ l.posted)
    (he : evs.filter UdpLayer.Event.isCommand = []) : Follows s [l] evs s' where
  given := by rw [hg, List.flatMap_singleton]
  taken := ⟨[], by rw [ht, List.append_nil], by rw [he]; exact List.Sublist.slnil⟩

theorem follows_input {i : Mailbox Message} (h : i.taken = s.input.taken ∧ i.items = s.input.items)
    (hl : l.posted = []) : Follows s [l] [] { s with input := i } := by
  refine follows_quiet h.1 ?_ rfl
  show i.given = s.input.given ++ l.posted
  rw [hl, List.append_nil, Mailbox.given, Mailbox.given, h.1, h.2]

/-- What the layer takes with the step, if it can. -/
def event (env : Env) (s : Service) (l : Label) : Option UdpLayer.Event :=
  (match l with
    | .io ev => some ev
    | .turn => s.input.items.head?.bind Message.event
    | .put _ | .post | .start | .query => none).filter fun ev => (s.layer.step env ev).isSome

/-- A step of the service is no step of the layer, or one. -/
theorem step_follows (hs : s.step env l = some s') :
    (Ring s → Ring s') ∧
      ((s.event env l = none ∧ s'.layer = s.layer ∧ Follows s [l] [] s') ∨
        ∃ ev, s.event env l = some ev ∧ s.layer.step env ev = some s'.layer ∧
          Follows s [l] [ev] s') := by
  unfold step at hs
  split at hs
  · cases hs
  · cases l with
    | put m =>
      cases hs
      exact ⟨id, .inl ⟨rfl, rfl, follows_quiet rfl (Mailbox.given_put _ m) rfl⟩⟩
    | post =>
      obtain ⟨i, hi, rfl⟩ := Option.map_eq_some_iff.1 hs
      exact ⟨id, .inl ⟨rfl, rfl, follows_input (Mailbox.post_eq_some hi) rfl⟩⟩
    | start =>
      obtain ⟨i, hi, rfl⟩ := Option.map_eq_some_iff.1 hs
      exact ⟨id, .inl ⟨rfl, rfl, follows_input (Mailbox.start_eq_some hi) rfl⟩⟩
    | turn =>
      rcases turn_cases hs with ⟨i, hi, rfl⟩ | ⟨m, i, hi, hm, rfl⟩ | ⟨m, l, x, i, hc, hi, rfl⟩
      · refine ⟨id, .inl ⟨?_, rfl, follows_input (Mailbox.finish_eq_some hi) rfl⟩⟩
        rw [event, Mailbox.items_of_finish hi]
        rfl
      · obtain ⟨-, ht, hitems, -⟩ := Mailbox.take_eq_some hi
        refine ⟨id, .inl ⟨?_, rfl, ?_, [m], ht, List.nil_sublist _⟩⟩
        · rw [event, hitems]
          simp only [List.head?_cons, Option.bind_some, Message.event_eq_none.2 hm,
            Option.filter_none]
        · exact (Mailbox.given_take hi).trans (List.append_nil _).symm
      · obtain ⟨-, ht, hitems, -⟩ := Mailbox.take_eq_some hi
        have hgiven : i.given = s.input.given ++ [] :=
          (Mailbox.given_take hi).trans (List.append_nil _).symm
        obtain ⟨ev, hev, hcmd, ⟨hn, rfl⟩ | hl⟩ := Message.call_cases hc
        · refine ⟨fun h => ?_, .inl ⟨?_, rfl, hgiven, [m], ht, List.nil_sublist _⟩⟩
          · have hring : Ring (s.setLayer s.layer) := h.setLayer List.prefix_rfl
            exact hring
          · rw [event, hitems]
            simp [hev, hn]
        · refine ⟨fun h => ?_, .inr ⟨ev, ?_, hl, hgiven, [m], ht, ?_⟩⟩
          · have hring : Ring (s.setLayer l) := h.setLayer (UdpLayer.step_out hl)
            exact hring
          · rw [event, hitems]
            simp [hev, hl]
          · rw [List.filter_cons_of_pos hcmd, List.filterMap_cons_some hev]
            exact List.Sublist.refl _
    | query =>
      cases hs
      refine ⟨Ring.query, .inl ⟨rfl, ?_⟩⟩
      have hsame : s.query.layer = s.layer ∧ s.query.input = s.input := by
        unfold query
        split
        · exact ⟨rfl, rfl⟩
        · exact ⟨rfl, rfl⟩
      refine ⟨hsame.1, follows_quiet (by rw [hsame.2]) ?_ rfl⟩
      rw [hsame.2]
      exact (List.append_nil _).symm
    | io ev =>
      simp only at hs
      split at hs
      · rename_i hio
        obtain ⟨l, hl, rfl⟩ := Option.map_eq_some_iff.1 hs
        refine ⟨fun h => h.setLayer (UdpLayer.step_out hl), .inr ⟨ev, by simp [event, hl], hl, ?_⟩⟩
        refine follows_quiet rfl (List.append_nil _).symm ?_
        exact List.filter_eq_nil_iff.2 fun x hx => by
          rw [List.mem_singleton.1 hx, hio.1]
          exact Bool.false_ne_true
      · cases hs

theorem run_ring (hr : (lts env conf server).Run (new conf server) ls s) : Ring s :=
  LTS.run_invariant (P := Ring) (fun _ _ _ ha hab => (step_follows hab).1 ha) hr rfl

/-- The layer makes a run of its own. -/
theorem run_follows (hr : (lts env conf server).Run (new conf server) ls s) :
    ∃ evs, (UdpLayer.lts env conf server).Run (.new conf server) evs s.layer ∧
      Follows (new conf server) ls evs s :=
  hr.refine (N := UdpLayer.lts env conf server) (P := fun _ => True) (f := Service.layer)
    (W := Follows) (fun _ _ _ _ _ => trivial)
    (fun _ => ⟨(List.append_nil _).symm, [], (List.append_nil _).symm, List.Sublist.slnil⟩)
    (fun _ _ _ _ _ _ _ h h' => h.append h')
    (fun a l b _ hab => by
      rcases (step_follows hab).2 with ⟨-, hl, hf⟩ | ⟨ev, -, hev, hf⟩
      · exact ⟨[], hl ▸ .nil _, hf⟩
      · exact ⟨[ev], .single hev, hf⟩)
    trivial

/-- What the layer has executed has been taken out of `input_ring`. -/
theorem Follows.executed {evs : List UdpLayer.Event} (h : Follows (new conf server) ls evs s) :
    (evs.filter UdpLayer.Event.isCommand).Sublist (s.input.taken.filterMap Message.event) := by
  obtain ⟨ms, htaken, hsub⟩ := h.taken
  have htaken : s.input.taken = ms := htaken
  exact htaken ▸ hsub

/-- Whatever the threads do, the layer makes one of its own runs. Its commands are messages
that have been posted, in that order, and each at most once; when nobody is about to
execute one, all have been. What the application has got is what the layer has put out. -/
theorem refines (hr : (lts env conf server).Run (new conf server) ls s) :
    ∃ evs, (UdpLayer.lts env conf server).Run (.new conf server) evs s.layer ∧
      (evs.filter UdpLayer.Event.isCommand).Sublist (s.input.taken.filterMap Message.event) ∧
      s.input.taken ++ s.input.items = ls.flatMap Label.posted ∧
      (s.input.Idle → s.input.taken = ls.flatMap Label.posted) ∧
      s.queried ++ s.outputRing = messages s.layer.out := by
  obtain ⟨evs, hrun, hfollows⟩ := run_follows hr
  have hgiven : s.input.taken ++ s.input.items = ls.flatMap Label.posted := hfollows.given
  refine ⟨evs, hrun, hfollows.executed, hgiven, fun hi => ?_, run_ring hr⟩
  exact (Mailbox.taken_of_idle hi).trans hgiven

/-- A handshake; the application adds stream 5, and gets a byte from it. -/
def dataTrace : List Label :=
  UdpLayer.handshakeTrace.map .io ++
    [.put (.addStream UdpLayer.peer9 5), .post, .start, .turn, .turn,
      .io (UdpLayer.peer9Data 5 42), .query, .query]

theorem run_dataTrace : ∃ s, (lts smallEnv smallConfA ⟨[], 0⟩).Run (new smallConfA ⟨[], 0⟩)
    dataTrace s ∧ s.queried = [.newPeer [98] UdpLayer.peer9, .recvData UdpLayer.peer9 5 [42]] ∧
      s.input.taken = [.addStream UdpLayer.peer9 5] := by
  have hexec : (LTS.exec (step smallEnv) (new smallConfA ⟨[], 0⟩) dataTrace).any (fun s => decide
      (s.queried = [.newPeer [98] UdpLayer.peer9, .recvData UdpLayer.peer9 5 [42]] ∧
        s.input.taken = [.addStream UdpLayer.peer9 5])) = true := by decide +kernel
  obtain ⟨s, hs, hq⟩ := (Option.any_eq_true _ _).1 hexec
  exact ⟨s, LTS.run_of_exec hs, of_decide_eq_true hq⟩

theorem refines_dataTrace : ∃ (s : Service) (evs : List UdpLayer.Event),
    (UdpLayer.lts smallEnv smallConfA ⟨[], 0⟩).Run (.new smallConfA ⟨[], 0⟩) evs s.layer ∧
      s.input.taken = [.addStream UdpLayer.peer9 5] ∧
      [.newPeer [98] UdpLayer.peer9, .recvData UdpLayer.peer9 5 [42]] ++ s.outputRing =
        messages s.layer.out := by
  obtain ⟨s, hr, hq, ht⟩ := run_dataTrace
  obtain ⟨evs, hrun, -, -, -, hring⟩ := refines hr
  exact ⟨s, evs, hrun, ht, hq ▸ hring⟩

/-! ### What has been posted is executed -/

/-- The service has crashed at a message that is no control message, or it has not yet met
one. -/
theorem crashed_inductive (env : Env) (conf : Configuration) (server : Address) :
    (lts env conf server).Inductive fun s =>
      s.crashed = true ↔ ∃ m ∈ s.input.taken, m.isControl = false where
  init := forall_eq.2 (iff_of_false Bool.false_ne_true fun h => by
    obtain ⟨m, hm, -⟩ := h
    cases hm)
  step s l s' h hs := by
    have hs : s.step env l = some s' := hs
    unfold step at hs
    split at hs
    · cases hs
    · cases l with
      | put m =>
        cases hs
        exact h
      | post =>
        obtain ⟨i, hi, rfl⟩ := Option.map_eq_some_iff.1 hs
        rw [(Mailbox.post_eq_some hi).1]
        exact h
      | start =>
        obtain ⟨i, hi, rfl⟩ := Option.map_eq_some_iff.1 hs
        rw [(Mailbox.start_eq_some hi).1]
        exact h
      | turn =>
        rcases turn_cases hs with ⟨i, hi, rfl⟩ | ⟨m, i, hi, hm, rfl⟩ | ⟨m, l, x, i, hc, hi, rfl⟩
        · rw [(Mailbox.finish_eq_some hi).1]
          exact h
        · rw [(Mailbox.take_eq_some hi).2.1]
          exact iff_of_true rfl ⟨m, List.mem_append_right _ List.mem_cons_self, hm⟩
        · have hctl : m.isControl ≠ false := fun hf => by
            rw [Message.call_eq_none.2 hf] at hc
            cases hc
          rw [(Mailbox.take_eq_some hi).2.1]
          refine h.trans ⟨fun hex => ?_, fun hex => ?_⟩
          · obtain ⟨m', hm', hf⟩ := hex
            exact ⟨m', List.mem_append_left _ hm', hf⟩
          · obtain ⟨m', hm', hf⟩ := hex
            rcases List.mem_append.1 hm' with hm' | hm'
            · exact ⟨m', hm', hf⟩
            · rw [List.mem_singleton.1 hm'] at hf
              exact absurd hf hctl
      | query =>
        cases hs
        unfold query
        split
        · exact h
        · exact h
      | io ev =>
        simp only at hs
        split at hs
        · obtain ⟨l, -, rfl⟩ := Option.map_eq_some_iff.1 hs
          exact h
        · cases hs

/-- Only what has been posted already goes on: nobody posts, nothing arrives. -/
def Label.IsHandler (l : Label) : Prop := l = .post ∨ l = .start ∨ l = .turn

/-- Somebody can go on. -/
theorem exists_step (env : Env) (hn : s.crashed = false) (hi : ¬ s.input.Idle)
    (hc : ∀ m ∈ s.input.given, m.isControl = true) :
    ∃ l s', s.step env l = some s' ∧ l.IsHandler ∧ s'.crashed = false ∧
      s'.input.given = s.input.given ∧ s'.input.work < s.input.work := by
  have hgo : ¬ s.crashed = true := by rw [hn]; exact Bool.false_ne_true
  have given_same : ∀ {i : Mailbox Message}, i.taken = s.input.taken ∧ i.items = s.input.items →
      i.given = s.input.given := fun h => by rw [Mailbox.given, Mailbox.given, h.1, h.2]
  rcases Mailbox.not_idle hi with hp | hr | hw
  · obtain ⟨i, hi⟩ := Mailbox.post_of_pos hp
    refine ⟨.post, { s with input := i }, ?_, .inl rfl, hn, given_same (Mailbox.post_eq_some hi),
      Mailbox.work_post hi⟩
    rw [step, if_neg hgo]
    exact Option.map_eq_some_iff.2 ⟨i, hi, rfl⟩
  · have hstep : s.step env .turn = s.turn env := if_neg hgo
    cases hitems : s.input.items with
    | nil =>
      obtain ⟨i, hi⟩ := Mailbox.finish_of_empty hr hitems
      refine ⟨.turn, { s with input := i }, ?_, .inr (.inr rfl), hn,
        given_same (Mailbox.finish_eq_some hi), Mailbox.work_finish hi⟩
      rw [hstep, turn, hitems]
      exact Option.map_eq_some_iff.2 ⟨i, hi, rfl⟩
    | cons m ms =>
      have hm : m.isControl = true :=
        hc m (List.mem_append_right _ (hitems ▸ List.mem_cons_self))
      cases hcall : m.call env s.layer with
      | none =>
        rw [Message.call_eq_none.1 hcall] at hm
        cases hm
      | some r =>
        obtain ⟨l, x⟩ := r
        obtain ⟨i, hi⟩ := Mailbox.take_of_item x.isNone hr hitems
        refine ⟨.turn, { s.setLayer l with input := i }, ?_, .inr (.inr rfl), hn,
          Mailbox.given_take hi, Mailbox.work_take hi⟩
        rw [hstep, turn, hitems]
        simp only [hcall, hi, Option.map_some]
  · obtain ⟨i, hi⟩ := Mailbox.start_of_wakeup hw.1 hw.2
    refine ⟨.start, { s with input := i }, ?_, .inr (.inl rfl), hn,
      given_same (Mailbox.start_eq_some hi), Mailbox.work_start hi⟩
    rw [step, if_neg hgo]
    exact Option.map_eq_some_iff.2 ⟨i, hi, rfl⟩

/-- By induction on what is left to do. -/
theorem executes (n : Nat) (hn : s.crashed = false) (hc : ∀ m ∈ s.input.given, m.isControl = true)
    (hw : s.input.work ≤ n) :
    ∃ ls s', (lts env conf server).Run s ls s' ∧ (∀ l ∈ ls, l.IsHandler) ∧ s'.input.Idle ∧
      s'.input.taken = s.input.given ∧ s'.crashed = false := by
  induction n generalizing s with
  | zero =>
    by_cases hi : s.input.Idle
    · exact ⟨[], s, .nil s, List.forall_mem_nil _, hi, Mailbox.taken_of_idle hi, hn⟩
    · obtain ⟨l, s', -, -, -, -, hlt⟩ := exists_step env hn hi hc
      omega
  | succ n ih =>
    by_cases hi : s.input.Idle
    · exact ⟨[], s, .nil s, List.forall_mem_nil _, hi, Mailbox.taken_of_idle hi, hn⟩
    · obtain ⟨l, s', hs, hl, hn', hg, hlt⟩ := exists_step env hn hi hc
      obtain ⟨ls, u, hrun, hls, hidle, htaken, hu⟩ := ih hn' (hg ▸ hc) (by omega)
      exact ⟨l :: ls, u, .cons hs hrun, List.forall_mem_cons.2 ⟨hl, hls⟩, hidle, hg ▸ htaken, hu⟩

/-- From every state that is reached: without anything new, all that has been posted is
executed, in order, whatever exceptions it throws, exactly if it consists of control
messages. -/
theorem executes_iff (hr : (lts env conf server).Reachable s) :
    (∃ ls s', (lts env conf server).Run s ls s' ∧ (∀ l ∈ ls, l.IsHandler) ∧ s'.input.Idle ∧
      s'.input.taken = s.input.given ∧ s'.crashed = false) ↔
      ∀ m ∈ s.input.given, m.isControl = true := by
  have hcr := crashed_inductive env conf server
  constructor
  · intro hex m hm
    obtain ⟨ls, s', hrun, -, -, htaken, hn⟩ := hex
    by_contra hf
    have hcrash := (hcr.reachable (hr.run hrun)).2
      ⟨m, htaken ▸ hm, Bool.eq_false_iff.2 hf⟩
    rw [hn] at hcrash
    cases hcrash
  · intro hc
    have hn : s.crashed = false := by
      refine Bool.eq_false_iff.2 fun hcrash => ?_
      obtain ⟨m, hm, hf⟩ := (hcr.reachable hr).1 hcrash
      rw [hc m (List.mem_append_left _ hm)] at hf
      cases hf
    exact executes _ hn hc (le_refl _)

/-- The second of three messages throws, as asio takes no empty text for an address: the third
is left to the next handler. -/
theorem executes_iff_peers : ∃ s : Service,
    s.input.given = [.delPeer UdpLayer.peer9, .addPeer ⟨[], 9⟩, .addPeer UdpLayer.peer9] ∧
      s.input.taken = [.delPeer UdpLayer.peer9, .addPeer ⟨[], 9⟩] ∧ s.input.running = false ∧
      ∃ ls s', (lts smallEnv smallConfA ⟨[], 0⟩).Run s ls s' ∧ (∀ l ∈ ls, l.IsHandler) ∧
        s'.input.Idle ∧ s'.input.taken = s.input.given ∧ s'.crashed = false := by
  have hrun : ∃ s, (lts smallEnv smallConfA ⟨[], 0⟩).Reachable s ∧
      s.input.given = [.delPeer UdpLayer.peer9, .addPeer ⟨[], 9⟩, .addPeer UdpLayer.peer9] ∧
        s.input.taken = [.delPeer UdpLayer.peer9, .addPeer ⟨[], 9⟩] ∧ s.input.running = false :=
    LTS.exists_reachable_of_exec
      [.put (.delPeer UdpLayer.peer9), .post, .put (.addPeer ⟨[], 9⟩), .post,
        .put (.addPeer UdpLayer.peer9), .post, .start, .turn, .turn] rfl (by decide +kernel)
  obtain ⟨s, hr, hg, ht, hstop⟩ := hrun
  exact ⟨s, hg, ht, hstop, (executes_iff hr).2 (by rw [hg]; decide)⟩

/-! ### What the application gets -/

theorem messages_notice (a : Address) (out : List UdpEff) :
    (messages out).filterMap (Message.notice a) = UdpLayer.heard a out := by
  unfold messages UdpLayer.heard
  rw [List.filterMap_filterMap]
  congr 1
  funext e
  cases e with
  | noSuchPeer addr => rfl
  | peer addr e =>
    cases e with
    | newPeer id => rfl
    | newStream id => rfl
    | recvData id payload => rfl
    | _ => exact (ite_self none).symm

theorem eq_newPeer {a : Address} {i : Bytes} {m : Message}
    (h : m.notice a = some (.newPeer i)) : m = .newPeer i a := by
  cases m with
  | newPeer id addr =>
    obtain ⟨ha, hn⟩ := Option.ite_none_right_eq_some.1 h
    cases hn
    rw [ha]
  | newStream addr id => cases (Option.ite_none_right_eq_some.1 h).2
  | recvData addr id data => cases (Option.ite_none_right_eq_some.1 h).2
  | _ => cases h

theorem eq_newStream {a : Address} {i : UInt32} {m : Message}
    (h : m.notice a = some (.newStream i)) : m = .newStream a i := by
  cases m with
  | newPeer id addr => cases (Option.ite_none_right_eq_some.1 h).2
  | newStream addr id =>
    obtain ⟨ha, hn⟩ := Option.ite_none_right_eq_some.1 h
    cases hn
    rw [ha]
  | recvData addr id data => cases (Option.ite_none_right_eq_some.1 h).2
  | _ => cases h

/-- A call that the application has made on a stream of `a` is a message it has posted. -/
theorem mem_of_command {a : Address} {id : UInt32} {ms : List Message}
    (hsub : (evs.filter UdpLayer.Event.isCommand).Sublist (ms.filterMap Message.event))
    (h : .addStream id ∈ evs.flatMap (UdpLayer.Event.commands a)) : .addStream a id ∈ ms := by
  obtain ⟨ev, hev, hid⟩ := List.mem_flatMap.1 h
  have heq : ev = .peer a (.addStream id) := by
    cases ev with
    | peer addr e =>
      change .addStream id ∈ if addr = a then e.commands else [] at hid
      split at hid
      · rename_i ha
        subst ha
        cases e with
        | addStream i =>
          cases List.mem_singleton.1 hid
          rfl
        | delStream i => cases List.mem_singleton.1 hid
        | _ => cases hid
      · cases hid
    | _ => cases hid
  have hmem := hsub.mem (List.mem_filter.2 ⟨hev, by rw [heq]; rfl⟩)
  obtain ⟨m, hm, hmev⟩ := List.mem_filterMap.1 hmem
  rw [heq] at hmev
  cases m with
  | addStream addr i =>
    cases hmev
    exact hm
  | _ => cases hmev

/-- What the application has got of `a` before a message, and what the layer has told. -/
theorem told_before (hr : (lts env conf server).Run (new conf server) ls s) {a : Address}
    {l r : List Message} {m : Message} {n : Notice} (hq : s.queried = l ++ m :: r)
    (hm : m.notice a = some n) :
    ∃ (evs : List UdpLayer.Event) (ks ks' : List Notice) (c : Contact),
      Contact.lts.Run .unknown (ks ++ n :: ks') c ∧
      ks.filter Notice.isMessage = l.filterMap (Message.notice a) ∧
      (evs.filter UdpLayer.Event.isCommand).Sublist (s.input.taken.filterMap Message.event) ∧
      ks.filter Notice.isCommand ⊆ evs.flatMap (UdpLayer.Event.commands a) := by
  obtain ⟨evs, hrun, hfollows⟩ := run_follows hr
  obtain ⟨ks, hks, htold⟩ := UdpLayer.run_told a hrun
  have hmsg : ks.filter Notice.isMessage = UdpLayer.heard a s.layer.out := htold.messages.symm
  have hheard : ks.filter Notice.isMessage = l.filterMap (Message.notice a) ++
      n :: (r ++ s.outputRing).filterMap (Message.notice a) := by
    have hring : s.queried ++ s.outputRing = messages s.layer.out := run_ring hr
    rw [hmsg, ← messages_notice, ← hring, hq, List.append_assoc, List.cons_append,
      List.filterMap_append, List.filterMap_cons_some hm]
  obtain ⟨k₁, k₂, rfl, hk₁, hk₂⟩ := List.filter_eq_append_iff.1 hheard
  obtain ⟨k₃, k₄, rfl, hk₃, -, -⟩ := List.filter_eq_cons_iff.1 hk₂
  refine ⟨evs, k₁ ++ k₃, k₄, s.layer.contact a, ?_, ?_, hfollows.executed, ?_⟩
  · rw [List.append_assoc]
    exact hks
  · rw [List.filter_append, hk₁, List.filter_eq_nil_iff.2 hk₃, List.append_nil]
  · rw [← htold.commands, ← List.append_assoc]
    rw [List.filter_append _ (n :: k₄)]
    exact List.subset_append_left _ _

/-- Data comes from a peer and a stream that the application knows: it has got `new_peer`
before, and it has got `new_stream` or has had `add_stream` executed. Streams are announced
after their peer. -/
theorem queried_announced (hr : (lts env conf server).Run (new conf server) ls s) {a : Address}
    {l r : List Message} {id : UInt32} :
    (∀ data, s.queried = l ++ .recvData a id data :: r →
      (∃ i, .newPeer i a ∈ l) ∧ (.newStream a id ∈ l ∨ .addStream a id ∈ s.input.taken)) ∧
    (s.queried = l ++ .newStream a id :: r → ∃ i, .newPeer i a ∈ l) := by
  have got : ∀ {ks : List Notice} {n : Notice}, n.isMessage = true → n ∈ ks →
      ks.filter Notice.isMessage = l.filterMap (Message.notice a) →
      ∃ m ∈ l, m.notice a = some n := by
    intro ks n hn hmem hl
    exact List.mem_filterMap.1 (hl ▸ List.mem_filter.2 ⟨hmem, hn⟩)
  constructor
  · intro data hq
    obtain ⟨evs, ks, ks', c, hrun, hmsg, hsub, hcmd⟩ := told_before (n := .recvData id data) hr hq
      (if_pos rfl)
    obtain ⟨⟨l₁, i, l₂, hl₁, -⟩, l₃, n, l₄, hl₃, hopen, -⟩ := Contact.run_recvData hrun
    constructor
    · obtain ⟨m, hm, hnot⟩ := got (n := .newPeer i) rfl
        (hl₁ ▸ List.mem_append_right _ List.mem_cons_self) hmsg
      exact ⟨i, eq_newPeer hnot ▸ hm⟩
    · have hmem : n ∈ ks := hl₃ ▸ List.mem_append_right _ List.mem_cons_self
      cases n with
      | newStream j =>
        obtain rfl : j = id := beq_iff_eq.1 hopen
        obtain ⟨m, hm, hnot⟩ := got (n := .newStream j) rfl hmem hmsg
        exact .inl (eq_newStream hnot ▸ hm)
      | addStream j =>
        obtain rfl : j = id := beq_iff_eq.1 hopen
        exact .inr (mem_of_command hsub (hcmd (List.mem_filter.2 ⟨hmem, rfl⟩)))
      | _ => cases hopen
  · intro hq
    obtain ⟨evs, ks, ks', c, hrun, hmsg, -, -⟩ := told_before (n := .newStream id) hr hq
      (if_pos rfl)
    obtain ⟨l₁, i, l₂, hl₁, -⟩ := Contact.run_newStream hrun
    obtain ⟨m, hm, hnot⟩ := got (n := .newPeer i) rfl
      (hl₁ ▸ List.mem_append_right _ List.mem_cons_self) hmsg
    exact ⟨i, eq_newPeer hnot ▸ hm⟩

theorem queried_announced_dataTrace : ∃ s : Service,
    s.queried = [.newPeer [98] UdpLayer.peer9, .recvData UdpLayer.peer9 5 [42]] ∧
      (.newStream UdpLayer.peer9 5 ∈ [Message.newPeer [98] UdpLayer.peer9] ∨
        .addStream UdpLayer.peer9 5 ∈ s.input.taken) := by
  obtain ⟨s, hr, hq, -⟩ := run_dataTrace
  exact ⟨s, hq, ((queried_announced (l := [_]) hr).1 [42] hq).2⟩

end Service
end ShadowTalk.Sml
