import ShadowTalk.Core.LTS
import ShadowTalk.Core.Slots
import ShadowTalk.Grpc.Login

/-!
# The gRPC server

Every call is served by a `HandleCall` that moves from state to state as the
completion queue hands it its events. A `SwitchMessages` call also has a
`MessageSwitchContext`, which it shares with the `PeerMessageWriter` it makes
when the stream is opened; either may be gone before the other.

Objects are named by the number of their call. `Server.lts` has every order of
completions, each with `ok` true or false, of the operations that are
outstanding: a handler always waits for one operation, a writer only while it is
`RUNNING`.

A part of all calls is read through `view`; what an operation leaves alone is said
once for every view.

Limitations: `HandlePing` is left out, `RunServer` does not start it. The output
on `std::cout` is left out.
-/
namespace ShadowTalk.Grpc
open ShadowTalk.Core

/-- A message on its way to a receiver; `read` is a ghost, the number of the
`Read` that brought it. -/
structure Relayed where
  msg : Registry.Message
  read : Nat
  deriving DecidableEq, Repr

/-! ## Writers -/

/-- mirrors grpc-server/GRPCServer.cpp:320 -/
inductive WriterStatus where
  | idle | running
  deriving DecidableEq, Repr

/-- mirrors grpc-server/GRPCServer.cpp:284-323; its `ptr_` is the context of its call. -/
structure PeerMessageWriter where
  status : WriterStatus
  toWrite : List Relayed
  deriving DecidableEq, Repr

namespace PeerMessageWriter

/-- mirrors grpc-server/GRPCServer.cpp:286-288 -/
def new : PeerMessageWriter := ⟨.idle, []⟩

/-- The writer and what it hands to `stream.Write`.
mirrors grpc-server/GRPCServer.cpp:307-318 -/
def write (w : PeerMessageWriter) (m : Relayed) : PeerMessageWriter × List Relayed :=
  let q := w.toWrite ++ [m]
  match w.status with
  | .idle => (⟨.running, q⟩, q.take 1)
  | .running => (⟨.running, q⟩, [])

/-- `Proceed(true)`.
mirrors grpc-server/GRPCServer.cpp:296-304 -/
def wrote (w : PeerMessageWriter) : PeerMessageWriter × List Relayed :=
  let q := w.toWrite.tail
  match q with
  | [] => (⟨.idle, q⟩, [])
  | m :: _ => (⟨w.status, q⟩, [m])

/-- A writer is idle exactly when it has nothing to write. -/
def Inv (w : PeerMessageWriter) : Prop := w.status = .idle ↔ w.toWrite = []

/-- What has been accepted and not been handed to the stream yet: the front of the
queue of a running writer is being written. -/
def pending (w : PeerMessageWriter) : List Relayed :=
  match w.status with
  | .idle => w.toWrite
  | .running => w.toWrite.tail

variable {w : PeerMessageWriter}

theorem inv_new : new.Inv := iff_of_true rfl rfl

theorem inv_write (m : Relayed) : (w.write m).1.Inv := by
  unfold write Inv
  cases w.status <;> simp

theorem inv_wrote (hi : w.Inv) : w.wrote.1.Inv := by
  unfold wrote
  simp only
  split
  · rename_i h
    simp [Inv, h]
  · rename_i m q h
    have hne : w.status ≠ .idle := fun hs => by rw [hi.1 hs] at h; cases h
    simp [Inv, h, hne]

/-- `Write` puts the message behind all that was accepted before. -/
theorem write_pending (hi : w.Inv) (m : Relayed) :
    (w.write m).2 ++ (w.write m).1.pending = w.pending ++ [m] := by
  unfold write pending
  cases hs : w.status with
  | idle => simp [hi.1 hs]
  | running =>
    have hne : w.toWrite ≠ [] := fun h => by rw [hi.2 h] at hs; cases hs
    simp [List.tail_append_of_ne_nil hne]

/-- A completed write hands on what comes next. -/
theorem wrote_pending (hr : w.status = .running) :
    w.wrote.2 ++ w.wrote.1.pending = w.pending := by
  unfold wrote pending
  simp only
  split
  · rename_i h
    simp [h, hr]
  · rename_i m q h
    simp [h, hr]

end PeerMessageWriter

/-! ## Calls -/

/-- The methods that `RunServer` starts. -/
inductive Method where
  | login | listPeers | switchMessages
  deriving DecidableEq, Repr

/-- mirrors grpc-server/GRPCServer.cpp:140 -/
inductive CallStatus where
  | create | receivedRequest | process | finallize
  deriving DecidableEq, Repr

/-- What `Finish` was called with. -/
inductive Response where
  | accessToken (token : Bytes)
  | peerList (names : List Bytes)
  | cancelled
  deriving DecidableEq, Repr

/-- `peer` and `msg` are the members of `HandleSwitchMessages`.
mirrors grpc-server/GRPCServer.cpp:135-142 and 379-382 -/
structure HandleCall where
  method : Method
  status : CallStatus
  peer : Option Nat
  msg : Registry.Message
  deriving DecidableEq, Repr

/-- `token` is what `ctx_` has as metadata, `written` what `stream.Write` was
called with.
mirrors grpc-server/GRPCServer.cpp:269-282 -/
structure MessageSwitchContext where
  token : Option Bytes
  peer : Option Nat
  written : List Relayed
  deriving DecidableEq, Repr

/-- A call: its handler, its context and its writer; `none` is an object that has
deleted itself, or a writer that was never made. -/
structure Call where
  handler : Option HandleCall
  ctx : MessageSwitchContext
  writer : Option PeerMessageWriter
  response : Option Response
  deriving DecidableEq, Repr

namespace Call

/-- mirrors grpc-server/GRPCServer.cpp:89-93 and 327-331 -/
def new (m : Method) : Call := ⟨some ⟨m, .create, none, .new⟩, ⟨none, none, []⟩, none, none⟩

def setStatus (st : CallStatus) (c : Call) : Call :=
  { c with handler := c.handler.map fun h => { h with status := st } }

/-- `Proceed(true)` of a new call.
mirrors grpc-server/GRPCServer.cpp:104-107 -/
def requestData (c : Call) : Call := c.setStatus .receivedRequest

/-- `delete this` of the handler. -/
def delete (c : Call) : Call := { c with handler := none }

/-- `delete this` of the writer. -/
def deleteWriter (c : Call) : Call := { c with writer := none }

def respond (r : Response) (c : Call) : Call := { c with response := some r }

/-- mirrors grpc-server/GRPCServer.cpp:345-346 -/
def openStream (p : Nat) (token : Option Bytes) (c : Call) : Call where
  handler := c.handler.map fun h => { h with peer := some p }
  ctx := { c.ctx with token := token, peer := some p }
  writer := some .new
  response := c.response

def setMsg (m : Registry.Message) (c : Call) : Call :=
  { c with handler := c.handler.map fun h => { h with msg := m } }

/-- The writer goes on and hands some messages to the stream. -/
def give (r : PeerMessageWriter × List Relayed) (c : Call) : Call :=
  { c with writer := some r.1, ctx := { c.ctx with written := c.ctx.written ++ r.2 } }

/-- `Write` of the call's writer; there is one wherever this is called
(`Server.Inv.pointer`). -/
def write (m : Relayed) (c : Call) : Call :=
  match c.writer with
  | some w => c.give (w.write m)
  | none => c

end Call

/-- `reads` and `opened` are ghosts: the messages that were read, with the call
they were read from, and the streams in the order in which they were opened, with
their `PeerInfo`s. -/
structure Server where
  maps : PeerMaps
  calls : List Call
  reads : List (Nat × Registry.Message)
  opened : List (Nat × Nat)
  deriving DecidableEq

/-- What gRPC has stored for a handler by the time of its event: the name of a
`Credential`, the metadata, the message read. A handler looks at what it asked for. -/
structure Input where
  name : Bytes
  token : Option Bytes
  msg : Registry.Message
  deriving DecidableEq, Repr

namespace Input

def credential (name : Bytes) : Input := ⟨name, none, .new⟩

def metadata (token : Bytes) : Input := ⟨[], some token, .new⟩

def message (m : Registry.Message) : Input := ⟨[], none, m⟩

/-- Nothing new. -/
def nothing : Input := ⟨[], none, .new⟩

end Input

namespace Server

variable (SHA1 : Bytes → Digest)

def modifyCall (s : Server) (i : Nat) (f : Call → Call) : Server :=
  { s with calls := s.calls.modify i f }

/-- `peer->writer_ = w`. -/
def setWriter (s : Server) (p : Nat) (w : Option Nat) : Server :=
  { s with maps := { s.maps with peers := s.maps.peers.modify p fun q => { q with writer := w } } }

/-- `CreateInstance(service_, q_)->Proceed(true)`. -/
def accept (s : Server) (m : Method) : Server :=
  { s with calls := s.calls ++ [(Call.new m).requestData] }

/-- mirrors grpc-server/GRPCServer.cpp:395-397 -/
def new : Server :=
  ((Server.mk .new [] [] []).accept .login |>.accept .listPeers).accept .switchMessages

/-- Part `g` of call `i`; `d` if there is no such call. -/
def view {β : Type} (g : Call → β) (d : β) (s : Server) (i : Nat) : β := (s.calls[i]?.map g).getD d

def handler? (s : Server) (i : Nat) : Option HandleCall := s.view Call.handler none i

def writer? (s : Server) (i : Nat) : Option PeerMessageWriter := s.view Call.writer none i

def hasWriter (s : Server) (i : Nat) : Bool := s.view (fun c => c.writer.isSome) false i

/-- The `PeerInfo` of the stream of call `i`. -/
def peerOf (s : Server) (i : Nat) : Option Nat := s.view (fun c => c.ctx.peer) none i

def peerName (s : Server) (p : Nat) : Bytes := ((s.maps.peers[p]?).map PeerInfo.name).getD []

def peerWriter (s : Server) (p : Nat) : Option Nat := s.maps.peers[p]?.bind PeerInfo.writer

/-- mirrors grpc-server/GRPCServer.cpp:239-253 -/
def listPeers (s : Server) (token : Option Bytes) : Response :=
  match s.maps.getPeerInfo token with
  | none => .cancelled
  | some _ => .peerList (s.maps.peerIdMap.entries.map fun e => s.peerName e.2)

/-- The first `HandleRequest` of a stream.
mirrors grpc-server/GRPCServer.cpp:345-351 -/
def openStream (s : Server) (i p : Nat) (token : Option Bytes) : Server :=
  { (s.modifyCall i (Call.openStream p token)).setWriter p (some i) with
    opened := s.opened ++ [(p, i)] }

/-- `peer_name_map_` has the receiver of `m` and it has a writer. -/
def receiver (s : Server) (m : Registry.Message) : Option Nat :=
  (s.maps.peerNameMap.find? m.peerId).bind s.peerWriter

/-- Every later `HandleRequest` of a stream.
mirrors grpc-server/GRPCServer.cpp:359-371 -/
def relay (s : Server) (i p : Nat) (m : Registry.Message) : Server :=
  let s' := { s.modifyCall i (Call.setMsg m) with reads := s.reads ++ [(i, m)] }
  match s.receiver m with
  | none => s'
  | some j =>
    let m' := { m with peerId := s.peerName p }
    (s'.modifyCall i (Call.setMsg m')).modifyCall j (Call.write ⟨m', s.reads.length⟩)

/-- `HandleRequest`: the server afterwards, and whether the call is finished.
mirrors grpc-server/GRPCServer.cpp:156-173, 239-253 and 338-372 -/
def handleRequest (s : Server) (i : Nat) (h : HandleCall) (inp : Input) : Server × Bool :=
  match h.method with
  | .login =>
    let r := s.maps.handleLogin SHA1 inp.name
    (({ s with maps := r.1 } : Server).modifyCall i (Call.respond (.accessToken r.2)), true)
  | .listPeers => (s.modifyCall i (Call.respond (s.listPeers inp.token)), true)
  | .switchMessages =>
    match h.peer with
    | none =>
      match s.maps.getPeerInfo inp.token with
      | none => (s.modifyCall i (Call.respond .cancelled), true)
      | some p => (s.openStream i p inp.token, false)
    | some p => (s.relay i p inp.msg, false)

/-- `HandleCall::Proceed`.
mirrors grpc-server/GRPCServer.cpp:97-126 -/
def proceed (s : Server) (i : Nat) (h : HandleCall) (ok : Bool) (inp : Input) : Server :=
  if !ok then (s.accept h.method).modifyCall i Call.delete
  else
    match h.status with
    | .create => s.modifyCall i Call.requestData
    | .receivedRequest =>
      let r := handleRequest SHA1 (s.accept h.method) i h inp
      r.1.modifyCall i (Call.setStatus (if r.2 then .finallize else .process))
    | .process =>
      let r := handleRequest SHA1 s i h inp
      if r.2 then r.1.modifyCall i (Call.setStatus .finallize) else r.1
    | .finallize => s.modifyCall i Call.delete

/-- `PeerMessageWriter::Proceed`.
mirrors grpc-server/GRPCServer.cpp:290-305 -/
def writerProceed (s : Server) (i : Nat) (w : PeerMessageWriter) (ok : Bool) : Server :=
  if !ok then
    let s' := s.modifyCall i Call.deleteWriter
    match s.peerOf i with
    | some p => s'.setWriter p none
    | none => s'
  else s.modifyCall i (Call.give w.wrote)

/-- The completion queue hands out the tag of handler `i` or of writer `i`. -/
inductive Event where
  | call (i : Nat) (ok : Bool) (inp : Input)
  | writer (i : Nat) (ok : Bool)
  deriving DecidableEq, Repr

/-- mirrors grpc-server/GRPCServer.cpp:407-408 -/
def step (s : Server) : Event → Option Server
  | .call i ok inp => (s.handler? i).map fun h => proceed SHA1 s i h ok inp
  | .writer i ok =>
    (s.writer? i).bind fun w => if w.status = .running then some (s.writerProceed i w ok) else none

def lts : LTS Server Event := .ofFn (· = new) (step SHA1)

/-- User "a" logs in and opens a stream. -/
def oneStream : List Event :=
  [.call 0 true (.credential [97]), .call 0 true .nothing,
    .call 2 true (.metadata (Digest.sample [97]).token)]

/-! ## What an operation leaves alone -/

variable {SHA1} {s s' : Server} {i j p : Nat}

@[simp] theorem modifyCall_maps (f : Call → Call) : (s.modifyCall i f).maps = s.maps := rfl
@[simp] theorem accept_maps (m : Method) : (s.accept m).maps = s.maps := rfl
@[simp] theorem accept_reads (m : Method) : (s.accept m).reads = s.reads := rfl
@[simp] theorem accept_opened (m : Method) : (s.accept m).opened = s.opened := rfl

section
variable {β : Type} {g : Call → β} {d : β} {k : Nat}

theorem view_of_some {c : Call} (h : s.calls[i]? = some c) : s.view g d i = g c := by
  simp [view, h]

theorem view_eq_some {g : Call → Option β} {x : β} :
    s.view g none i = some x ↔ ∃ c, s.calls[i]? = some c ∧ g c = some x := by
  unfold view
  cases s.calls[i]? <;> simp

/-- A new call is seen like no call. -/
theorem view_accept {m : Method} (h : g (Call.new m).requestData = d) :
    (s.accept m).view g d k = s.view g d k := by
  unfold view accept
  simp only
  rcases Nat.lt_trichotomy k s.calls.length with hk | rfl | hk
  · rw [List.getElem?_append_left hk]
  · simp [h]
  · rw [List.getElem?_eq_none (by simp; omega), List.getElem?_eq_none (by omega)]

theorem view_modifyCall {f : Call → Call} {c : Call} (h : s.calls[i]? = some c) :
    (s.modifyCall i f).view g d k = if k = i then g (f c) else s.view g d k := by
  unfold view modifyCall
  simp only [List.getElem?_modify]
  by_cases hk : k = i
  · subst hk
    simp [h]
  · simp [hk, Ne.symm hk]

theorem view_modifyCall_of_eq {f : Call → Call} (h : ∀ c, g (f c) = g c) :
    (s.modifyCall i f).view g d k = s.view g d k := by
  unfold view modifyCall
  simp only [List.getElem?_modify]
  cases s.calls[k]? with
  | none => simp
  | some c => by_cases hk : i = k <;> simp [hk, h]

theorem view_accept_modify {m : Method} {f : Call → Call} (h₀ : g (Call.new m).requestData = d)
    (h : ∀ c, g (f c) = g c) : ((s.accept m).modifyCall i f).view g d k = s.view g d k :=
  (view_modifyCall_of_eq h).trans (view_accept h₀)

theorem view_accept_modify_at {m : Method} {f : Call → Call} {c : Call}
    (h₀ : g (Call.new m).requestData = d) (h : s.calls[i]? = some c) :
    ((s.accept m).modifyCall i f).view g d k = if k = i then g (f c) else s.view g d k := by
  have h' : (s.accept m).calls[i]? = some c := Slots.getElem?_append_of_some h
  rw [view_modifyCall h', view_accept h₀]

end

theorem peerWriter_setWriter (w : Option Nat) (q : Nat) :
    (s.setWriter p w).peerWriter q =
      if q = p ∧ p < s.maps.peers.length then w else s.peerWriter q := by
  unfold peerWriter setWriter
  simp only [List.getElem?_modify]
  by_cases hq : p = q
  · subst hq
    by_cases hp : p < s.maps.peers.length
    · simp [hp]
    · simp [hp]
  · simp [hq, Ne.symm hq]

theorem accept_calls (m : Method) : (s.accept m).calls = s.calls ++ [(Call.new m).requestData] :=
  rfl

theorem setWriter_names (w : Option Nat) :
    (s.setWriter p w).maps.peers.map PeerInfo.name = s.maps.peers.map PeerInfo.name :=
  Slots.map_modify_of_eq (f := fun q : PeerInfo => { q with writer := w }) (fun _ => rfl) _ _

end Server

end ShadowTalk.Grpc
