import ShadowTalk.Core.LTS
import ShadowTalk.Core.OrderedMap
import ShadowTalk.Core.Slots
import ShadowTalk.Sml.Address
import ShadowTalk.Whisper.MessageCtx

/-!
# The TLS server

A `session` for each connection, named by its number. A session lives as long as
one of its asynchronous operations is outstanding, since each handler holds a
shared pointer to it; its destructor takes its address out of the registry, which
holds weak pointers. `Server.lts` has every order of completions.

The libraries are a parameter (`Libs`): msgpack, and the JSON text of the peer
listing, which nlohmann's `dump` makes of valid UTF-8 only.

* `handleMessage_frame`: handling a message changes queues and nothing else.
* `inv_inductive`: the registry points to live sessions, each under its address.

Limitations: memory is not exhausted. The buffer that `do_write` hands to
`async_write` dies when `do_write` returns; here the message itself is written.
The output on `std::cout` is left out.
-/
namespace ShadowTalk.Whisper
open ShadowTalk.Core

/-- msgpack; valid UTF-8; and the text of `{"addr":{"CommonName":[..]}, ..}`. -/
structure Libs (Obj : Type) where
  mp : Msgpack Obj
  validUtf8 : Bytes → Bool
  dump : List (Bytes × List Bytes) → Bytes

/-- `socket_` is what is outstanding on it: `writes` are the messages handed to
`async_write`, oldest first. `queued` is a ghost, every message ever passed to
`WriteMessage`.
mirrors server/peer.h:67-81 -/
structure Session where
  addr : Bytes
  cn : List Bytes
  ctx : MessageCtx
  writingStarted : Bool
  toWrite : List Message
  handshaking : Bool
  reading : Bool
  writes : List Message
  queued : List Message
  deriving DecidableEq, Repr

namespace Session

/-- `writing_started_` is not initialised.
mirrors server/server.cpp:73-80 -/
def new (writingStarted : Bool) : Session where
  addr := []
  cn := []
  ctx := ⟨[]⟩
  writingStarted := writingStarted
  toWrite := []
  handshaking := true
  reading := false
  writes := []
  queued := []

/-- Some handler holds a shared pointer. -/
def alive (x : Session) : Bool := x.handshaking || x.reading || !x.writes.isEmpty

/-- mirrors server/server.cpp:199-219 -/
def doWrite (x : Session) : Session :=
  match x.toWrite with
  | [] => { x with writingStarted := false }
  | m :: q => { x with writingStarted := true, toWrite := q, writes := x.writes ++ [m] }

/-- mirrors server/server.cpp:192-197 -/
def writeMessage (m : Message) (x : Session) : Session :=
  let x := { x with toWrite := x.toWrite ++ [m], queued := x.queued ++ [m] }
  if x.writingStarted then x else x.doWrite

/-- What a connection is, the bytes on it apart. -/
structure Conn where
  addr : Bytes
  cn : List Bytes
  handshaking : Bool
  reading : Bool
  deriving DecidableEq, Repr

def conn (x : Session) : Conn := ⟨x.addr, x.cn, x.handshaking, x.reading⟩

@[simp] theorem doWrite_conn (x : Session) : x.doWrite.conn = x.conn := by
  unfold doWrite
  split <;> rfl

@[simp] theorem doWrite_ctx (x : Session) : x.doWrite.ctx = x.ctx := by
  unfold doWrite
  split <;> rfl

@[simp] theorem doWrite_queued (x : Session) : x.doWrite.queued = x.queued := by
  unfold doWrite
  split <;> rfl

@[simp] theorem writeMessage_conn (m : Message) (x : Session) :
    (x.writeMessage m).conn = x.conn := by
  unfold writeMessage
  simp only
  split
  · rfl
  · rw [doWrite_conn]
    rfl

@[simp] theorem writeMessage_ctx (m : Message) (x : Session) :
    (x.writeMessage m).ctx = x.ctx := by
  unfold writeMessage
  simp only
  split
  · rfl
  · rw [doWrite_ctx]

@[simp] theorem writeMessage_queued (m : Message) (x : Session) :
    (x.writeMessage m).queued = x.queued ++ [m] := by
  unfold writeMessage
  simp only
  split
  · rfl
  · rw [doWrite_queued]

theorem doWrite_alive {x : Session} (h : x.alive = true) : x.doWrite.alive = true := by
  unfold doWrite
  split
  · exact h
  · simp [alive]

theorem writeMessage_writes {m : Message} {x : Session} (h : x.writes ≠ []) :
    (x.writeMessage m).writes ≠ [] := by
  unfold writeMessage doWrite
  simp only
  split
  · exact h
  · split <;> simp [h]

theorem writeMessage_alive {m : Message} {x : Session} (h : x.alive = true) :
    (x.writeMessage m).alive = true := by
  unfold writeMessage
  simp only
  split
  · exact h
  · exact doWrite_alive h

end Session

/-- `registry` is `sessions_`; `ended` is the exception with which
`io_context.run()` was left.
mirrors server/server.cpp:221-280 -/
structure Server where
  sessions : List Session
  registry : OMap Bytes Nat
  ended : Option Exc
  deriving DecidableEq

namespace Server

def start : Server := ⟨[], .empty, none⟩

def modify (s : Server) (i : Nat) (f : Session → Session) : Server :=
  { s with sessions := s.sessions.modify i f }

/-- `weak_ptr::lock`. -/
def lock (s : Server) (t : Nat) : Option Session := s.sessions[t]?.filter (·.alive)

/-- mirrors server/server.cpp:86-88 -/
def getCommonName (s : Server) (i : Nat) : List Bytes := (s.sessions[i]?.map (·.cn)).getD []

def writeMessage (s : Server) (t : Nat) (m : Message) : Server := s.modify t (.writeMessage m)

/-- The destructor runs when no handler holds the session any more.
mirrors server/server.cpp:82-84 -/
def release (s : Server) (i : Nat) : Server :=
  match s.sessions[i]? with
  | none => s
  | some x => if x.alive then s else { s with registry := s.registry.erase x.addr }

/-- The names that `j = sessions_` collects.
mirrors server/server.cpp:59-67 -/
def listing (s : Server) : List (Bytes × List Bytes) :=
  s.registry.entries.filterMap fun e => (s.lock e.2).map fun p => (e.1, p.cn)

section
variable {Obj : Type} (env : Libs Obj)

/-- Every text of the listing is valid. -/
def Dumpable (s : Server) : Prop :=
  ∀ e ∈ s.listing, env.validUtf8 e.1 = true ∧ ∀ c ∈ e.2, env.validUtf8 c = true

instance (s : Server) : Decidable (s.Dumpable env) := inferInstanceAs (Decidable (∀ _ ∈ _, _))

/-- `j.dump()` throws for a text that is not UTF-8. -/
def jsonDump (s : Server) : Except Exc Bytes :=
  if s.Dumpable env then .ok (env.dump s.listing) else .error .jsonTypeError

/-- The body of the loop in `do_read`, and what it throws.
mirrors server/server.cpp:140-185 -/
def handleMessage (s : Server) (i : Nat) (m : Message) : Server × Option Exc :=
  match m.type with
  | .ping => (s.writeMessage i (.createMessage .pong []), none)
  | .sendMsg =>
    match s.registry.find? m.dst with
    | none => (s, none)
    | some t =>
      match s.lock t with
      | none => (s, none)
      | some ptr =>
        match (s.getCommonName i).head?, ptr.cn.head? with
        | some src, some dst =>
          (s.writeMessage t { Message.createMessage .peerMsg m.bytes with src := src, dst := dst },
            none)
        | _, _ => (s, some .emptyFront)
  | .listPeers =>
    match s.jsonDump env with
    | .error x => (s, some x)
    | .ok r => (s.writeMessage i (.createMessage .peerList r), none)
  | _ => (s, none)

/-- The messages one after the other, until one throws. -/
def handleMessages (i : Nat) : Server → List Message → Server × Option Exc
  | s, [] => (s, none)
  | s, m :: ms =>
    match s.handleMessage env i m with
    | (s, some x) => (s, some x)
    | (s, none) => handleMessages i s ms

/-- The handler of `async_read_some`; an exception leaves `run()`.
mirrors server/server.cpp:136-188 -/
def onRead (s : Server) (i : Nat) (x : Session) (bytes : Bytes) : Server :=
  match x.ctx.feed env.mp bytes with
  | (ctx, .error e) =>
    { s.modify i (fun x => { x with ctx := ctx }) with ended := some e }
  | (ctx, .ok ms) =>
    let r := handleMessages env i (s.modify i fun x => { x with ctx := ctx }) ms
    { r.1 with ended := r.2 }

/-- `addr_` of a connection.
mirrors server/server.cpp:118-124 -/
def addrText (ip : Bytes) (port : UInt16) : Bytes := ip ++ [58] ++ Sml.decimal port.toNat

/-- The handler of `async_handshake`; `remote` is `none` if `remote_endpoint`
throws because the connection is gone.
mirrors server/server.cpp:111-130 -/
def onHandshake (s : Server) (i : Nat) (remote : Option (Bytes × UInt16)) (cn : List Bytes) :
    Server :=
  match remote with
  | none =>
    { s.modify i (fun x => { x with cn := cn, handshaking := false }) with
      ended := some .systemError }
  | some (ip, port) =>
    let s := s.modify i fun x =>
      { x with cn := cn, addr := addrText ip port, handshaking := false, reading := true }
    { s with registry := s.registry.insert (addrText ip port) i }

inductive Event where
  /-- a connection is accepted; `writingStarted` is what the memory held -/
  | accept (writingStarted : Bool)
  /-- the handshake of session `i` ends, with the common names of the certificate -/
  | handshake (i : Nat) (remote : Option (Bytes × UInt16)) (cn : List Bytes)
  | handshakeFailed (i : Nat)
  /-- session `i` reads some bytes -/
  | read (i : Nat) (bytes : Bytes)
  /-- the read of session `i` ends with an error or without a byte -/
  | readFailed (i : Nat)
  /-- the oldest write of session `i` ends -/
  | wrote (i : Nat)
  | writeFailed (i : Nat)
  deriving DecidableEq

/-- The session whose handler runs, if it waits for that. -/
def waiting (s : Server) (i : Nat) (p : Session → Bool) : Option Session :=
  if s.ended = none then s.sessions[i]?.filter p else none

def step (s : Server) : Event → Option Server
  | .accept w =>
    if s.ended = none then some { s with sessions := s.sessions ++ [.new w] } else none
  | .handshake i remote cn =>
    (s.waiting i (·.handshaking)).map fun _ => s.onHandshake i remote cn
  | .handshakeFailed i => (s.waiting i (·.handshaking)).map fun _ =>
    (s.modify i fun x => { x with handshaking := false }).release i
  | .read i bytes =>
    if bytes = [] then none else (s.waiting i (·.reading)).map fun x => s.onRead env i x bytes
  | .readFailed i => (s.waiting i (·.reading)).map fun _ =>
    (s.modify i fun x => { x with reading := false }).release i
  | .wrote i => (s.waiting i (!·.writes.isEmpty)).map fun _ =>
    (s.modify i fun x => ({ x with writes := x.writes.tail } : Session).doWrite).release i
  | .writeFailed i => (s.waiting i (!·.writes.isEmpty)).map fun _ =>
    (s.modify i fun x => { x with writes := x.writes.tail }).release i

def lts : LTS Server Event := .ofFn (· = start) (step env)

end

/-! ## Handling a message -/

/-- What a session is called, while it lives. -/
def names (s : Server) (t : Nat) : Option (Bytes × List Bytes) :=
  (s.lock t).map fun x => (x.addr, x.cn)

/-- The connections, the live sessions and the registry are the same; nothing that
is outstanding ends. -/
structure Frame (s s' : Server) : Prop where
  registry : s'.registry = s.registry
  conn : s'.sessions.map Session.conn = s.sessions.map Session.conn
  names : ∀ t, s'.names t = s.names t
  /-- an outstanding write stays so -/
  writes : ∀ (t : Nat) (x : Session), s.sessions[t]? = some x → x.writes ≠ [] →
    ∃ y, s'.sessions[t]? = some y ∧ y.writes ≠ []

variable {Obj : Type} {env : Libs Obj} {s s' : Server} {i t : Nat} {m : Message}
  {ms : List Message} {x : Session} {bytes : Bytes}

theorem Frame.refl (s : Server) : Frame s s := ⟨rfl, rfl, fun _ => rfl, fun _ x h hw => ⟨x, h, hw⟩⟩

theorem Frame.trans {u : Server} (h : Frame s s') (h' : Frame s' u) : Frame s u where
  registry := h'.registry.trans h.registry
  conn := h'.conn.trans h.conn
  names t := (h'.names t).trans (h.names t)
  writes t x hx hw := by
    obtain ⟨y, hy, hw'⟩ := h.writes t x hx hw
    exact h'.writes t y hy hw'

theorem lock_eq_some : s.lock t = some x ↔ s.sessions[t]? = some x ∧ x.alive = true := by
  unfold lock
  rw [Option.filter_eq_some_iff]

/-- A live session changes, but not in what it is. -/
theorem frame_modify {f : Session → Session} (h : s.lock t = some x)
    (hconn : ∀ y, (f y).conn = y.conn) (ha : (f x).alive = true)
    (hw : x.writes ≠ [] → (f x).writes ≠ []) : Frame s (s.modify t f) where
  registry := rfl
  conn := Slots.map_modify_of_eq hconn _ _
  names k := by
    obtain ⟨hx, hax⟩ := lock_eq_some.1 h
    unfold Server.names lock modify
    simp only [List.getElem?_modify]
    by_cases hk : t = k
    · subst hk
      have hc := hconn x
      simp only [Session.conn, Session.Conn.mk.injEq] at hc
      simp only [hx, if_true, Option.map_eq_map, Option.map_some, Option.filter_some, ha, hax,
        hc.1, hc.2.1]
    · simp [hk]
  writes k y hy hwy := by
    obtain ⟨hx, -⟩ := lock_eq_some.1 h
    unfold modify
    simp only [List.getElem?_modify, hy]
    by_cases hk : t = k
    · subst hk
      obtain rfl := Option.some.inj (hx.symm.trans hy)
      exact ⟨f x, by simp, hw hwy⟩
    · exact ⟨y, by simp [hk], hwy⟩

theorem frame_writeMessage (h : s.lock t = some x) (m : Message) : Frame s (s.writeMessage t m) :=
  frame_modify h (Session.writeMessage_conn m) (Session.writeMessage_alive (lock_eq_some.1 h).2)
    Session.writeMessage_writes

theorem handleMessage_frame (hi : ∃ x, s.lock i = some x) (m : Message) :
    Frame s (s.handleMessage env i m).1 := by
  obtain ⟨x, hx⟩ := hi
  unfold handleMessage
  split
  · exact frame_writeMessage hx _
  · split
    · exact .refl s
    · split
      · exact .refl s
      · rename_i ptr hptr
        split
        · exact frame_writeMessage hptr _
        · exact .refl s
  · split
    · exact .refl s
    · exact frame_writeMessage hx _
  · exact .refl s

theorem Frame.exists_lock (h : Frame s s') (hi : ∃ x, s.lock i = some x) :
    ∃ x, s'.lock i = some x := by
  obtain ⟨x, hx⟩ := hi
  have hn := h.names i
  unfold Server.names at hn
  rw [hx, Option.map_some, Option.map_eq_some_iff] at hn
  obtain ⟨y, hy, -⟩ := hn
  exact ⟨y, hy⟩

theorem handleMessages_throw {e : Exc} (he : s.handleMessage env i m = (s', some e))
    (ms : List Message) : handleMessages env i s (m :: ms) = (s', some e) := by
  simp only [handleMessages, he]

theorem handleMessages_next (he : s.handleMessage env i m = (s', none)) (ms : List Message) :
    handleMessages env i s (m :: ms) = handleMessages env i s' ms := by
  simp only [handleMessages, he]

theorem handleMessages_frame (hi : ∃ x, s.lock i = some x) (ms : List Message) :
    Frame s (handleMessages env i s ms).1 := by
  induction ms generalizing s with
  | nil => exact .refl s
  | cons m ms ih =>
    have hm : Frame s (s.handleMessage env i m).1 := handleMessage_frame hi m
    cases he : s.handleMessage env i m with
    | mk s' o =>
      rw [he] at hm
      cases o with
      | some e =>
        rw [handleMessages_throw he]
        exact hm
      | none =>
        rw [handleMessages_next he]
        exact hm.trans (ih (hm.exists_lock hi))

theorem Frame.listing (h : Frame s s') : s'.listing = s.listing := by
  unfold Server.listing
  rw [h.registry]
  refine List.filterMap_congr fun e _ => ?_
  have hn := congrArg (Option.map fun n : Bytes × List Bytes => (e.1, n.2)) (h.names e.2)
  simpa [Server.names, Option.map_map, Function.comp_def] using hn

theorem Frame.dumpable (h : Frame s s') : s'.Dumpable env ↔ s.Dumpable env := by
  unfold Dumpable
  rw [h.listing]

theorem Frame.getCommonName (h : Frame s s') (i : Nat) :
    s'.getCommonName i = s.getCommonName i := by
  have hc := congrArg (fun l : List Session.Conn => (l[i]?.map (·.cn)).getD []) h.conn
  simpa [Server.getCommonName, Option.map_map, Function.comp_def, Session.conn] using hc

/-! ## The registry -/

structure Inv (s : Server) : Prop where
  /-- an entry points to a live session with that address, past its handshake -/
  registry : ∀ a t, s.registry.find? a = some t →
    ∃ x, s.lock t = some x ∧ x.addr = a ∧ x.handshaking = false

theorem Inv.of_frame (h : Inv s) (hf : Frame s s') : Inv s' where
  registry a t ht := by
    rw [hf.registry] at ht
    obtain ⟨x, hx, ha, hh⟩ := h.registry a t ht
    obtain ⟨y, hy⟩ := hf.exists_lock ⟨x, hx⟩
    have hc := congrArg (fun l : List Session.Conn => l[t]?) hf.conn
    simp only [List.getElem?_map, (lock_eq_some.1 hx).1, (lock_eq_some.1 hy).1, Option.map_some,
      Option.some.injEq, Session.conn, Session.Conn.mk.injEq] at hc
    exact ⟨y, hy, hc.1.trans ha, hc.2.2.1.trans hh⟩

theorem Inv.ended (h : Inv s) (e : Option Exc) : Inv { s with ended := e } := ⟨h.registry⟩

theorem inv_start : Inv start where
  registry a t h := by cases h

/-- A session changes, but not in what the registry says of it, or it is not
registered. -/
theorem Inv.modify {f : Session → Session} (h : Inv s) (hx : s.sessions[i]? = some x)
    (hf : x.handshaking = true ∨ (f x).addr = x.addr ∧ (f x).handshaking = x.handshaking ∧
      (f x).alive = true) : Inv (s.modify i f) where
  registry a t ht := by
    obtain ⟨y, hy, ha, hh⟩ := h.registry a t ht
    obtain ⟨hy, halive⟩ := lock_eq_some.1 hy
    by_cases hk : i = t
    · subst hk
      obtain rfl := Option.some.inj (hx.symm.trans hy)
      rcases hf with hf | ⟨h1, h2, h3⟩
      · rw [hf] at hh
        cases hh
      · refine ⟨f x, lock_eq_some.2 ⟨?_, h3⟩, h1.trans ha, h2.trans hh⟩
        simp [Server.modify, hx]
    · refine ⟨y, lock_eq_some.2 ⟨?_, halive⟩, ha, hh⟩
      simp [Server.modify, hk, hy]

/-- A session changes and is released: if that was its last handler, its address
is taken out. -/
theorem Inv.release {f : Session → Session} (h : Inv s) (hx : s.sessions[i]? = some x)
    (hf : (f x).addr = x.addr) (hh : (f x).handshaking = true → x.handshaking = true) :
    Inv ((s.modify i f).release i) := by
  have hget : (s.modify i f).sessions[i]? = some (f x) := by
    simp [Server.modify, hx]
  unfold Server.release
  rw [hget]
  simp only
  by_cases ha : (f x).alive = true
  · rw [if_pos ha]
    by_cases hhand : x.handshaking = true
    · exact h.modify hx (.inl hhand)
    · refine h.modify hx (.inr ⟨hf, ?_, ha⟩)
      rw [Bool.eq_false_iff.2 hhand, Bool.eq_false_iff]
      exact fun hn => hhand (hh hn)
  · rw [if_neg ha]
    constructor
    intro a t ht
    have hne : a ≠ (f x).addr := by
      intro he
      subst he
      rw [OMap.find?_erase_self] at ht
      cases ht
    rw [OMap.find?_erase_ne _ hne] at ht
    obtain ⟨y, hy, hya, hyh⟩ := h.registry a t ht
    obtain ⟨hy, halive⟩ := lock_eq_some.1 hy
    have hk : i ≠ t := by
      intro hk
      subst hk
      obtain rfl := Option.some.inj (hx.symm.trans hy)
      exact hne (hya.symm.trans hf.symm)
    refine ⟨y, lock_eq_some.2 ⟨?_, halive⟩, hya, hyh⟩
    simp [Server.modify, hk, hy]

theorem waiting_eq_some {p : Session → Bool} (h : s.waiting i p = some x) :
    s.ended = none ∧ s.sessions[i]? = some x ∧ p x = true := by
  unfold waiting at h
  split at h
  · rename_i he
    rw [Option.filter_eq_some_iff] at h
    exact ⟨he, h.1, h.2⟩
  · cases h

theorem read_eq_some (h : s.step env (.read i bytes) = some s') :
    ∃ x, s.ended = none ∧ s.sessions[i]? = some x ∧ x.reading = true ∧
      s' = s.onRead env i x bytes := by
  simp only [step] at h
  split at h
  · cases h
  · obtain ⟨x, hx, rfl⟩ := Option.map_eq_some_iff.1 h
    obtain ⟨he, hx, hr⟩ := waiting_eq_some hx
    exact ⟨x, he, hx, hr, rfl⟩

theorem Inv.onHandshake (h : Inv s) (hx : s.sessions[i]? = some x) (hh : x.handshaking = true)
    (remote : Option (Bytes × UInt16)) (cn : List Bytes) : Inv (s.onHandshake i remote cn) := by
  unfold Server.onHandshake
  split
  · exact (h.modify hx (.inl hh)).ended _
  · rename_i ip port
    have hm := h.modify (f := fun x => { x with
      cn := cn, addr := addrText ip port, handshaking := false, reading := true }) hx (.inl hh)
    constructor
    intro a t ht
    change (OMap.insert (addrText ip port) i s.registry).find? a = some t at ht
    by_cases ha : a = addrText ip port
    · subst ha
      rw [OMap.find?_insert_self] at ht
      cases hreg : s.registry.find? (addrText ip port) with
      | some u =>
        rw [hreg, Option.getD_some, Option.some.injEq] at ht
        subst ht
        exact hm.registry _ _ hreg
      | none =>
        rw [hreg, Option.getD_none, Option.some.injEq] at ht
        subst ht
        refine ⟨{ x with
          cn := cn, addr := addrText ip port, handshaking := false, reading := true },
          lock_eq_some.2 ⟨?_, ?_⟩, rfl, rfl⟩
        · simp [Server.modify, hx]
        · simp [Session.alive]
    · rw [OMap.find?_insert_ne _ _ ha] at ht
      exact hm.registry a t ht

theorem lock_of_reading (hx : s.sessions[i]? = some x) (hr : x.reading = true) :
    s.lock i = some x := lock_eq_some.2 ⟨hx, by simp [Session.alive, hr]⟩

/-- What is buffered says nothing of the session. -/
theorem frame_ctx (hx : s.sessions[i]? = some x) (hr : x.reading = true) (ctx : MessageCtx) :
    Frame s (s.modify i fun x => { x with ctx := ctx }) := by
  have hl := lock_of_reading hx hr
  exact frame_modify hl (fun _ => rfl) (lock_eq_some.1 hl).2 fun hw => hw

theorem onRead_ok {r : Bytes}
    (h : env.mp.messageUnpacker.scan (x.ctx.unp ++ bytes) = (ms, some r)) :
    s.onRead env i x bytes =
      { (handleMessages env i (s.modify i fun x => { x with ctx := ⟨r⟩ }) ms).1 with
        ended := (handleMessages env i (s.modify i fun x => { x with ctx := ⟨r⟩ }) ms).2 } := by
  unfold Server.onRead
  rw [feed_ok x.ctx h]

theorem onRead_error (h : env.mp.Fails (x.ctx.unp ++ bytes)) :
    ∃ c e, (e = .parseError ∨ e = .typeError) ∧ s.onRead env i x bytes =
      { s.modify i (fun x => { x with ctx := c }) with ended := some e } := by
  obtain ⟨c, e, hfeed, he⟩ := feed_error x.ctx (scan_of_fails h)
  refine ⟨c, e, he, ?_⟩
  unfold Server.onRead
  rw [hfeed]

theorem Frame.ended (h : Frame s s') (e : Option Exc) : Frame s { s' with ended := e } :=
  ⟨h.registry, h.conn, h.names, h.writes⟩

/-- A read touches nothing but the context of its session and queues of messages. -/
theorem onRead_frame (hx : s.sessions[i]? = some x) (hr : x.reading = true) (bytes : Bytes) :
    Frame s (s.onRead env i x bytes) := by
  by_cases hf : env.mp.Fails (x.ctx.unp ++ bytes)
  · obtain ⟨c, e, -, hread⟩ := onRead_error (s := s) (i := i) hf
    rw [hread]
    exact (frame_ctx hx hr c).ended _
  · obtain ⟨r, hscan⟩ := scan_of_not_fails hf
    have hctx := frame_ctx hx hr ⟨r⟩
    have hi := hctx.exists_lock ⟨x, lock_of_reading hx hr⟩
    rw [onRead_ok hscan]
    exact (hctx.trans (handleMessages_frame hi _)).ended _

theorem inv_inductive (env : Libs Obj) : (lts env).Inductive Inv where
  init := forall_eq.2 inv_start
  step s e s' h hs := by
    have hs : s.step env e = some s' := hs
    cases e with
    | accept w =>
      simp only [step, Option.ite_none_right_eq_some, Option.some.injEq] at hs
      obtain ⟨-, rfl⟩ := hs
      constructor
      intro a t ht
      obtain ⟨y, hy, hya, hyh⟩ := h.registry a t ht
      obtain ⟨hy, halive⟩ := lock_eq_some.1 hy
      exact ⟨y, lock_eq_some.2 ⟨Slots.getElem?_append_of_some hy, halive⟩, hya, hyh⟩
    | handshake i remote cn =>
      obtain ⟨x, hx, rfl⟩ := Option.map_eq_some_iff.1 hs
      obtain ⟨-, hx, hp⟩ := waiting_eq_some hx
      exact h.onHandshake hx hp remote cn
    | handshakeFailed i =>
      obtain ⟨x, hx, rfl⟩ := Option.map_eq_some_iff.1 hs
      obtain ⟨-, hx, -⟩ := waiting_eq_some hx
      exact h.release hx rfl fun hn => by cases hn
    | read i bytes =>
      obtain ⟨x, -, hx, hr, rfl⟩ := read_eq_some hs
      exact h.of_frame (onRead_frame hx hr bytes)
    | readFailed i =>
      obtain ⟨x, hx, rfl⟩ := Option.map_eq_some_iff.1 hs
      obtain ⟨-, hx, -⟩ := waiting_eq_some hx
      exact h.release hx rfl fun hn => hn
    | wrote i =>
      obtain ⟨x, hx, rfl⟩ := Option.map_eq_some_iff.1 hs
      obtain ⟨-, hx, -⟩ := waiting_eq_some hx
      have hc := Session.doWrite_conn { x with writes := x.writes.tail }
      simp only [Session.conn, Session.Conn.mk.injEq] at hc
      refine h.release hx hc.1 fun hn => ?_
      rw [← hc.2.2.1]
      exact hn
    | writeFailed i =>
      obtain ⟨x, hx, rfl⟩ := Option.map_eq_some_iff.1 hs
      obtain ⟨-, hx, -⟩ := waiting_eq_some hx
      exact h.release hx rfl fun hn => hn

/-! ## What a message does -/

/-- The session that a `SEND_MSG` is for. -/
def target (s : Server) (m : Message) : Option Nat :=
  if m.type = .sendMsg then s.registry.find? m.dst else none

/-- `front()` is taken of these. -/
def HasNames (s : Server) (i t : Nat) : Prop := s.getCommonName i ≠ [] ∧ s.getCommonName t ≠ []

instance (s : Server) (i t : Nat) : Decidable (s.HasNames i t) :=
  inferInstanceAs (Decidable (_ ∧ _))

/-- The `PEER_MSG` that session `t` gets for `m`. -/
def peerMsg (s : Server) (i t : Nat) (m : Message) : Message :=
  { Message.createMessage .peerMsg m.bytes with
    src := (s.getCommonName i).headD [], dst := (s.getCommonName t).headD [] }

/-- What handling `m` for session `i` does, and what it throws. -/
inductive Handling (env : Libs Obj) (s : Server) (i : Nat) (m : Message) :
    Server → Option Exc → Prop
  | routed (t : Nat) : s.target m = some t → s.HasNames i t → m.type ≠ .listPeers →
      Handling env s i m (s.writeMessage t (s.peerMsg i t m)) none
  | nameless (t : Nat) : s.target m = some t → ¬ s.HasNames i t → m.type ≠ .listPeers →
      Handling env s i m s (some .emptyFront)
  | replied (r : Message) : s.target m = none → r.type ≠ .peerMsg →
      (m.type = .listPeers → s.Dumpable env) → Handling env s i m (s.writeMessage i r) none
  | unlistable : s.target m = none → m.type = .listPeers → ¬ s.Dumpable env →
      Handling env s i m s (some .jsonTypeError)
  | ignored : s.target m = none → m.type ≠ .listPeers → Handling env s i m s none

theorem getCommonName_of_lock (h : s.lock t = some x) : s.getCommonName t = x.cn := by
  unfold Server.getCommonName
  rw [(lock_eq_some.1 h).1]
  rfl

theorem handling {o : Option Exc} (h : Inv s) (he : s.handleMessage env i m = (s', o)) :
    Handling env s i m s' o := by
  obtain ⟨rfl, rfl⟩ : (s.handleMessage env i m).1 = s' ∧ (s.handleMessage env i m).2 = o := by
    rw [he]
    exact ⟨rfl, rfl⟩
  have hother : m.type ≠ .sendMsg → s.target m = none := fun hm => if_neg hm
  unfold handleMessage
  split
  · rename_i hm
    exact .replied _ (hother (by simp [hm])) (by simp [Message.createMessage]) (by simp [hm])
  · rename_i hm
    have htarget : s.target m = s.registry.find? m.dst := if_pos hm
    split
    · rename_i hf
      exact .ignored (htarget.trans hf) (by simp [hm])
    · rename_i t hf
      obtain ⟨ptr, hptr, -⟩ := h.registry _ t hf
      rw [hptr]
      simp only
      have hcn := getCommonName_of_lock hptr
      split
      · rename_i src dst hsrc hdst
        have hnames : s.HasNames i t := by
          constructor
          · intro hn
            rw [hn] at hsrc
            cases hsrc
          · intro hn
            rw [← hcn, hn] at hdst
            cases hdst
        have hmsg : { Message.createMessage .peerMsg m.bytes with src := src, dst := dst } =
            s.peerMsg i t m := by
          unfold peerMsg
          rw [List.headD_eq_head?_getD, List.headD_eq_head?_getD, hsrc, hcn, hdst]
          rfl
        rw [hmsg]
        exact .routed t (htarget.trans hf) hnames (by simp [hm])
      · rename_i hnone
        refine .nameless t (htarget.trans hf) (fun hn => ?_) (by simp [hm])
        obtain ⟨src, hsrc⟩ := Option.isSome_iff_exists.1 (List.isSome_head?.2 hn.1)
        obtain ⟨dst, hdst⟩ := Option.isSome_iff_exists.1 (List.isSome_head?.2 hn.2)
        rw [hcn] at hdst
        exact hnone src dst hsrc hdst
  · rename_i hm
    have htarget := hother (by simp [hm])
    unfold jsonDump
    by_cases hd : s.Dumpable env
    · rw [if_pos hd]
      exact .replied _ htarget (by simp [Message.createMessage]) fun _ => hd
    · rw [if_neg hd]
      exact .unlistable htarget hm hd
  · rename_i h1 h2 h3
    exact .ignored (hother h2) h3

theorem Frame.target (h : Frame s s') (m : Message) : s'.target m = s.target m := by
  unfold Server.target
  rw [h.registry]

theorem Frame.hasNames (h : Frame s s') (i t : Nat) : s'.HasNames i t ↔ s.HasNames i t := by
  unfold HasNames
  rw [h.getCommonName, h.getCommonName]

end Server

/-! ## A few sessions -/

/-- `{"addr":{"CommonName":["A","B"]}}`, for texts without quotes. -/
def smallDump (listing : List (Bytes × List Bytes)) : Bytes :=
  let text (b : Bytes) : Bytes := [34] ++ b ++ [34]
  let commas (l : List Bytes) : Bytes := (l.intersperse [44]).flatten
  let entry (e : Bytes × List Bytes) : Bytes :=
    text e.1 ++ [58, 123] ++ text [67, 111, 109, 109, 111, 110, 78, 97, 109, 101] ++ [58, 91] ++
      commas (e.2.map text) ++ [93, 125]
  if listing = [] then [110, 117, 108, 108] else [123] ++ commas (listing.map entry) ++ [125]

/-- msgpack for the small messages, and texts of ASCII characters. -/
def smallLibs : Libs (Option Message) where
  mp := smallMsgpack
  validUtf8 b := b.all (· < 128)
  dump := smallDump

/-- Two clients, at `1.1.1.1:1` and `1.1.1.1:2`, with these common names. -/
def twoClients (cn cn' : List Bytes) : List Server.Event :=
  [.accept false, .handshake 0 (some ([49, 46, 49, 46, 49, 46, 49], 1)) cn,
    .accept false, .handshake 1 (some ([49, 46, 49, 46, 49, 46, 49], 2)) cn']

end ShadowTalk.Whisper
