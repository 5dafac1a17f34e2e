import ShadowTalk.Core.Slots
import ShadowTalk.Ws.SessionTable

/-!
# The coroutines of the WebSocket server

One `do_session` for each session, and it waits in `async_accept`, in `async_read` or in
`async_write`; whose turn it is, the `io_context` decides. What `Feed` or `remote_endpoint`
throws leaves `io_context::run`, and with it `main`; nothing catches it.

* `next_follows`, `onRead_follows`: the loop over the messages answers one after the other,
  or is stuck.
* `Linked`: a coroutine that has not returned has a live session.
* `System.step_halts`: what ends the process.
* `answers_exact`: every session writes the answers to the messages of its stream, in order
  and however the stream was cut; when it waits for more, all are written.
-/
namespace ShadowTalk.Ws
open ShadowTalk.Core
open ShadowTalk.Sml (Asio IpEndpoint Ipv4 asioV4)
open ShadowTalk.Whisper (Exc Message MessageCtx Msgpack feed_ok feed_error scan_of_not_fails
  scan_of_fails)

/-! ## One coroutine -/

/-- Where a coroutine waits. -/
inductive Stage where
  /-- the session is not yet owned, and `Start` not yet called -/
  | made
  | accept
  | read
  /-- `reply` is being written; the messages in `lst` are next -/
  | write (reply : Message) (lst : List Message)
  | returned
  deriving DecidableEq

namespace Stage

def reply : Stage → Option Message
  | .write reply _ => some reply
  | _ => none

def lst : Stage → List Message
  | .write _ lst => lst
  | _ => []

end Stage

/-- What `main` is left with. `noReturn` is the undefined behaviour of a function that ends
without its `return`. -/
inductive Halt where
  | exc (e : Exc)
  | noReturn
  deriving DecidableEq

/-- `ctx_` of a session and its coroutine. `stream` is what was read, and `replies` are the
replies whose write has completed; both are ghosts.
mirrors ws/WebSocket.cpp:63-65, 85-136 -/
structure DoSession where
  ctx : MessageCtx
  stage : Stage
  stream : Bytes
  replies : List Message
  deriving DecidableEq

namespace DoSession

def new : DoSession := ⟨⟨[]⟩, .made, [], []⟩

/-- The coroutine returns, after `closed` or an error. -/
def finish (c : DoSession) : DoSession := { c with stage := .returned }

section
variable {Addr : Type} [DecidableEq Addr] {Obj : Type} (mp : Msgpack Obj) (asio : Asio Addr)
  (sv : Server Addr)

/-- The loop over `lst`, up to the next `async_write` or the next `async_read`. At its end
the remote endpoint is printed, which throws if the socket is not `connected`.
mirrors ws/WebSocket.cpp:123-134, 159-163 -/
def next (c : DoSession) (connected : Bool) : List Message → Except Halt DoSession
  | [] => if connected then .ok { c with stage := .read } else .error (.exc .systemError)
  | m :: lst =>
    match sv.handleMessage asio m with
    | none => .error .noReturn
    | some reply => .ok { c with stage := .write reply lst }

/-- `async_read` returns with a message of these bytes.
mirrors ws/WebSocket.cpp:119-121 -/
def onRead (c : DoSession) (bytes : Bytes) (connected : Bool) : Except Halt DoSession :=
  match c.ctx.feed mp bytes with
  | (_, .error e) => .error (.exc e)
  | (ctx, .ok ms) => next asio sv { c with ctx := ctx, stream := c.stream ++ bytes } connected ms

/-- `async_write` returns without an error. -/
def onWrote (c : DoSession) (connected : Bool) : Except Halt DoSession :=
  next asio sv { c with replies := c.replies ++ c.stage.reply.toList } connected c.stage.lst

end
end DoSession

/-! ## What is answered -/

/-- The answer to a message, whatever the table. -/
def answer (m : Message) : Option Message :=
  match m.type with
  | .pong | .listPeers => some (.createMessage .pong [])
  | .sendMsg | .wantToConnect => none
  | _ => some .new

section
variable {Addr : Type} [DecidableEq Addr] {Obj : Type} {mp : Msgpack Obj} {asio : Asio Addr}
  {sv : Server Addr} {c c' : DoSession} {ms done : List Message} {connected : Bool}

theorem handleMessage_eq (asio : Asio Addr) (sv : Server Addr) (m : Message) :
    sv.handleMessage asio m = answer m := by
  unfold Server.handleMessage answer
  cases m.type <;> rfl

/-- The answers to the messages of the stream are being written. -/
structure Follows (mp : Msgpack Obj) (c : DoSession) : Prop where
  scan : mp.messageUnpacker.scan c.stream = (mp.messages c.stream, some c.ctx.unp)
  answered : c.stage ≠ .returned → ∃ done, mp.messages c.stream = done ++ c.stage.lst ∧
    (c.replies ++ c.stage.reply.toList).map some = done.map answer

/-- What was written are answers. -/
def Answers (mp : Msgpack Obj) (c : DoSession) : Prop :=
  c.replies.map some <+: (mp.messages c.stream).map answer

theorem Follows.answers (h : Follows mp c) (hs : c.stage ≠ .returned) : Answers mp c := by
  obtain ⟨done, hm, hr⟩ := h.answered hs
  rw [Answers, hm, List.map_append, ← hr, List.map_append, List.append_assoc]
  exact List.prefix_append _ _

theorem Follows.replies_eq (h : Follows mp c) (hs : c.stage = .read) :
    c.replies.map some = (mp.messages c.stream).map answer := by
  obtain ⟨done, hm, hr⟩ := h.answered (by simp [hs])
  simp only [hs, Stage.lst, Stage.reply, Option.toList_none, List.append_nil] at hm hr
  rw [hm, hr]

theorem follows_new : Follows mp .new where
  scan := by simp [DoSession.new, Msgpack.messages]
  answered _ := ⟨[], by simp [DoSession.new, Msgpack.messages, Stage.lst, Stage.reply]⟩

/-- With `n` answers written, message number `n` of the stream has none; or there is no such
message, and the socket is not connected any more. -/
def Stuck (mp : Msgpack Obj) (S : Bytes) (n : Nat) (connected : Bool) : Prop :=
  (mp.messages S)[n]?.map answer = some none ∨
    (mp.messages S).length ≤ n ∧ connected = false

/-- The loop starts the next write, or it is stuck. -/
theorem next_follows (asio : Asio Addr) (sv : Server Addr) (connected : Bool)
    (hscan : mp.messageUnpacker.scan c.stream = (mp.messages c.stream, some c.ctx.unp))
    (hm : mp.messages c.stream = done ++ ms) (hr : c.replies.map some = done.map answer) :
    (∃ st, c.next asio sv connected ms = .ok { c with stage := st } ∧ st ≠ .made ∧
        st ≠ .returned ∧ Follows mp { c with stage := st } ∧
        ¬ Stuck mp c.stream c.replies.length connected) ∨
      (∃ x, c.next asio sv connected ms = .error x) ∧
        Stuck mp c.stream c.replies.length connected := by
  have hlen : c.replies.length = done.length := by simpa using congrArg List.length hr
  unfold Stuck
  rw [hm, hlen]
  cases ms with
  | nil =>
    simp only [List.append_nil] at hm
    cases connected with
    | true =>
      refine .inl ⟨.read, rfl, by simp, by simp, ⟨hscan, fun _ => ⟨done, ?_, ?_⟩⟩, by simp⟩
      · simpa [Stage.lst] using hm
      · simpa [Stage.reply] using hr
    | false => exact .inr ⟨⟨_, rfl⟩, by simp⟩
  | cons m lst =>
    unfold DoSession.next
    simp only [handleMessage_eq]
    cases ha : answer m with
    | none => exact .inr ⟨⟨_, rfl⟩, by simp [ha]⟩
    | some reply =>
      refine .inl ⟨.write reply lst, rfl, by simp, by simp,
        ⟨hscan, fun _ => ⟨done ++ [m], ?_, ?_⟩⟩, by simp [ha]⟩
      · simpa [Stage.lst] using hm
      · simp [Stage.reply, hr, ha]

theorem onRead_follows (asio : Asio Addr) (sv : Server Addr) (h : Follows mp c)
    (hs : c.stage = .read) (bytes : Bytes) (connected : Bool) :
    (∃ c', c.onRead mp asio sv bytes connected = .ok c' ∧ c'.stage ≠ .made ∧
        c'.stage ≠ .returned ∧ Follows mp c' ∧ ¬ mp.Fails (c.stream ++ bytes) ∧
        ¬ Stuck mp (c.stream ++ bytes) c.replies.length connected) ∨
      (∃ x, c.onRead mp asio sv bytes connected = .error x) ∧
        (mp.Fails (c.stream ++ bytes) ∨
          Stuck mp (c.stream ++ bytes) c.replies.length connected) := by
  have happ := Unpacker.scan_append h.scan bytes
  unfold DoSession.onRead
  by_cases hf : mp.Fails (c.stream ++ bytes)
  · rw [scan_of_fails hf, Prod.mk.injEq] at happ
    obtain ⟨ctx, x, he, -⟩ := feed_error c.ctx (Prod.ext rfl happ.2.symm)
    rw [he]
    exact .inr ⟨⟨_, rfl⟩, .inl hf⟩
  · obtain ⟨r, hscan⟩ := scan_of_not_fails hf
    rw [hscan, Prod.mk.injEq] at happ
    rw [feed_ok c.ctx (Prod.ext rfl happ.2.symm)]
    rcases next_follows asio sv connected
      (c := { c with ctx := ⟨r⟩, stream := c.stream ++ bytes }) hscan happ.1 (h.replies_eq hs) with
      ⟨st, he, hmade, hret, hf', hstuck⟩ | ⟨hx, hstuck⟩
    · exact .inl ⟨_, he, hmade, hret, hf', hf, hstuck⟩
    · exact .inr ⟨hx, .inr hstuck⟩

theorem onWrote_follows {reply : Message} {lst : List Message} (asio : Asio Addr)
    (sv : Server Addr) (h : Follows mp c) (hs : c.stage = .write reply lst) (connected : Bool) :
    (∃ c', c.onWrote asio sv connected = .ok c' ∧ c'.stage ≠ .made ∧ c'.stage ≠ .returned ∧
        Follows mp c' ∧ ¬ Stuck mp c.stream (c.replies.length + 1) connected) ∨
      (∃ x, c.onWrote asio sv connected = .error x) ∧
        Stuck mp c.stream (c.replies.length + 1) connected := by
  obtain ⟨done, hm, hr⟩ := h.answered (by simp [hs])
  have hlen : (c.replies ++ c.stage.reply.toList).length = c.replies.length + 1 := by
    simp [hs, Stage.reply]
  rcases next_follows asio sv connected
    (c := { c with replies := c.replies ++ c.stage.reply.toList }) h.scan hm hr with
    ⟨st, he, hmade, hret, hf, hstuck⟩ | ⟨hx, hstuck⟩
  · rw [hlen] at hstuck
    exact .inl ⟨_, he, hmade, hret, hf, hstuck⟩
  · rw [hlen] at hstuck
    exact .inr ⟨hx, hstuck⟩

end

/-! ## The process -/

/-- `doSessions` has the coroutine of session `i` at place `i`.
mirrors ws/WebSocket.cpp:183-239 -/
structure System (Addr : Type) [DecidableEq Addr] where
  server : Server Addr
  doSessions : List DoSession
  halt : Option Halt

inductive Label (Addr : Type) where
  /-- a session is made, owned or let go -/
  | session (e : Event Addr)
  /-- the handshake of session `i` ends -/
  | accepted (i : Nat) (ok : Bool)
  | read (i : Nat) (bytes : Bytes) (connected : Bool)
  /-- the session was closed, or there is an error -/
  | readFailed (i : Nat)
  | wrote (i : Nat) (connected : Bool)
  | writeFailed (i : Nat)

namespace System

variable {Addr : Type} [DecidableEq Addr]

def start : System Addr := ⟨.start, [], none⟩

/-- The process is still there. -/
def Running (s : System Addr) : Prop := s.halt = none ∧ s.server.terminated = false

instance (s : System Addr) : Decidable s.Running := inferInstanceAs (Decidable (_ ∧ _))

/-- Coroutine `i`, waiting as `p` says, goes on. -/
def resume (s : System Addr) (i : Nat) (p : DoSession → Bool)
    (f : DoSession → Except Halt DoSession) : Option (System Addr) :=
  (s.doSessions[i]?.filter p).map fun c =>
    match f c with
    | .ok c' => { s with doSessions := s.doSessions.set i c' }
    | .error x => { s with halt := some x }

/-- A session is let go when its coroutine has returned, which holds a pointer to it. -/
def step {Obj : Type} (mp : Msgpack Obj) (asio : Asio Addr) (s : System Addr) :
    Label Addr → Option (System Addr)
  | .session (.construct endp) =>
    if s.Running then
      (Ws.step asio s.server (.construct endp)).map fun sv =>
        { s with server := sv, doSessions := s.doSessions ++ [.new] }
    else none
  | .session (.own i) =>
    if s.Running then
      (Ws.step asio s.server (.own i)).map fun sv =>
        { s with
          server := sv
          doSessions := s.doSessions.modify i fun c => { c with stage := .accept } }
    else none
  | .session (.destroy i) =>
    if s.Running ∧ (s.doSessions[i]?.map (·.stage)) = some .returned then
      (Ws.step asio s.server (.destroy i)).map fun sv => { s with server := sv }
    else none
  | .accepted i ok =>
    if s.Running then
      s.resume i (·.stage = .accept) fun c =>
        .ok (if ok then { c with stage := .read } else c.finish)
    else none
  | .read i bytes connected =>
    if s.Running then s.resume i (·.stage = .read) (·.onRead mp asio s.server bytes connected)
    else none
  | .readFailed i =>
    if s.Running then s.resume i (·.stage = .read) fun c => .ok c.finish else none
  | .wrote i connected =>
    if s.Running then s.resume i (·.stage.reply.isSome) (·.onWrote asio s.server connected)
    else none
  | .writeFailed i =>
    if s.Running then s.resume i (·.stage.reply.isSome) fun c => .ok c.finish else none

def lts {Obj : Type} (mp : Msgpack Obj) (asio : Asio Addr) : LTS (System Addr) (Label Addr) :=
  .ofFn (· = start) (step mp asio)

section
variable {Obj : Type} (mp : Msgpack Obj) (asio : Asio Addr)

/-- The steps with which the process ends: a connection that is not from an IPv4 address,
bytes with which a stream fails, and whatever brings a session to where it is stuck. -/
def Halts (s : System Addr) : Label Addr → Prop
  | .session (.construct endp) => asio.isV4 endp.address = false
  | .read i bytes connected => ∃ c, s.doSessions[i]? = some c ∧
      (mp.Fails (c.stream ++ bytes) ∨ Stuck mp (c.stream ++ bytes) c.replies.length connected)
  | .wrote i connected => ∃ c, s.doSessions[i]? = some c ∧
      Stuck mp c.stream (c.replies.length + 1) connected
  | _ => False

end

/-- Each coroutine has a session, until it has returned; the session is not owned as long as
its coroutine has not started. -/
structure Linked (s : System Addr) : Prop where
  length : s.doSessions.length = s.server.made
  nodup : (s.server.sessions.map Session.id).Nodup
  below : ∀ x ∈ s.server.sessions, x.id < s.server.made
  live : ∀ (i : Nat) c, s.doSessions[i]? = some c → c.stage ≠ .returned →
    ∃ x ∈ s.server.sessions, x.id = i
  owned : ∀ x ∈ s.server.sessions, ∀ c, s.doSessions[x.id]? = some c →
    (x.weakThis = none ↔ c.stage = .made)

structure Inv {Obj : Type} (mp : Msgpack Obj) (s : System Addr) : Prop where
  table : Ws.Inv s.server
  answers : ∀ (i : Nat) c, s.doSessions[i]? = some c → Answers mp c
  follows : s.Running → ∀ (i : Nat) c, s.doSessions[i]? = some c → Follows mp c
  linked : s.Running → s.Linked

variable {Obj : Type} {mp : Msgpack Obj} {asio : Asio Addr} {s s' : System Addr} {i : Nat}
  {c c' : DoSession} {l : Label Addr}

/-- What a step of a coroutine has to keep. -/
structure Goes (mp : Msgpack Obj) (c c' : DoSession) : Prop where
  waits : c.stage ≠ .made ∧ c.stage ≠ .returned
  made : c'.stage ≠ .made
  follows : Follows mp c'
  answers : Answers mp c'

theorem Inv.set (h : Inv mp s) (hrun : s.Running) (hc : s.doSessions[i]? = some c)
    (hg : Goes mp c c') : Inv mp { s with doSessions := s.doSessions.set i c' } := by
  have hlen := (List.getElem?_eq_some_iff.1 hc).1
  have hget : ∀ k d, (s.doSessions.set i c')[k]? = some d →
      i = k ∧ d = c' ∨ i ≠ k ∧ s.doSessions[k]? = some d := by
    intro k d hd
    by_cases hk : i = k
    · subst hk
      rw [List.getElem?_set_self hlen, Option.some.injEq] at hd
      exact .inl ⟨rfl, hd.symm⟩
    · rw [List.getElem?_set_ne hk] at hd
      exact .inr ⟨hk, hd⟩
  have hl := h.linked hrun
  refine ⟨h.table, fun k d hd => ?_, fun _ k d hd => ?_, fun _ => ⟨?_, hl.nodup, hl.below,
    fun k d hd hr => ?_, fun x hx d hd => ?_⟩⟩
  · rcases hget k d hd with ⟨-, rfl⟩ | ⟨-, hd⟩
    · exact hg.answers
    · exact h.answers k d hd
  · rcases hget k d hd with ⟨-, rfl⟩ | ⟨-, hd⟩
    · exact hg.follows
    · exact h.follows hrun k d hd
  · exact (List.length_set).trans hl.length
  · rcases hget k d hd with ⟨rfl, -⟩ | ⟨-, hd⟩
    · exact hl.live i c hc hg.waits.2
    · exact hl.live k d hd hr
  · rcases hget x.id d hd with ⟨he, rfl⟩ | ⟨-, hd⟩
    · subst he
      have hnot := mt (hl.owned x hx c hc).1 hg.waits.1
      exact iff_of_false hnot hg.made
    · exact hl.owned x hx d hd

/-- The process ends; nothing is written any more. -/
theorem Inv.halted (h : Inv mp s) (x : Halt) : Inv mp { s with halt := some x } where
  table := h.table
  answers := h.answers
  follows hrun := absurd hrun.1 (by simp)
  linked hrun := absurd hrun.1 (by simp)

/-- A step of a coroutine, given what it does. -/
theorem Inv.resume {p : DoSession → Bool} {f : DoSession → Except Halt DoSession} {P : Prop}
    (h : Inv mp s) (hrun : s.Running)
    (hf : ∀ c, s.doSessions[i]? = some c → p c = true → Follows mp c →
      (∃ c', f c = .ok c' ∧ Goes mp c c' ∧ ¬ P) ∨ (∃ x, f c = .error x) ∧ P)
    (hs : s.resume i p f = some s') : Inv mp s' ∧ (¬ s'.Running ↔ P) := by
  obtain ⟨c, hc, rfl⟩ := Option.map_eq_some_iff.1 hs
  rw [Option.filter_eq_some_iff] at hc
  rcases hf c hc.1 hc.2 (h.follows hrun i c hc.1) with ⟨c', he, hg, hP⟩ | ⟨⟨x, he⟩, hP⟩
  · rw [he]
    exact ⟨h.set hrun hc.1 hg, iff_of_false (not_not.2 hrun) hP⟩
  · rw [he]
    exact ⟨h.halted x, iff_of_true (fun hr => absurd hr.1 (by simp)) hP⟩

/-! ## Sessions come and go -/

theorem Linked.construct (h : s.Linked) {endp : IpEndpoint Addr}
    (hv : asio.isV4 endp.address = true) :
    Linked { s with
      server := s.server.construct asio endp
      doSessions := s.doSessions ++ [.new] } := by
  have hsv : s.server.construct asio endp = { s.server with
      sessions := s.server.sessions ++ [⟨s.server.made, endp, none⟩]
      made := s.server.made + 1
      sessionTable := emplace s.server.sessionTable endp none } := by
    unfold Server.construct
    rw [if_pos hv]
    rfl
  rw [hsv]
  have hlen := h.length
  refine ⟨by simp [hlen], ?_, fun x hx => ?_, fun i c hc hr => ?_, fun x hx c hc => ?_⟩
  · rw [List.map_append, List.map_singleton, List.nodup_append]
    refine ⟨h.nodup, List.nodup_singleton _, ?_⟩
    simp only [List.mem_map, List.mem_singleton, ne_eq]
    rintro _ ⟨x, hx, rfl⟩ _ rfl
    exact Nat.ne_of_lt (h.below x hx)
  · rcases List.mem_append.1 hx with hx | hx
    · exact Nat.lt_succ_of_lt (h.below x hx)
    · rw [List.mem_singleton.1 hx]
      exact Nat.lt_succ_self _
  · rcases Nat.lt_or_ge i s.doSessions.length with hi | hi
    · rw [List.getElem?_append_left hi] at hc
      obtain ⟨x, hx, hid⟩ := h.live i c hc hr
      exact ⟨x, List.mem_append_left _ hx, hid⟩
    · have hlt := (List.getElem?_eq_some_iff.1 hc).1
      simp only [List.length_append, List.length_singleton] at hlt
      exact ⟨_, List.mem_append_right _ (List.mem_singleton.2 rfl), by simp; omega⟩
  · rcases List.mem_append.1 hx with hx | hx
    · have hlt := h.below x hx
      rw [List.getElem?_append_left (by omega)] at hc
      exact h.owned x hx c hc
    · rw [List.mem_singleton.1 hx] at hc ⊢
      simp only [← hlen, List.getElem?_concat_length, Option.some.injEq] at hc
      simp [← hc, DoSession.new]

theorem own_id (sv : Server Addr) (i : Nat) :
    (sv.own i).sessions.map Session.id = sv.sessions.map Session.id := by
  rw [Server.own, List.map_map]
  refine List.map_congr_left fun x _ => ?_
  simp only [Function.comp]
  split <;> rfl

theorem Linked.own (h : s.Linked) (hc : s.doSessions[i]? = some c) (hs : c.stage = .made) :
    Linked { s with
      server := s.server.own i
      doSessions := s.doSessions.modify i fun c => { c with stage := .accept } } := by
  have hmem : ∀ y ∈ (s.server.own i).sessions, ∃ x ∈ s.server.sessions, x.id = y.id ∧
      y.weakThis = if x.id = i then some i else x.weakThis := by
    intro y hy
    obtain ⟨x, hx, rfl⟩ := List.mem_map.1 hy
    refine ⟨x, hx, ?_⟩
    split <;> simp
  refine ⟨by simpa [Server.own] using h.length, by simpa [own_id] using h.nodup, fun y hy => ?_,
    fun k d hd hr => ?_, fun y hy d hd => ?_⟩
  · obtain ⟨x, hx, he, -⟩ := hmem y hy
    exact he ▸ h.below x hx
  · obtain ⟨d', hd', rfl⟩ := Slots.getElem?_modify_some hd
    have hlive : ∃ x ∈ s.server.sessions, x.id = k := by
      by_cases hk : i = k
      · subst hk
        exact h.live i c hc (by simp [hs])
      · rw [if_neg hk] at hr
        exact h.live k d' hd' hr
    obtain ⟨x, hx, hid⟩ := hlive
    have hin : k ∈ (s.server.own i).sessions.map Session.id := by
      rw [own_id]
      exact List.mem_map.2 ⟨x, hx, hid⟩
    exact List.mem_map.1 hin
  · obtain ⟨x, hx, he, hw⟩ := hmem y hy
    obtain ⟨d', hd', rfl⟩ := Slots.getElem?_modify_some hd
    rw [hw, ← he]
    rw [← he] at hd'
    by_cases hk : x.id = i
    · simp [hk]
    · rw [if_neg hk, if_neg (Ne.symm hk)]
      exact h.owned x hx d' hd'

theorem Linked.destroy (h : s.Linked) {x : Session Addr}
    (hc : s.doSessions[x.id]?.map (·.stage) = some .returned) :
    Linked { s with server := s.server.destroy x } where
  length := h.length
  nodup := h.nodup.sublist (List.erase_sublist.map _)
  below y hy := h.below y (List.mem_of_mem_erase hy)
  live k d hd hr := by
    obtain ⟨y, hy, rfl⟩ := h.live k d hd hr
    refine ⟨y, (List.mem_erase_of_ne fun he => ?_).2 hy, rfl⟩
    rw [← he, hd, Option.map_some, Option.some.injEq] at hc
    exact hr hc
  owned y hy := h.owned y (List.mem_of_mem_erase hy)

/-! ## Every step -/

theorem follows_stage {st : Stage} (h : Follows mp c) (hs : c.stage ≠ .returned)
    (hl : st.lst = c.stage.lst) (hr : st.reply = c.stage.reply) :
    Follows mp { c with stage := st } where
  scan := h.scan
  answered _ := by
    rw [hl, hr]
    exact h.answered hs

/-- A coroutine that returns has written what it has. -/
theorem goes_finish (h : Follows mp c) (hw : c.stage ≠ .made ∧ c.stage ≠ .returned) :
    Goes mp c c.finish where
  waits := hw
  made := by simp [DoSession.finish]
  follows := ⟨h.scan, fun hr => absurd rfl hr⟩
  answers := h.answers hw.2

theorem step_session {e : Event Addr} (h : Inv mp s)
    (hs : s.step mp asio (.session e) = some s') :
    Inv mp s' ∧ (¬ s'.Running ↔ s.Halts mp asio (.session e)) := by
  cases e with
  | construct endp =>
    simp only [step, Option.ite_none_right_eq_some] at hs
    obtain ⟨hrun, hs⟩ := hs
    obtain ⟨sv, hsv, rfl⟩ := Option.map_eq_some_iff.1 hs
    have htable := (Ws.inv_inductive asio).step s.server _ sv h.table hsv
    have hget : ∀ (k : Nat) d, (s.doSessions ++ [.new])[k]? = some d →
        s.doSessions[k]? = some d ∨ d = .new := by
      intro k d hd
      rcases Nat.lt_or_ge k s.doSessions.length with hk | hk
      · exact .inl (by rwa [List.getElem?_append_left hk] at hd)
      · have hmem := List.mem_of_getElem? hd
        rw [List.getElem?_append_right hk] at hd
        exact .inr (List.mem_singleton.1 (List.mem_of_getElem? hd))
    simp only [Ws.step, hrun.2, Bool.false_eq_true, if_false, Option.ite_none_left_eq_some,
      Option.some.injEq] at hsv
    obtain ⟨-, rfl⟩ := hsv
    refine ⟨⟨htable, fun k d hd => ?_, fun _ k d hd => ?_, fun hrun' => ?_⟩, ?_⟩
    · rcases hget k d hd with hd | rfl
      · exact h.answers k d hd
      · exact follows_new.answers (by simp [DoSession.new])
    · rcases hget k d hd with hd | rfl
      · exact h.follows hrun k d hd
      · exact follows_new
    · refine (h.linked hrun).construct ?_
      by_contra hv
      simp [System.Running, Server.construct, hv] at hrun'
    · unfold Server.construct System.Running Halts
      cases hv : asio.isV4 endp.address <;> simp [hrun.1, hrun.2, hv]
  | own i =>
    simp only [step, Option.ite_none_right_eq_some] at hs
    obtain ⟨hrun, hs⟩ := hs
    obtain ⟨sv, hsv, rfl⟩ := Option.map_eq_some_iff.1 hs
    have htable := (Ws.inv_inductive asio).step s.server _ sv h.table hsv
    have hl := h.linked hrun
    simp only [Ws.step, hrun.2, Bool.false_eq_true, if_false, Option.map_eq_some_iff] at hsv
    obtain ⟨x, hx, rfl⟩ := hsv
    have hmem := List.mem_of_find?_eq_some hx
    have hp : x.id = i ∧ x.weakThis = none := by simpa using List.find?_some hx
    obtain ⟨rfl, hw⟩ := hp
    have hlt : x.id < s.doSessions.length := by
      rw [hl.length]
      exact hl.below x hmem
    have hmade := (hl.owned x hmem _ (List.getElem?_eq_getElem hlt)).1 hw
    have hstays : ∀ (k : Nat) d,
        (s.doSessions.modify x.id fun c => { c with stage := .accept })[k]? = some d →
        Follows mp d := by
      intro k d hd
      obtain ⟨d', hd', rfl⟩ := Slots.getElem?_modify_some hd
      have hf := h.follows hrun k d' hd'
      by_cases hk : x.id = k
      · subst hk
        rw [List.getElem?_eq_getElem hlt, Option.some.injEq] at hd'
        rw [← hd', if_pos rfl]
        rw [← hd'] at hf
        refine follows_stage hf (by simp [hmade]) ?_ ?_
        · rw [hmade]; rfl
        · rw [hmade]; rfl
      · rw [if_neg hk]
        exact hf
    refine ⟨⟨htable, fun k d hd => ?_, fun _ => hstays, fun _ => ?_⟩, ?_⟩
    · obtain ⟨d', hd', rfl⟩ := Slots.getElem?_modify_some hd
      have ha := h.answers k d' hd'
      split
      · exact ha
      · exact ha
    · exact hl.own (List.getElem?_eq_getElem hlt) hmade
    · exact iff_of_false (not_not.2 hrun) id
  | destroy i =>
    simp only [step, Option.ite_none_right_eq_some] at hs
    obtain ⟨⟨hrun, hret⟩, hs⟩ := hs
    obtain ⟨sv, hsv, rfl⟩ := Option.map_eq_some_iff.1 hs
    have htable := (Ws.inv_inductive asio).step s.server _ sv h.table hsv
    simp only [Ws.step, hrun.2, Bool.false_eq_true, if_false, Option.map_eq_some_iff] at hsv
    obtain ⟨x, hx, rfl⟩ := hsv
    have hp : x.id = i ∧ x.weakThis.isSome = true := by simpa using List.find?_some hx
    obtain ⟨rfl, -⟩ := hp
    refine ⟨⟨htable, h.answers, fun _ => h.follows hrun, fun _ => ?_⟩, ?_⟩
    · exact (h.linked hrun).destroy hret
    · exact iff_of_false (not_not.2 hrun) id

theorem step_coroutine (h : Inv mp s) (hs : s.step mp asio l = some s')
    (hl : ∀ e, l ≠ .session e) : Inv mp s' ∧ (¬ s'.Running ↔ s.Halts mp asio l) := by
  cases l with
  | session e => exact absurd rfl (hl e)
  | accepted i ok =>
    simp only [step, Option.ite_none_right_eq_some] at hs
    obtain ⟨hrun, hs⟩ := hs
    refine h.resume hrun (fun c hc hp hf => .inl ⟨_, rfl, ?_, id⟩) hs
    have hst : c.stage = .accept := by simpa using hp
    cases ok with
    | true =>
      have hf' : Follows mp { c with stage := .read } := by
        refine follows_stage hf (by simp [hst]) ?_ ?_
        · rw [hst]; rfl
        · rw [hst]; rfl
      exact ⟨by simp [hst], by simp, hf', hf'.answers (by simp)⟩
    | false => exact goes_finish hf (by simp [hst])
  | read i bytes connected =>
    simp only [step, Option.ite_none_right_eq_some] at hs
    obtain ⟨hrun, hs⟩ := hs
    refine h.resume hrun (fun c hc hp hf => ?_) hs
    have hst : c.stage = .read := by simpa using hp
    unfold Halts
    simp only [hc, Option.some.injEq, exists_eq_left']
    rcases onRead_follows asio s.server hf hst bytes connected with
      ⟨c', he, hmade, hret, hf', hnf, hns⟩ | ⟨hx, hP⟩
    · exact .inl ⟨c', he, ⟨by simp [hst], hmade, hf', hf'.answers hret⟩, not_or.2 ⟨hnf, hns⟩⟩
    · exact .inr ⟨hx, hP⟩
  | readFailed i =>
    simp only [step, Option.ite_none_right_eq_some] at hs
    obtain ⟨hrun, hs⟩ := hs
    refine h.resume hrun (fun c hc hp hf => .inl ⟨_, rfl, goes_finish hf ?_, id⟩) hs
    have hst : c.stage = .read := by simpa using hp
    simp [hst]
  | wrote i connected =>
    simp only [step, Option.ite_none_right_eq_some] at hs
    obtain ⟨hrun, hs⟩ := hs
    refine h.resume hrun (fun c hc hp hf => ?_) hs
    unfold Halts
    simp only [hc, Option.some.injEq, exists_eq_left']
    cases hst : c.stage with
    | write reply lst =>
      rcases onWrote_follows asio s.server hf hst connected with
        ⟨c', he, hmade, hret, hf', hns⟩ | ⟨hx, hP⟩
      · exact .inl ⟨c', he, ⟨by simp [hst], hmade, hf', hf'.answers hret⟩, hns⟩
      · exact .inr ⟨hx, hP⟩
    | made | accept | read | returned => simp [hst, Stage.reply] at hp
  | writeFailed i =>
    simp only [step, Option.ite_none_right_eq_some] at hs
    obtain ⟨hrun, hs⟩ := hs
    refine h.resume hrun (fun c hc hp hf => .inl ⟨_, rfl, goes_finish hf ?_, id⟩) hs
    cases hst : c.stage with
    | write reply lst => simp
    | made | accept | read | returned => simp [hst, Stage.reply] at hp

theorem step_halts (h : Inv mp s) (hs : s.step mp asio l = some s') :
    Inv mp s' ∧ (¬ s'.Running ↔ s.Halts mp asio l) := by
  by_cases hl : ∀ e, l ≠ .session e
  · exact step_coroutine h hs hl
  · simp only [ne_eq, not_forall, not_not] at hl
    obtain ⟨e, rfl⟩ := hl
    exact step_session h hs

theorem inv_inductive (mp : Msgpack Obj) (asio : Asio Addr) : (lts mp asio).Inductive (Inv mp) where
  init := forall_eq.2 ⟨(Ws.inv_inductive asio).init _ rfl, by simp [start], by simp [start],
    fun _ => ⟨rfl, .nil, by simp [start, Server.start], by simp [start],
      by simp [start, Server.start]⟩⟩
  step _ _ _ h hs := (step_halts h hs).1

/-- What is written to a client is an answer to each message of its stream, in order, up to
some message; a session that waits for bytes has answered them all, and one that has not
returned is alive and in the table. The process ends with the steps that halt it and no
others. -/
theorem answers_exact (mp : Msgpack Obj) (asio : Asio Addr) :
    (∀ s, (lts mp asio).Reachable s → ∀ (i : Nat) c, s.doSessions[i]? = some c →
      c.replies.map some <+: (mp.messages c.stream).map answer ∧
      (s.Running → c.stage = .read →
        c.replies.map some = (mp.messages c.stream).map answer) ∧
      (s.Running → c.stage ≠ .returned →
        ∃ x ∈ s.server.sessions, x.id = i ∧ x.endp ∈ s.server.sessionTable)) ∧
    ∀ s l s', (lts mp asio).Reachable s → (lts mp asio).step s l s' →
      (¬ s'.Running ↔ s.Halts mp asio l) := by
  have hinv := inv_inductive mp asio
  refine ⟨fun s hr i c hc => ⟨(hinv.reachable hr).answers i c hc, fun hrun hst => ?_,
    fun hrun hst => ?_⟩, fun s l s' hr hs => (step_halts (hinv.reachable hr) hs).2⟩
  · exact ((hinv.reachable hr).follows hrun i c hc).replies_eq hst
  · obtain ⟨x, hx, hid⟩ := ((hinv.reachable hr).linked hrun).live i c hc hst
    refine ⟨x, hx, hid, ?_⟩
    rw [AList.mem_keys, (hinv.reachable hr).table.keys.mem_iff]
    exact List.mem_map_of_mem hx

/-- One client sends a `PING` in two pieces and then asks for the peers. -/
def twoAnswersTrace : List (Label Ipv4) :=
  [.session (.construct ⟨(10, 0, 0, 1), 80⟩), .session (.own 0), .accepted 0 true,
    .read 0 (Whisper.pingBytes.take 3) true,
    .read 0 (Whisper.pingBytes.drop 3 ++ Whisper.listPeersBytes) true, .wrote 0 true, .wrote 0 true]

/-- Both are answered; then a byte that msgpack never uses ends the process. -/
theorem answers_exact_twoAnswersTrace : ∃ s s' c,
    (lts Whisper.smallMsgpack asioV4).Reachable s ∧ s.doSessions[0]? = some c ∧
    c.replies = [.new, .createMessage .pong []] ∧
    c.replies.map some = (Whisper.smallMsgpack.messages c.stream).map answer ∧
    (lts Whisper.smallMsgpack asioV4).step s (.read 0 [193] true) s' ∧ ¬ s'.Running := by
  have hrun : ∃ s, (lts Whisper.smallMsgpack asioV4).Reachable s ∧
      (s.Running ∧ (s.doSessions[0]?.any fun c =>
        c.stage = .read ∧ c.replies = [.new, .createMessage .pong []] ∧
        Whisper.smallMsgpack.Fails (c.stream ++ [193])) = true ∧
      (s.step Whisper.smallMsgpack asioV4 (.read 0 [193] true)).isSome = true) :=
    LTS.exists_reachable_of_exec twoAnswersTrace rfl (by decide +kernel)
  obtain ⟨s, hr, hrun, hany, hsome⟩ := hrun
  obtain ⟨c, hc, hp⟩ := (Option.any_eq_true _ _).1 hany
  simp only [decide_eq_true_eq] at hp
  obtain ⟨hst, hreplies, hfails⟩ := hp
  obtain ⟨s', hs'⟩ := Option.isSome_iff_exists.1 hsome
  obtain ⟨hall, hhalts⟩ := answers_exact Whisper.smallMsgpack asioV4
  exact ⟨s, s', c, hr, hc, hreplies, (hall s hr 0 c hc).2.1 hrun hst, hs',
    (hhalts s _ s' hr hs').2 ⟨c, hc, .inl hfails⟩⟩

end System
end ShadowTalk.Ws
