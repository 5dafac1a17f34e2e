import ShadowTalk.Core.LTS
import ShadowTalk.Sml.AddressLaws
import ShadowTalk.Whisper.MessageCtx
import Mathlib.Data.List.AList

/-!
# The session table of the WebSocket server

A session enters itself into the table in its constructor and leaves it in its destructor.
`make_shared` sets the pointer behind `weak_from_this` after the constructor has returned,
and other threads may run in between.

* `inv_inductive`: the endpoints in the table are those of the live sessions, and every
  `weak_ptr` in it is empty.
* `built_exact`: `handleLIST_PEERS` collects exactly the live sessions; it returns
  something else.
* `listed_iff`: so table and reply are what they should be exactly while no session is
  live.
* `not_listed`: one session.
-/
namespace ShadowTalk.Ws
open ShadowTalk.Core
open ShadowTalk.Sml (Asio IpEndpoint Ipv4 asioV4)
open ShadowTalk.Whisper (Message MessageType PeerAddr)

/-- An object in memory; `weakThis` is the pointer of `enable_shared_from_this`.
mirrors ws/WebSocket.cpp:57-65 -/
structure Session (Addr : Type) where
  id : Nat
  endp : IpEndpoint Addr
  weakThis : Option Nat
  deriving DecidableEq

/-- `weak_from_this()` -/
def Session.weakFromThis {Addr : Type} (x : Session Addr) : Option Nat := x.weakThis

/-- The live sessions, in the order they were made, and the table; `made` counts the objects
made so far. -/
structure Server (Addr : Type) [DecidableEq Addr] where
  sessions : List (Session Addr)
  made : Nat
  sessionTable : AList fun _ : IpEndpoint Addr => Option Nat
  terminated : Bool

section
variable {Addr : Type} [DecidableEq Addr]

/-- `unordered_map::emplace` -/
def emplace (t : AList fun _ : IpEndpoint Addr => Option Nat) (k : IpEndpoint Addr)
    (w : Option Nat) : AList fun _ : IpEndpoint Addr => Option Nat :=
  if k ∈ t then t else t.insert k w

namespace Server

def start : Server Addr := ⟨[], 0, ∅, false⟩

/-- `weak_ptr::lock` -/
def lock (s : Server Addr) (w : Option Nat) : Option Nat :=
  w.filter fun i => s.sessions.any fun x => x.id == i

/-- The hash of an endpoint calls `to_v4`, which throws for other addresses, and the
constructor is `noexcept`.
mirrors ws/WebSocket.cpp:43-48, 70-75 -/
def construct (asio : Asio Addr) (s : Server Addr) (endp : IpEndpoint Addr) : Server Addr :=
  if asio.isV4 endp.address then
    let x : Session Addr := ⟨s.made, endp, none⟩
    { s with
      sessions := s.sessions ++ [x]
      made := s.made + 1
      sessionTable := emplace s.sessionTable endp x.weakFromThis }
  else { s with sessions := [], sessionTable := ∅, terminated := true }

/-- The rest of `make_shared`. -/
def own (s : Server Addr) (i : Nat) : Server Addr :=
  { s with
    sessions := s.sessions.map fun x => if x.id = i then { x with weakThis := some i } else x }

/-- mirrors ws/WebSocket.cpp:77-80 -/
def destroy (s : Server Addr) (x : Session Addr) : Server Addr :=
  { s with sessions := s.sessions.erase x, sessionTable := s.sessionTable.erase x.endp }

/-! ## Messages -/

def peerAddr (asio : Asio Addr) (e : IpEndpoint Addr) : PeerAddr :=
  ⟨asio.toString e.address, e.port⟩

/-- mirrors ws/WebSocket.cpp:166-168 -/
def handlePong : Message := .createMessage .pong []

/-- The message that `handleLIST_PEERS` builds.
mirrors ws/WebSocket.cpp:171-176 -/
def peerListReply (asio : Asio Addr) (s : Server Addr) : Message :=
  { Message.new with
    type := .peerList
    peerList := s.sessionTable.keys.map (peerAddr asio) }

/-- mirrors ws/WebSocket.cpp:170-178 -/
def handleListPeers (asio : Asio Addr) (s : Server Addr) : Message :=
  let _reply := s.peerListReply asio
  .createMessage .pong []

/-- The reply to a message. `handleSEND_MSG` and `handleWANT_TO_CONNECT` return nothing,
which is undefined.
mirrors ws/WebSocket.cpp:137-164 -/
def handleMessage (asio : Asio Addr) (s : Server Addr) (m : Message) : Option Message :=
  match m.type with
  | .nop => some .new
  | .pong => some handlePong
  | .listPeers => some (s.handleListPeers asio)
  | .sendMsg => none
  | .wantToConnect => none
  | _ => some .new

end Server

/-! ## Runs -/

inductive Event (Addr : Type) where
  /-- a connection is accepted, and the constructor of its session runs -/
  | construct (endp : IpEndpoint Addr)
  /-- `make_shared` takes ownership of session `i` -/
  | own (i : Nat)
  /-- the last owner of session `i` lets it go -/
  | destroy (i : Nat)

open Server

/-- Connections that are open at the same time have distinct remote endpoints. -/
def step (asio : Asio Addr) (s : Server Addr) (e : Event Addr) : Option (Server Addr) :=
  if s.terminated then none
  else
    match e with
    | .construct endp =>
      if endp ∈ s.sessions.map Session.endp then none else some (s.construct asio endp)
    | .own i =>
      (s.sessions.find? fun x => x.id == i && x.weakThis.isNone).map fun _ => s.own i
    | .destroy i =>
      (s.sessions.find? fun x => x.id == i && x.weakThis.isSome).map fun x => s.destroy x

def lts (asio : Asio Addr) : LTS (Server Addr) (Event Addr) := .ofFn (· = start) (step asio)

/-- The table has the endpoints of the live sessions, and no pointer. -/
structure Inv (s : Server Addr) : Prop where
  keys : s.sessionTable.keys.Perm (s.sessions.map Session.endp)
  weak : ∀ k w, s.sessionTable.lookup k = some w → w = none

variable {asio : Asio Addr} {s : Server Addr}

theorem Inv.construct (h : Inv s) {endp : IpEndpoint Addr}
    (hne : endp ∉ s.sessions.map Session.endp) : Inv (s.construct asio endp) := by
  unfold Server.construct
  split
  · have hnew : endp ∉ s.sessionTable := fun hk => hne (h.keys.mem_iff.1 (AList.mem_keys.1 hk))
    constructor
    · show (emplace _ _ _).keys.Perm _
      rw [emplace, if_neg hnew, AList.keys_insert, List.erase_of_not_mem (mt AList.mem_keys.2 hnew),
        List.map_append]
      exact (h.keys.cons endp).trans (List.perm_append_singleton _ _).symm
    · intro k w hw
      change (emplace _ _ _).lookup k = some w at hw
      rw [emplace, if_neg hnew] at hw
      -- the pointer of the new object is not set yet
      by_cases hk : k = endp
      · subst hk
        rw [AList.lookup_insert] at hw
        exact (Option.some.inj hw).symm
      · rw [AList.lookup_insert_ne hk] at hw
        exact h.weak k w hw
  · exact ⟨.nil, fun k w hw => absurd hw (by simp)⟩

theorem Inv.own (h : Inv s) (i : Nat) : Inv (s.own i) where
  keys := by
    have hendp : (s.own i).sessions.map Session.endp = s.sessions.map Session.endp := by
      rw [Server.own, List.map_map]
      refine List.map_congr_left ?_
      intro x _
      simp only [Function.comp]
      split <;> rfl
    rw [hendp]
    exact h.keys
  weak := h.weak

theorem Inv.destroy (h : Inv s) {x : Session Addr} (hx : x ∈ s.sessions) : Inv (s.destroy x) where
  keys := by
    have herase : (s.sessions.map Session.endp).Perm
        (x.endp :: (s.sessions.erase x).map Session.endp) := (List.perm_cons_erase hx).map _
    have hkeys := (h.keys.trans herase).erase x.endp
    rwa [List.erase_cons_head, ← AList.keys_erase] at hkeys
  weak k w hw := by
    by_cases hk : k = x.endp
    · subst hk
      rw [Server.destroy, AList.lookup_erase] at hw
      cases hw
    · rw [Server.destroy, AList.lookup_erase_ne hk] at hw
      exact h.weak k w hw

theorem inv_inductive (asio : Asio Addr) : (lts asio).Inductive Inv where
  init := forall_eq.2 ⟨.nil, fun k w hw => absurd hw (by simp [start])⟩
  step s e s' h hs := by
    have hs : step asio s e = some s' := hs
    unfold step at hs
    split at hs
    · cases hs
    · cases e with
      | construct endp =>
        simp only at hs
        split at hs
        · cases hs
        · rename_i hne
          obtain rfl := Option.some.inj hs
          exact h.construct hne
      | own i =>
        obtain ⟨x, -, rfl⟩ := Option.map_eq_some_iff.1 hs
        exact h.own i
      | destroy i =>
        obtain ⟨x, hx, rfl⟩ := Option.map_eq_some_iff.1 hs
        exact h.destroy (List.mem_of_find?_eq_some hx)

/-! ## What the table is for -/

/-- The message names exactly the live sessions. -/
def Names (asio : Asio Addr) (s : Server Addr) (r : Message) : Prop :=
  r.type = .peerList ∧ r.peerList.Perm (s.sessions.map fun x => peerAddr asio x.endp)

/-- One entry for each live session, with a pointer to it; and every session that asks for
the peers is told. -/
structure Listed (asio : Asio Addr) (s : Server Addr) : Prop where
  entries : s.sessionTable.keys.Perm (s.sessions.map Session.endp)
  locks : ∀ x ∈ s.sessions, ∃ w, s.sessionTable.lookup x.endp = some w ∧ s.lock w = some x.id
  reply : ∀ x ∈ s.sessions, ∀ m : Message, m.type = .listPeers →
    ∃ r, s.handleMessage asio m = some r ∧ Names asio s r

theorem Inv.not_locks (h : Inv s) {k : IpEndpoint Addr} {w : Option Nat}
    (hw : s.sessionTable.lookup k = some w) (i : Nat) : s.lock w ≠ some i := by
  rw [h.weak k w hw]
  intro hl
  cases hl

/-- What `handleLIST_PEERS` builds is right. -/
theorem built_exact (h : Inv s) : Names asio s (s.peerListReply asio) := by
  refine ⟨rfl, ?_⟩
  have := h.keys.map (peerAddr asio)
  rwa [List.map_map] at this

theorem not_names_reply {m r : Message} (hm : m.type = .listPeers)
    (hr : s.handleMessage asio m = some r) : ¬ Names asio s r := by
  intro hn
  unfold handleMessage at hr
  rw [hm] at hr
  obtain rfl := Option.some.inj hr
  have htype : MessageType.pong = .peerList := hn.1
  cases htype

/-- In every reachable state the table has one entry for each live session; none of its
pointers locks and no session is told its peers, so all is well only without sessions. -/
theorem listed_iff (h : (lts asio).Reachable s) :
    s.sessionTable.keys.Perm (s.sessions.map Session.endp) ∧
    (∀ k w i, s.sessionTable.lookup k = some w → s.lock w ≠ some i) ∧
    (∀ m r, m.type = .listPeers → s.handleMessage asio m = some r → ¬ Names asio s r) ∧
    (Listed asio s ↔ s.sessions = []) := by
  have hinv := (inv_inductive asio).reachable h
  refine ⟨hinv.keys, fun k w i hw => hinv.not_locks hw i, fun m r => not_names_reply, ?_⟩
  constructor
  · intro hl
    cases hs : s.sessions with
    | nil => rfl
    | cons x xs =>
      obtain ⟨w, hw, hlock⟩ := hl.locks x (by rw [hs]; exact List.mem_cons_self ..)
      exact absurd hlock (hinv.not_locks hw x.id)
  · intro hs
    refine ⟨hinv.keys, ?_, ?_⟩
    · rw [hs]
      exact List.forall_mem_nil _
    · rw [hs]
      exact List.forall_mem_nil _

end

/-- One connection, from 10.0.0.1:80. -/
def oneSession : List (Event Ipv4) :=
  [.construct ⟨(10, 0, 0, 1), 80⟩, .own 0]

theorem oneSession_reachable : ∃ s, (lts asioV4).Reachable s ∧ s.sessions.length = 1 :=
  LTS.exists_reachable_of_exec oneSession rfl (by decide +kernel)

theorem listed_iff_oneSession : ∃ s, s.sessions.length = 1 ∧ ¬ Listed asioV4 s := by
  obtain ⟨s, hr, hlen⟩ := oneSession_reachable
  refine ⟨s, hlen, fun hl => ?_⟩
  have hnil := (listed_iff hr).2.2.2.1 hl
  rw [hnil] at hlen
  cases hlen

/-- Counterexample: the entry of the only session does not lock, and its request is
answered with a `PONG`. -/
theorem not_listed : ∃ s, (lts asioV4).Reachable s ∧ s.sessions.length = 1 ∧
    (s.handleMessage asioV4 (.createMessage .listPeers [])) = some (.createMessage .pong []) ∧
    ¬ Listed asioV4 s := by
  obtain ⟨s, hr, hlen⟩ := oneSession_reachable
  have hinv := (inv_inductive asioV4).reachable hr
  refine ⟨s, hr, hlen, rfl, fun hl => ?_⟩
  obtain ⟨x, hx⟩ := List.length_eq_one_iff.1 hlen
  obtain ⟨w, hw, hlock⟩ := hl.locks x (by rw [hx]; exact List.mem_singleton.2 rfl)
  exact hinv.not_locks hw x.id hlock

end ShadowTalk.Ws
