import ShadowTalk.Sml.Clients
import ShadowTalk.Sml.Service

/-!
# From application to application

Two whole programs: on each side the threads of an application, which post messages and
take others out, the service and its layer; between them the wire of `Clients`, and other
hosts.

* `clients_step`: what one side does is no step of its layer, or one of `Clients`.
* `sent_inductive`: every call of `send` is a message that was posted, in order.
* `got_prefix`: the bytes that one application takes out, as coming from a stream of the other
  one, are a prefix of what the other one has posted for this stream, less the messages that
  its service had no stream for, or has yet to execute.
-/
namespace ShadowTalk.Sml
open ShadowTalk.Core

namespace Message

/-- The call of `send` on a stream of `a`. -/
def sendTo (a : Address) : Message → Option (UInt32 × Bytes)
  | sendData addr id data => if addr = a then some (id, data) else none
  | addPeer _ | delPeer _ | newPeer _ _ | addStream _ _ | delStream _ _ | newStream _ _
  | recvData _ _ _ | error _ => none

/-- What comes from stream `id` of `a`. -/
def dataFrom (a : Address) (id : UInt32) : Message → Option Bytes
  | recvData addr i data => if addr = a then if i = id then some data else none else none
  | addPeer _ | delPeer _ | newPeer _ _ | addStream _ _ | delStream _ _ | newStream _ _
  | sendData _ _ _ | error _ => none

end Message

theorem messages_dataFrom (a : Address) (id : UInt32) (out : List UdpEff) :
    (messages out).filterMap (Message.dataFrom a id) =
      Peer.payloads id (UdpLayer.effects a out) := by
  unfold messages Peer.payloads UdpLayer.effects
  rw [List.filterMap_filterMap, List.filterMap_filterMap]
  congr 1
  funext e
  cases e with
  | noSuchPeer addr => rfl
  | peer addr e =>
    by_cases h : addr = a
    · cases e <;> simp [UdpEff.message, UdpEff.effect, Message.dataFrom, h]
    · cases e <;> simp [UdpEff.message, UdpEff.effect, Message.dataFrom, h]

/-- An application takes data out only after its layer has put it out. -/
theorem Service.Ring.dataFrom {s : Service} (h : s.Ring) (a : Address) (id : UInt32) :
    s.queried.filterMap (Message.dataFrom a id) <+:
      Peer.payloads id (UdpLayer.effects a s.layer.out) := by
  rw [← messages_dataFrom, ← h, List.filterMap_append]
  exact List.prefix_append _ _

/-! ## The two programs -/

structure Apps where
  service : Two Service
  /-- as in `Clients` -/
  wire : List (Side × Bytes)
  /-- as in `Clients` -/
  sent : Two (List (UInt32 × Bytes))

namespace Apps

inductive Label where
  /-- a copy of datagram number `i` arrives -/
  | recv (i : Nat) (priv : Bytes) (iv : Nat → Iv)
  /-- any other step on side `x` -/
  | own (x : Side) (l : Service.Label) (iv : Nat → Iv)

/-- The two layers. -/
def clients (s : Apps) : Clients := ⟨s.service.map Service.layer, s.wire, s.sent⟩

section
variable (env : Env) (ep : Side → Endpoint)

/-- The service of `x` has become `v`: what its layer has put out for the other one is on the
wire. -/
def put (s : Apps) (x : Side) (iv : Nat → Iv) (v : Service) : Apps where
  service := s.service.set x v
  wire := s.wire ++ (wires env iv (UdpLayer.effects (Clients.far ep x)
    (v.layer.out.drop (s.service.get x).layer.out.length))).map (x, ·)
  sent := s.sent

/-- The record of a call of `send`. -/
def call (s : Apps) (x : Side) (l : Service.Label) : Apps :=
  match (s.service.get x).event env l with
  | some ev => { s with sent := (s.clients.call ep x ev).sent }
  | none => s

/-- A datagram that comes from the other one. -/
def isFar (x : Side) : Service.Label → Bool
  | .io ev => Clients.isFar ep x ev
  | .put _ | .post | .start | .turn | .query => false

def step (s : Apps) : Label → Option Apps
  | .recv i priv iv => s.wire[i]?.bind fun w =>
    ((s.service.get w.1.other).step env (.io (.receive (ep w.1) w.2 priv))).map
      (s.put env ep w.1.other iv)
  | .own x l iv =>
    if isFar ep x l then none
    else ((s.service.get x).step env l).map ((s.call env ep x l).put env ep x iv)

/-- What the layers do between the two is clean. -/
def Clean (s : Apps) : Label → Prop
  | .recv i priv iv => Clients.Clean env ep s.clients (.recv i priv iv)
  | .own x l iv => ∀ ev ∈ (s.service.get x).event env l,
      Clients.Clean env ep s.clients (.own x ev iv)

instance decidableClean (s : Apps) (l : Label) : Decidable (Clean env ep s l) :=
  match l with
  | .recv i priv iv =>
    inferInstanceAs (Decidable (Clients.Clean env ep s.clients (.recv i priv iv)))
  | .own x l iv => inferInstanceAs (Decidable (∀ ev ∈ (s.service.get x).event env l,
      Clients.Clean env ep s.clients (.own x ev iv)))

end

def start (conf : Side → Configuration) (server : Side → Address) : Apps where
  service := ⟨.new (conf .a) (server .a), .new (conf .b) (server .b)⟩
  wire := []
  sent := ⟨[], []⟩

def lts (env : Env) (ep : Side → Endpoint) (conf : Side → Configuration)
    (server : Side → Address) : LTS Apps Label :=
  .ofFn (· = start conf server) (step env ep)

/-- What the application of `x` has posted for stream `id` of the other one. -/
def posted (ep : Side → Endpoint) (s : Apps) (x : Side) (id : UInt32) : List Bytes :=
  ((s.service.get x).input.given.filterMap (Message.sendTo (Clients.far ep x))).filterMap
    fun c => if c.1 = id then some c.2 else none

/-- What the application of `x` has got from stream `id` of the other one. -/
def got (ep : Side → Endpoint) (s : Apps) (x : Side) (id : UInt32) : List Bytes :=
  (s.service.get x).queried.filterMap (Message.dataFrom (Clients.far ep x) id)

variable {env : Env} {ep : Side → Endpoint} {conf : Side → Configuration}
  {server : Side → Address} {s s' : Apps} {x : Side} {l : Service.Label} {v : Service}
  {ev : UdpLayer.Event} {iv : Nat → Iv}

/-! ## The layers in a run of the two programs -/

@[simp] theorem clients_put (s : Apps) (x : Side) (iv : Nat → Iv) (v : Service) :
    (s.put env ep x iv v).clients = s.clients.put env ep x iv v.layer := by
  simp [clients, put, Clients.put]

/-- The layer is what it was. -/
theorem clients_put_same (h : v.layer = (s.service.get x).layer) :
    (s.put env ep x iv v).clients = s.clients := by
  have hself := Two.set_get (s.service.map Service.layer) x
  rw [Two.get_map] at hself
  rw [clients_put, h]
  simp [clients, Clients.put, UdpLayer.effects, wires, hself]

theorem clients_call (h : (s.service.get x).event env l = some ev) :
    (s.call env ep x l).clients = s.clients.call ep x ev := by
  have hlayer := Clients.call_layer ep s.clients x ev
  have hwire := Clients.call_wire ep s.clients x ev
  unfold call
  rw [h]
  show Clients.mk (s.service.map Service.layer) s.wire (s.clients.call ep x ev).sent = _
  generalize s.clients.call ep x ev = c at hlayer hwire ⊢
  cases c
  cases hlayer
  cases hwire
  rfl

/-- Of the datagrams of the other one, and of no others, it is said that they arrive. -/
theorem isFar_event (h : isFar ep x l = false) (he : v.event env l = some ev) :
    Clients.isFar ep x ev = false := by
  obtain ⟨he, -⟩ := Option.filter_eq_some_iff.1 he
  cases l with
  | io e =>
    obtain rfl := Option.some.inj he
    exact h
  | turn =>
    obtain ⟨m, -, hm⟩ := Option.bind_eq_some_iff.1 he
    cases m <;> cases hm <;> rfl
  | put m => cases he
  | post => cases he
  | start => cases he
  | query => cases he

theorem clients_step {k : Label} (hs : s.step env ep k = some s') (hc : Clean env ep s k) :
    s'.clients = s.clients ∨
      ∃ c, ((Clients.lts env ep conf server).guard (Clients.Clean env ep)).step s.clients c
        s'.clients := by
  cases k with
  | recv i priv iv =>
    obtain ⟨w, hw, hs⟩ := Option.bind_eq_some_iff.1 hs
    obtain ⟨v, hv, rfl⟩ := Option.map_eq_some_iff.1 hs
    rcases (Service.step_follows hv).2 with ⟨-, hl, -⟩ | ⟨ev, he, hl, -⟩
    · exact .inl (clients_put_same hl)
    · obtain ⟨he, -⟩ := Option.filter_eq_some_iff.1 he
      obtain rfl := Option.some.inj he
      refine .inr ⟨.recv i priv iv, ?_, hc⟩
      rw [clients_put]
      refine Option.bind_eq_some_iff.2 ⟨w, hw, Option.map_eq_some_iff.2 ⟨v.layer, ?_, rfl⟩⟩
      rw [← hl]
      exact congrArg (fun l => UdpLayer.step env l _) (Two.get_map _ _ _)
  | own x l iv =>
    simp only [step] at hs
    split at hs
    · cases hs
    · rename_i hfar
      obtain ⟨v, hv, rfl⟩ := Option.map_eq_some_iff.1 hs
      rcases (Service.step_follows hv).2 with ⟨he, hl, -⟩ | ⟨ev, he, hl, -⟩
      · left
        have hcall : s.call env ep x l = s := by rw [call, he]
        rw [hcall]
        exact clients_put_same hl
      · refine .inr ⟨.own x ev iv, ?_, hc ev he⟩
        rw [clients_put, clients_call he]
        refine (if_neg ?_).trans (Option.map_eq_some_iff.2 ⟨v.layer, ?_, rfl⟩)
        · rw [isFar_event (Bool.not_eq_true _ ▸ hfar) he]
          exact Bool.false_ne_true
        · rw [← hl]
          exact congrArg (fun l => UdpLayer.step env l _) (Two.get_map _ _ _)

/-- In a run of the two programs the layers make a run of `Clients`. -/
theorem clients_reachable (h : ((lts env ep conf server).guard (Clean env ep)).Reachable s) :
    ((Clients.lts env ep conf server).guard (Clients.Clean env ep)).Reachable s.clients := by
  refine LTS.Reachable.map (P := fun _ => True) clients
    ⟨fun _ _ => trivial, fun _ _ _ _ _ => trivial⟩ (fun s hs => ?_) (fun s k s' _ hs => ?_) h
  · obtain rfl : s = start conf server := hs
    rfl
  · exact clients_step hs.1 hs.2

/-! ## What has been posted and what has been got -/

/-- A call of `send` for the other one, or nothing. -/
theorem call_cases (env : Env) (ep : Side → Endpoint) (s : Apps) (x : Side) (l : Service.Label) :
    s.call env ep x l = s ∨ ∃ id data,
      (s.service.get x).event env l = some (.peer (Clients.far ep x) (.send id data)) ∧
      s.call env ep x l = { s with sent := s.sent.set x (s.sent.get x ++ [(id, data)]) } := by
  unfold call
  split
  · rename_i ev he
    unfold Clients.call
    split
    · rename_i addr id data
      split
      · rename_i ha
        exact .inr ⟨id, data, ha ▸ he, rfl⟩
      · exact .inl rfl
    · exact .inl rfl
  · exact .inl rfl

/-- The call comes from a message that the service has taken. -/
theorem sendTo_of_event {a : Address} {id : UInt32} {data : Bytes} {ms : List Message}
    (h : UdpLayer.Event.peer a (.send id data) ∈ ms.filterMap Message.event) :
    (id, data) ∈ ms.filterMap (Message.sendTo a) := by
  obtain ⟨m, hm, he⟩ := List.mem_filterMap.1 h
  refine List.mem_filterMap.2 ⟨m, hm, ?_⟩
  cases m with
  | sendData addr i d =>
    obtain ⟨rfl, rfl, rfl⟩ : addr = a ∧ i = id ∧ d = data := by
      simpa [Message.event] using he
    exact if_pos rfl
  | _ => cases he

/-- What one service does. -/
structure Sound (a : Address) (sent : List (UInt32 × Bytes)) (v : Service) : Prop where
  sent : sent.Sublist (v.input.taken.filterMap (Message.sendTo a))
  ring : v.Ring

/-- A step of the service that calls no `send` for `a`. -/
theorem Sound.step {a : Address} {sent : List (UInt32 × Bytes)} {w : Service}
    (h : Sound a sent v) (hs : v.step env l = some w) : Sound a sent w := by
  obtain ⟨hring, hf⟩ := Service.step_follows hs
  refine ⟨?_, hring h.ring⟩
  have htaken : ∃ ms, w.input.taken = v.input.taken ++ ms := by
    rcases hf with ⟨-, -, hf⟩ | ⟨ev, -, -, hf⟩
    · obtain ⟨ms, ht, -⟩ := hf.taken
      exact ⟨ms, ht⟩
    · obtain ⟨ms, ht, -⟩ := hf.taken
      exact ⟨ms, ht⟩
  obtain ⟨ms, ht⟩ := htaken
  rw [ht, List.filterMap_append]
  exact h.sent.trans (List.sublist_append_left _ _)

/-- A step that calls `send`. -/
theorem Sound.send {a : Address} {sent : List (UInt32 × Bytes)} {w : Service} {id : UInt32}
    {data : Bytes} (h : Sound a sent v) (hs : v.step env l = some w)
    (he : v.event env l = some (.peer a (.send id data))) :
    Sound a (sent ++ [(id, data)]) w := by
  obtain ⟨hring, hf⟩ := Service.step_follows hs
  refine ⟨?_, hring h.ring⟩
  rcases hf with ⟨hn, -, -⟩ | ⟨ev, hev, -, hf⟩
  · rw [he] at hn
    cases hn
  · obtain rfl := Option.some.inj (he.symm.trans hev)
    obtain ⟨ms, ht, hcmd⟩ := hf.taken
    have hmem := sendTo_of_event (List.singleton_sublist.1 hcmd)
    rw [ht, List.filterMap_append]
    exact h.sent.append (List.singleton_sublist.2 hmem)

/-- Every call of `send` is a message that was posted, and what an application has got its
layer has put out. -/
theorem sound_inductive (env : Env) (ep : Side → Endpoint) (conf : Side → Configuration)
    (server : Side → Address) : (lts env ep conf server).Inductive fun s =>
      ∀ x, Sound (Clients.far ep x) (s.sent.get x) (s.service.get x) where
  init := forall_eq.2 fun x => by cases x <;> exact ⟨List.Sublist.slnil, rfl⟩
  step s k s' h hs := by
    cases k with
    | recv i priv iv =>
      obtain ⟨w, hw, hs⟩ := Option.bind_eq_some_iff.1
        (show (s.wire[i]?.bind fun w =>
          ((s.service.get w.1.other).step env (.io (.receive (ep w.1) w.2 priv))).map
            (s.put env ep w.1.other iv)) = some s' from hs)
      obtain ⟨v, hv, rfl⟩ := Option.map_eq_some_iff.1 hs
      intro y
      rcases Side.eq_or_eq_other w.1.other y with rfl | rfl
      · rw [put, Two.get_set_self]
        exact (h _).step hv
      · rw [put, Two.get_set_other]
        exact h _
    | own x l iv =>
      have hs : (if isFar ep x l then none
          else ((s.service.get x).step env l).map ((s.call env ep x l).put env ep x iv)) =
          some s' := hs
      split at hs
      · cases hs
      · obtain ⟨v, hv, rfl⟩ := Option.map_eq_some_iff.1 hs
        intro y
        rcases call_cases env ep s x l with hcall | ⟨id, data, he, hcall⟩
        · rw [hcall]
          rcases Side.eq_or_eq_other x y with rfl | rfl
          · rw [put, Two.get_set_self]
            exact (h _).step hv
          · rw [put, Two.get_set_other]
            exact h _
        · rw [hcall]
          rcases Side.eq_or_eq_other x y with rfl | rfl
          · rw [put, Two.get_set_self, Two.get_set_self]
            exact (h _).send hv he
          · rw [put, Two.get_set_other, Two.get_set_other]
            exact h _

/-- Through both services, both layers and the wire: what an application gets from a stream of
the other one is a prefix of the bytes of messages that the other one has posted for it, in
their order. -/
theorem got_prefix {id : UInt32} (hp : PeerNet.Paired env conf) (hcfb : Cfb env)
    (hf : ∀ x, Fits env (conf x))
    (h : ((lts env ep conf server).guard (Clean env ep)).Reachable s) :
    ∃ chunks : List Bytes, chunks.Sublist (posted ep s x id) ∧
      (got ep s x.other id).flatten <+: chunks.flatten := by
  have hsound := (sound_inductive env ep conf server).reachable h.of_guard
  obtain ⟨t, ht⟩ := (Clients.tracks_inductive server hp hcfb hf).reachable (clients_reachable h)
  refine ⟨s.clients.sentOn x id, ?_, ?_⟩
  · have hgiven : (s.service.get x).input.taken <+: (s.service.get x).input.given :=
      List.prefix_append _ _
    exact ((hsound x).sent.trans (hgiven.sublist.filterMap _)).filterMap _
  · have hgot : got ep s x.other id <+: Clients.delivered ep s.clients x.other id := by
      rw [Clients.delivered, clients, Two.get_map]
      exact (hsound x.other).ring.dataFrom _ _
    have hflat : (got ep s x.other id).flatten <+:
        (Clients.delivered ep s.clients x.other id).flatten := by
      obtain ⟨rest, hrest⟩ := hgot
      exact ⟨rest.flatten, by rw [← hrest, List.flatten_append]⟩
    exact hflat.trans (ht.delivered_prefix hp hcfb hf)

def byThreads (x : Side) (ls : List Service.Label) : List Label :=
  ls.map fun l => .own x l fun _ => Tunnel.noIv

/-- A third host says hello to `b`; the application of `a` has `b` added, and posts two bytes
for stream 0, and one for a stream that is not there. -/
def threadsTrace : List Label :=
  byThreads .b [.io (.receive ⟨127, 0, 0, 1, 8⟩
    [2, 0, 0, 0, 0, 0, 0, 0, 0, 1, 0, 0, 0, 98] [5])] ++
  byThreads .a
    [.put (.addPeer (Clients.far Clients.smallEp .a)), .post, .start, .turn, .turn] ++
  (List.range 12).map (fun i =>
    .recv i (if i = 2 then [7] else if i = 3 then [9] else []) fun _ => Tunnel.noIv) ++
  byThreads .a [.put (.addStream (Clients.far Clients.smallEp .a) 0),
    .put (.sendData (Clients.far Clients.smallEp .a) 1 [9]),
    .put (.sendData (Clients.far Clients.smallEp .a) 0 [1, 2]),
    .post, .start, .turn, .turn, .turn, .turn] ++
  [.recv 12 [] fun _ => Tunnel.noIv] ++ byThreads .b [.query, .query, .query]

theorem got_prefix_threadsTrace : ∃ s : Apps, ∃ chunks : List Bytes,
    posted Clients.smallEp s .a 0 = [[1, 2]] ∧ got Clients.smallEp s .b 0 = [[1, 2]] ∧
      chunks.Sublist [[1, 2]] ∧ [1, 2] <+: chunks.flatten := by
  have hrun : ∃ s, ((lts smallEnv Clients.smallEp PeerNet.smallConf fun _ => ⟨[], 0⟩).guard
      (Clean smallEnv Clients.smallEp)).Reachable s ∧
      posted Clients.smallEp s .a 0 = [[1, 2]] ∧ got Clients.smallEp s .b 0 = [[1, 2]] :=
    LTS.exists_reachable_of_execGuard threadsTrace rfl (by decide +kernel)
  obtain ⟨s, hr, hposted, hgot⟩ := hrun
  obtain ⟨chunks, hsub, hpre⟩ :=
    got_prefix (x := .a) PeerNet.paired_small cfb_small Tunnel.fits_small hr
  have hgot' : got Clients.smallEp s Side.a.other 0 = [[1, 2]] := hgot
  rw [hposted] at hsub
  rw [hgot'] at hpre
  exact ⟨s, chunks, hposted, hgot, hsub, hpre⟩

end Apps
end ShadowTalk.Sml
