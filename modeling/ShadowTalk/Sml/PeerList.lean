import ShadowTalk.Sml.UdpLayer

/-!
# The list of peers

The server reports addresses one by one. `query_server` publishes what has been reported
since the last time, as one list, and starts a new one; `peer_list` returns the list that
was published last.

* `Keeps`: what is done with peers does not touch the two lists, nor what has been put out.
* `peerList_batches`: the lists that `query_server` publishes along a run, and what is not
  published yet, are what the server has reported, cut up: none is lost, none comes twice,
  and what is published stays until something else is.
-/
namespace ShadowTalk.Sml.UdpLayer
open ShadowTalk.Core

variable {env : Env} {conf : Configuration} {server addr : Address} {s s' t : UdpLayer}
  {p : Peer} {d : Datagram} {msg wire priv : Bytes} {e : Endpoint}

/-! ## What peers do -/

/-- From `s` to `t` only peers have changed, and what has been put out stays. -/
structure Keeps (s t : UdpLayer) : Prop where
  conf : t.conf = s.conf
  server : t.server = s.server
  peerList : t.peerList = s.peerList
  newPeerList : t.newPeerList = s.newPeerList
  out : s.out <+: t.out

theorem Keeps.refl (s : UdpLayer) : Keeps s s := ⟨rfl, rfl, rfl, rfl, List.prefix_rfl⟩

theorem Keeps.trans {u : UdpLayer} (h : Keeps s t) (h' : Keeps t u) : Keeps s u :=
  ⟨h'.conf.trans h.conf, h'.server.trans h.server, h'.peerList.trans h.peerList,
    h'.newPeerList.trans h.newPeerList, h.out.trans h'.out⟩

theorem keeps_delPeer (s : UdpLayer) (addr : Address) : Keeps s (s.delPeer addr) := by
  unfold UdpLayer.delPeer
  split
  · exact ⟨rfl, rfl, rfl, rfl, List.prefix_rfl⟩
  · exact ⟨rfl, rfl, rfl, rfl, List.prefix_append _ _⟩

theorem keeps_putPeer (s : UdpLayer) (addr : Address) (p : Peer) : Keeps s (s.putPeer addr p) :=
  ⟨rfl, rfl, rfl, rfl, List.prefix_append _ _⟩

theorem keeps_peerFeed (env : Env) (s : UdpLayer) (addr : Address) (p : Peer) (msg priv : Bytes) :
    Keeps s (s.peerFeed env addr p msg priv).1 := by
  unfold UdpLayer.peerFeed
  generalize Datagram.parse env.endian msg = r
  cases r with
  | error x => exact .refl s
  | ok d =>
    show Keeps s (s.peerRecv env addr p d priv).1
    have hput := keeps_putPeer s addr (p.recv env s.conf d priv).1
    unfold UdpLayer.peerRecv
    simp only
    split
    · exact hput.trans (keeps_delPeer _ _)
    · exact hput

theorem keeps_feedPeer (env : Env) (s : UdpLayer) (addr : Address) (msg priv : Bytes) :
    Keeps s (s.feedPeer env addr msg priv).1 := by
  unfold UdpLayer.feedPeer
  cases s.peerMap addr with
  | some p => exact keeps_peerFeed env s addr p msg priv
  | none =>
    cases hc : s.createPeer env addr with
    | error x => exact .refl s
    | ok s₁ =>
      obtain ⟨-, rfl⟩ := createPeer_ok hc
      exact (keeps_putPeer s addr _).trans (keeps_peerFeed env _ addr _ msg priv)

/-! ## What the server reports -/

/-- The address that an event adds to `new_peer_list_`. -/
def Event.reported (server : Address) : Event → Option Address
  | .receive e wire _ =>
    if Address.ofEndpoint e = server then (Address.parse (wire.take bufferSize)).toOption else none
  | _ => none

/-- The list that `peer_list` returns when `query_server` has replaced it. Other events, and a
`query_server` with nothing new, publish nothing. -/
def published (s : UdpLayer) : Event → List (List Address)
  | .queryServer => if s.newPeerList ≠ [] then [s.queryServer.peerList] else []
  | _ => []

/-- What an event does to the two lists. -/
structure Lists (s : UdpLayer) (ev : Event) (t : UdpLayer) : Prop where
  conf : (∀ id key, ev ≠ .addTrustedPeerPublicKey id key) → t.conf = s.conf
  server : t.server = s.server
  out : s.out <+: t.out
  published : s.published ev = [] ∧ t.peerList = s.peerList ∧
      t.newPeerList = s.newPeerList ++ (ev.reported s.server).toList ∨
    s.published ev = [t.peerList] ∧ ev.reported s.server = none ∧ s.newPeerList ≠ [] ∧
      t.peerList = s.newPeerList ∧ t.newPeerList = []

theorem Keeps.lists {ev : Event} (h : Keeps s t) (hp : s.published ev = [])
    (he : ev.reported s.server = none) : Lists s ev t where
  conf _ := h.conf
  server := h.server
  out := h.out
  published := .inl ⟨hp, h.peerList, by rw [he, h.newPeerList]; exact (List.append_nil _).symm⟩

theorem lists_handleReceive (env : Env) (s : UdpLayer) (e : Endpoint) (wire priv : Bytes) :
    Lists s (.receive e wire priv) (s.handleReceive env e wire priv).1 := by
  by_cases ha : Address.ofEndpoint e = s.server
  · have hrep : (Event.receive e wire priv).reported s.server =
        (Address.parse (wire.take bufferSize)).toOption := if_pos ha
    rw [handleReceive_server ha]
    generalize Address.parse (wire.take bufferSize) = r at hrep ⊢
    cases r with
    | error x =>
      refine ⟨fun _ => rfl, rfl, List.prefix_rfl, .inl ⟨rfl, rfl, ?_⟩⟩
      rw [hrep]
      exact (List.append_nil _).symm
    | ok addr =>
      refine ⟨fun _ => rfl, rfl, List.prefix_rfl, .inl ⟨rfl, rfl, ?_⟩⟩
      rw [hrep]
      rfl
  · have hkeep := keeps_feedPeer env { s with receiving := false } (Address.ofEndpoint e)
      (wire.take bufferSize) priv
    generalize hq : UdpLayer.feedPeer env { s with receiving := false } (Address.ofEndpoint e)
      (wire.take bufferSize) priv = r at hkeep
    rw [handleReceive_peer ha hq]
    obtain ⟨s', x⟩ := r
    have hlists : Keeps s s' :=
      ⟨hkeep.conf, hkeep.server, hkeep.peerList, hkeep.newPeerList, hkeep.out⟩
    cases x with
    | none =>
      have hstart : Keeps s s'.startReceive := ⟨hlists.1, hlists.2, hlists.3, hlists.4, hlists.5⟩
      exact hstart.lists rfl (if_neg ha)
    | some x => exact hlists.lists rfl (if_neg ha)

theorem step_lists {ev : Event} (hs : s.step env ev = some s') : Lists s ev s' := by
  cases ev with
  | receive e wire priv =>
    simp only [UdpLayer.step] at hs
    split at hs
    · cases hs
      exact lists_handleReceive env s e wire priv
    · cases hs
  | addPeer addr =>
    cases hs
    refine Keeps.lists ?_ rfl rfl
    unfold UdpLayer.addPeer
    split
    · split
      · exact ⟨rfl, rfl, rfl, rfl, List.prefix_append _ _⟩
      · exact keeps_putPeer s addr _
    · exact .refl s
  | delPeer addr =>
    cases hs
    exact (keeps_delPeer s addr).lists rfl rfl
  | addTrustedPeerPublicKey id key =>
    cases hs
    refine ⟨fun h => absurd rfl (h id key), rfl, List.prefix_rfl, .inl ⟨rfl, rfl, ?_⟩⟩
    exact (List.append_nil _).symm
  | peer addr ev =>
    have key : ((s.peerMap addr).bind fun p => (p.handle env s.conf ev).map fun r =>
        s.putPeer addr r.1) = some s' := by
      cases ev with
      | recv d priv => cases hs
      | _ => exact hs
    obtain ⟨p, -, hs⟩ := Option.bind_eq_some_iff.1 key
    obtain ⟨r, -, rfl⟩ := Option.map_eq_some_iff.1 hs
    exact (keeps_putPeer s addr r.1).lists rfl rfl
  | queryServer =>
    cases hs
    by_cases hne : s.newPeerList = []
    · have hsame : s.queryServer = s := if_neg (not_not.2 hne)
      rw [hsame]
      exact (Keeps.refl s).lists (if_neg (not_not.2 hne)) rfl
    · have hnew : s.queryServer = { s with peerList := s.newPeerList, newPeerList := [] } :=
        if_pos hne
      have hpub : s.published .queryServer = [s.queryServer.peerList] := if_pos hne
      rw [hnew] at hpub ⊢
      exact ⟨fun _ => rfl, rfl, List.prefix_rfl, .inr ⟨hpub, rfl, hne, rfl, rfl⟩⟩

theorem step_out {ev : Event} (hs : s.step env ev = some s') : s.out <+: s'.out :=
  (step_lists hs).out

/-! ## Runs -/

/-- The reported addresses are the lists `bs` that have been published, and what is new. -/
structure Batches (reported : List Address) (bs : List (List Address)) (s : UdpLayer) : Prop where
  nonempty : ∀ b ∈ bs, b ≠ []
  flatten : reported = bs.flatten ++ s.newPeerList
  last : s.peerList = bs.getLast?.getD []

theorem Batches.step {ev : Event} {l : List Address} {bs : List (List Address)}
    (h : Batches l bs s) (hl : Lists s ev s') :
    Batches (l ++ (ev.reported s.server).toList) (bs ++ s.published ev) s' := by
  rcases hl.published with ⟨hpub, hp, hn⟩ | ⟨hpub, hno, hnew, hp, hn⟩
  · rw [hpub, List.append_nil]
    refine ⟨h.nonempty, ?_, hp.trans h.last⟩
    rw [h.flatten, hn, List.append_assoc]
  · rw [hpub, hp]
    refine ⟨fun b hb => ?_, ?_, ?_⟩
    · rcases List.mem_append.1 hb with hb | hb
      · exact h.nonempty b hb
      · rw [List.mem_singleton.1 hb]
        exact hnew
    · rw [hno, hn, h.flatten, List.flatten_append, List.flatten_singleton]
      rfl
    · rw [hp, List.getLast?_append]
      rfl

theorem Batches.run {evs : List Event} {l : List Address} {bs : List (List Address)}
    (h : Batches l bs s) (hr : (lts env conf server).Run s evs s') :
    Batches (l ++ evs.filterMap (Event.reported s.server))
      (bs ++ LTS.outputs (UdpLayer.step env) published s evs) s' := by
  induction hr generalizing l bs with
  | nil =>
    rw [List.filterMap_nil, List.append_nil, LTS.outputs, List.append_nil]
    exact h
  | @cons s s₁ s' ev evs hs _ ih =>
    have hl : Lists s ev s₁ := step_lists hs
    have hrest := ih (h.step hl)
    rw [hl.server, List.append_assoc, List.append_assoc] at hrest
    have hcons : (ev :: evs).filterMap (Event.reported s.server) =
        (ev.reported s.server).toList ++ evs.filterMap (Event.reported s.server) := by
      cases hev : ev.reported s.server with
      | none => exact List.filterMap_cons_none hev
      | some addr => exact List.filterMap_cons_some hev
    have hout : LTS.outputs (UdpLayer.step env) published s (ev :: evs) =
        s.published ev ++ LTS.outputs (UdpLayer.step env) published s₁ evs := by
      have hs : s.step env ev = some s₁ := hs
      rw [LTS.outputs, hs]
      rfl
    rwa [hcons, hout]

/-- The lists that the `query_server`s of a run have published, none empty, and what is not
published yet make up all that the server has reported, in order; `peer_list` is the list
that was published last. -/
theorem peerList_batches {evs : List Event}
    (hr : (lts env conf server).Run (new conf server) evs s) :
    (∀ b ∈ LTS.outputs (step env) published (new conf server) evs, b ≠ []) ∧
      evs.filterMap (Event.reported server) =
        (LTS.outputs (step env) published (new conf server) evs).flatten ++ s.newPeerList ∧
      s.peerList =
        (LTS.outputs (step env) published (new conf server) evs).getLast?.getD [] := by
  have hstart : Batches [] [] (new conf server) := ⟨List.forall_mem_nil _, rfl, rfl⟩
  have hend := hstart.run hr
  exact ⟨hend.nonempty, hend.flatten, hend.last⟩

/-- The server at 127.0.0.1:1 reports three addresses: the first two are published, then
nothing, then the third; a fourth one is not published yet. -/
def reportsTrace : List Event :=
  [.receive ⟨127, 0, 0, 1, 1⟩ [97, 58, 49] [], .receive ⟨127, 0, 0, 1, 1⟩ [98, 58, 50] [],
    .queryServer, .queryServer, .receive ⟨127, 0, 0, 1, 1⟩ [99, 58, 51] [], .queryServer,
    .receive ⟨127, 0, 0, 1, 1⟩ [100, 58, 52] []]

theorem peerList_batches_two : ∃ s : UdpLayer,
    s.peerList = [⟨[99], 3⟩] ∧ s.newPeerList = [⟨[100], 4⟩] ∧
    [⟨[97], 1⟩, ⟨[98], 2⟩, ⟨[99], 3⟩, ⟨[100], 4⟩] =
      [[⟨[97], 1⟩, ⟨[98], 2⟩], [⟨[99], 3⟩]].flatten ++ s.newPeerList := by
  have hexec : (LTS.exec (step smallEnv) (new smallConfA (Address.ofEndpoint ⟨127, 0, 0, 1, 1⟩))
      reportsTrace).any (fun s => decide
        (s.peerList = [⟨[99], 3⟩] ∧ s.newPeerList = [⟨[100], 4⟩])) = true := by decide +kernel
  have hpub : LTS.outputs (step smallEnv) published
      (new smallConfA (Address.ofEndpoint ⟨127, 0, 0, 1, 1⟩)) reportsTrace =
        [[⟨[97], 1⟩, ⟨[98], 2⟩], [⟨[99], 3⟩]] := by decide +kernel
  obtain ⟨s, hs, hp⟩ := (Option.any_eq_true _ _).1 hexec
  obtain ⟨hp, hn⟩ := of_decide_eq_true hp
  obtain ⟨-, hrep, -⟩ := peerList_batches (LTS.run_of_exec hs)
  rw [hpub] at hrep
  refine ⟨s, hp, hn, ?_⟩
  rw [← hrep]
  decide +kernel

end ShadowTalk.Sml.UdpLayer
