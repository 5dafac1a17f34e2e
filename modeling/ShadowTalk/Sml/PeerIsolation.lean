import ShadowTalk.Sml.AddPeer

/-!
# One host cannot interfere with another

All peers share one socket, one receive loop and one ring. Apart from the loop, which any
of them can end, a peer depends on nothing but its own traffic.

* `step_other`: an event of another address leaves the peer, and what it has put out,
  alone.
* `step_same`: an event of the address depends on nothing else.
* `noninterference`: so two runs with the same events of an address have the same peer
  there, in the same state, and have sent and told the same for it.
-/
namespace ShadowTalk.Sml.UdpLayer
open ShadowTalk.Core

variable {env : Env} {conf : Configuration} {server a addr : Address} {s s' t : UdpLayer}
  {p : Peer} {d : Datagram} {msg wire priv : Bytes} {e : Endpoint}

/-- The events that are about `a`, and those about all. -/
def Event.Concerns (a : Address) : Event → Prop
  | .receive e _ _ => Address.ofEndpoint e = a
  | .addPeer addr => addr = a
  | .delPeer addr => addr = a
  | .addTrustedPeerPublicKey _ _ => True
  | .peer addr _ => addr = a
  | .queryServer => False

instance decidableConcerns (a : Address) : DecidablePred (Event.Concerns a)
  | .receive e _ _ => inferInstanceAs (Decidable (Address.ofEndpoint e = a))
  | .addPeer addr => inferInstanceAs (Decidable (addr = a))
  | .delPeer addr => inferInstanceAs (Decidable (addr = a))
  | .addTrustedPeerPublicKey _ _ => .isTrue trivial
  | .peer addr _ => inferInstanceAs (Decidable (addr = a))
  | .queryServer => .isFalse id

def concerned : UdpEff → Address
  | .peer addr _ => addr
  | .noSuchPeer addr => addr

/-- What has been put out for `a`. -/
def outputFor (a : Address) (out : List UdpEff) : List UdpEff :=
  out.filter fun e => concerned e = a

theorem outputFor_append (a : Address) (l m : List UdpEff) :
    outputFor a (l ++ m) = outputFor a l ++ outputFor a m := List.filter_append ..

theorem outputFor_peer_ne (h : addr ≠ a) (es : List PeerEff) :
    outputFor a (es.map (.peer addr)) = [] := by
  refine List.filter_eq_nil_iff.2 fun e he hc => ?_
  obtain ⟨x, -, rfl⟩ := List.mem_map.1 he
  exact h (of_decide_eq_true hc)

/-- In `t` the peer of `a` is what it is in `s`, and its datagrams still arrive. -/
structure SameAt (a : Address) (s t : UdpLayer) : Prop where
  conf : s.conf = t.conf
  server : s.server = t.server
  peer : s.peerMap a = t.peerMap a
  out : outputFor a s.out = outputFor a t.out
  receiving : s.receiving = true → t.receiving = true

theorem SameAt.refl (a : Address) (s : UdpLayer) : SameAt a s s := ⟨rfl, rfl, rfl, rfl, id⟩

theorem SameAt.trans {u : UdpLayer} (h : SameAt a s t) (h' : SameAt a t u) : SameAt a s u :=
  ⟨h.conf.trans h'.conf, h.server.trans h'.server, h.peer.trans h'.peer, h.out.trans h'.out,
    fun hs => h'.receiving (h.receiving hs)⟩

/-! ## Other addresses -/

theorem putPeer_other (h : addr ≠ a) (s : UdpLayer) (p : Peer) :
    SameAt a (s.putPeer addr p) s where
  conf := rfl
  server := rfl
  peer := Function.update_of_ne h.symm _ _
  out := by
    show outputFor a (s.out ++ _) = _
    rw [outputFor_append, outputFor_peer_ne h, List.append_nil]
  receiving := id

theorem delPeer_other (h : addr ≠ a) (s : UdpLayer) : SameAt a (s.delPeer addr) s := by
  unfold UdpLayer.delPeer
  split
  · exact ⟨rfl, rfl, Function.update_of_ne h.symm _ _, rfl, id⟩
  · refine ⟨rfl, rfl, rfl, ?_, id⟩
    have hout : outputFor a [.noSuchPeer addr] = [] := by
      simp [outputFor, concerned, h]
    show outputFor a (s.out ++ _) = _
    rw [outputFor_append, hout, List.append_nil]

theorem peerFeed_other (h : addr ≠ a) (s : UdpLayer) (p : Peer) (msg priv : Bytes) :
    SameAt a (s.peerFeed env addr p msg priv).1 s := by
  unfold UdpLayer.peerFeed
  generalize Datagram.parse env.endian msg = r
  cases r with
  | error x => exact .refl a s
  | ok d =>
    show SameAt a (s.peerRecv env addr p d priv).1 s
    have hput := putPeer_other h s (p.recv env s.conf d priv).1
    unfold UdpLayer.peerRecv
    simp only
    split
    · exact (delPeer_other h _).trans hput
    · exact hput

theorem feedPeer_other (env : Env) (h : addr ≠ a) (s : UdpLayer) (msg priv : Bytes) :
    SameAt a (s.feedPeer env addr msg priv).1 s := by
  unfold UdpLayer.feedPeer
  cases s.peerMap addr with
  | some p => exact peerFeed_other h s p msg priv
  | none =>
    cases hc : s.createPeer env addr with
    | error x => exact .refl a s
    | ok s₁ =>
      obtain ⟨-, rfl⟩ := createPeer_ok hc
      exact (peerFeed_other h _ _ msg priv).trans (putPeer_other h s _)

theorem handleReceive_other (h : Address.ofEndpoint e ≠ a) (hr : s.receiving = true) :
    SameAt a (s.handleReceive env e wire priv).1 s := by
  by_cases ha : Address.ofEndpoint e = s.server
  · rw [handleReceive_server ha]
    generalize Address.parse (wire.take bufferSize) = r
    cases r with
    | error x => exact ⟨rfl, rfl, rfl, rfl, fun _ => hr⟩
    | ok addr => exact ⟨rfl, rfl, rfl, rfl, fun _ => hr⟩
  · have hfeed := feedPeer_other env h { s with receiving := false }
      (wire.take bufferSize) priv
    generalize hq : UdpLayer.feedPeer env { s with receiving := false } (Address.ofEndpoint e)
      (wire.take bufferSize) priv = r at hfeed
    rw [handleReceive_peer ha hq]
    obtain ⟨s', x⟩ := r
    cases x with
    | none => exact ⟨hfeed.conf, hfeed.server, hfeed.peer, hfeed.out, fun _ => hr⟩
    | some x => exact ⟨hfeed.conf, hfeed.server, hfeed.peer, hfeed.out, fun _ => hr⟩

/-- An event that does not concern `a` leaves its peer alone. -/
theorem step_other {ev : Event} (hs : s.step env ev = some s') (h : ¬ ev.Concerns a) :
    SameAt a s' s := by
  cases ev with
  | receive e wire priv =>
    simp only [UdpLayer.step] at hs
    split at hs
    · rename_i hr
      cases hs
      exact handleReceive_other h hr
    · cases hs
  | addPeer addr =>
    cases hs
    unfold UdpLayer.addPeer
    split
    · split
      · refine ⟨rfl, rfl, rfl, ?_, id⟩
        show outputFor a (s.out ++ _) = _
        rw [outputFor_append, outputFor_peer_ne h, List.append_nil]
      · exact putPeer_other h s _
    · exact .refl a s
  | delPeer addr =>
    cases hs
    exact delPeer_other h s
  | addTrustedPeerPublicKey id key => exact absurd trivial h
  | peer addr ev =>
    have key : ((s.peerMap addr).bind fun p => (p.handle env s.conf ev).map fun r =>
        s.putPeer addr r.1) = some s' := by
      cases ev with
      | recv d priv => cases hs
      | _ => exact hs
    obtain ⟨p, -, hs⟩ := Option.bind_eq_some_iff.1 key
    obtain ⟨r, -, rfl⟩ := Option.map_eq_some_iff.1 hs
    exact putPeer_other h s r.1
  | queryServer =>
    cases hs
    unfold UdpLayer.queryServer
    split
    · exact ⟨rfl, rfl, rfl, rfl, id⟩
    · exact .refl a s

/-! ## The address itself -/

/-- The same state and the same exception. -/
def SameResult (a : Address) (r u : UdpLayer × Option Exc) : Prop := SameAt a r.1 u.1 ∧ r.2 = u.2

theorem SameAt.putPeer (h : SameAt a s t) (p : Peer) :
    SameAt a (s.putPeer a p) (t.putPeer a p) where
  conf := h.conf
  server := h.server
  peer := by
    show Function.update s.peerMap a _ a = Function.update t.peerMap a _ a
    rw [Function.update_self, Function.update_self]
  out := by
    show outputFor a (s.out ++ _) = outputFor a (t.out ++ _)
    rw [outputFor_append, outputFor_append, h.out]
  receiving := h.receiving

theorem SameAt.delPeer (h : SameAt a s t) : SameAt a (s.delPeer a) (t.delPeer a) := by
  unfold UdpLayer.delPeer
  rw [← h.peer]
  cases s.peerMap a with
  | some p =>
    refine ⟨h.conf, h.server, ?_, h.out, h.receiving⟩
    show Function.update s.peerMap a _ a = Function.update t.peerMap a _ a
    rw [Function.update_self, Function.update_self]
  | none =>
    refine ⟨h.conf, h.server, h.peer, ?_, h.receiving⟩
    show outputFor a (s.out ++ _) = outputFor a (t.out ++ _)
    rw [outputFor_append, outputFor_append, h.out]

theorem SameAt.peerFeed (h : SameAt a s t) (p : Peer) (msg priv : Bytes) :
    SameResult a (s.peerFeed env a p msg priv) (t.peerFeed env a p msg priv) := by
  unfold UdpLayer.peerFeed
  generalize Datagram.parse env.endian msg = r
  cases r with
  | error x => exact ⟨h, rfl⟩
  | ok d =>
    show SameResult a (s.peerRecv env a p d priv) (t.peerRecv env a p d priv)
    unfold UdpLayer.peerRecv
    rw [← h.conf]
    have hput := h.putPeer (p.recv env s.conf d priv).1
    refine ⟨?_, rfl⟩
    simp only
    split
    · exact hput.delPeer
    · exact hput

theorem SameAt.feedPeer (env : Env) (h : SameAt a s t) (msg priv : Bytes) :
    SameResult a (s.feedPeer env a msg priv) (t.feedPeer env a msg priv) := by
  unfold UdpLayer.feedPeer
  rw [← h.peer]
  cases s.peerMap a with
  | some p => exact h.peerFeed p msg priv
  | none =>
    by_cases hip : env.validIp a.ip = true
    · simp only [UdpLayer.createPeer, if_pos hip]
      rw [← h.conf]
      exact (h.putPeer (Peer.new env s.conf)).peerFeed _ msg priv
    · simp only [UdpLayer.createPeer, if_neg hip]
      exact ⟨h, rfl⟩

theorem SameAt.handleReceive (h : SameAt (Address.ofEndpoint e) s t) (wire priv : Bytes) :
    SameAt (Address.ofEndpoint e) (s.handleReceive env e wire priv).1
      (t.handleReceive env e wire priv).1 := by
  by_cases ha : Address.ofEndpoint e = s.server
  · rw [handleReceive_server ha, handleReceive_server (ha.trans h.server)]
    generalize Address.parse (wire.take bufferSize) = r
    cases r with
    | error x => exact ⟨h.conf, h.server, h.peer, h.out, id⟩
    | ok addr => exact ⟨h.conf, h.server, h.peer, h.out, id⟩
  · have hat : Address.ofEndpoint e ≠ t.server := h.server ▸ ha
    have hstart : SameAt (Address.ofEndpoint e) { s with receiving := false }
        { t with receiving := false } := ⟨h.conf, h.server, h.peer, h.out, id⟩
    have hfeed := hstart.feedPeer env (wire.take bufferSize) priv
    generalize hq : UdpLayer.feedPeer env { s with receiving := false } (Address.ofEndpoint e)
      (wire.take bufferSize) priv = r at hfeed
    generalize hu : UdpLayer.feedPeer env { t with receiving := false } (Address.ofEndpoint e)
      (wire.take bufferSize) priv = u at hfeed
    rw [handleReceive_peer ha hq, handleReceive_peer hat hu]
    obtain ⟨s', x⟩ := r
    obtain ⟨t', y⟩ := u
    obtain ⟨hsame, rfl⟩ : SameAt _ s' t' ∧ x = y := hfeed
    cases x with
    | none => exact ⟨hsame.conf, hsame.server, hsame.peer, hsame.out, fun _ => rfl⟩
    | some x => exact hsame

/-- An event that concerns `a` can be taken from any state with the same peer there, and
does the same to it. -/
theorem step_same {ev : Event} (h : SameAt a s t) (hs : s.step env ev = some s')
    (hc : ev.Concerns a) : ∃ t', t.step env ev = some t' ∧ SameAt a s' t' := by
  cases ev with
  | receive e wire priv =>
    simp only [UdpLayer.step] at hs
    split at hs
    · rename_i hr
      cases hs
      subst hc
      exact ⟨_, if_pos (h.receiving hr), h.handleReceive wire priv⟩
    · cases hs
  | addPeer addr =>
    cases hs
    subst hc
    refine ⟨_, rfl, ?_⟩
    unfold UdpLayer.addPeer
    split
    · rw [← h.peer, ← h.conf]
      cases s.peerMap addr with
      | some p =>
        refine ⟨rfl, h.server, h.peer, ?_, h.receiving⟩
        show outputFor addr (s.out ++ _) = outputFor addr (t.out ++ _)
        rw [outputFor_append, outputFor_append, h.out]
      | none => exact h.putPeer _
    · exact h
  | delPeer addr =>
    cases hs
    subst hc
    exact ⟨_, rfl, h.delPeer⟩
  | addTrustedPeerPublicKey id key =>
    cases hs
    refine ⟨_, rfl, ⟨?_, h.server, h.peer, h.out, h.receiving⟩⟩
    simp only [h.conf]
  | peer addr ev =>
    subst hc
    have key : ((s.peerMap addr).bind fun p => (p.handle env s.conf ev).map fun r =>
        s.putPeer addr r.1) = some s' := by
      cases ev with
      | recv d priv => cases hs
      | _ => exact hs
    obtain ⟨p, hp, hq⟩ := Option.bind_eq_some_iff.1 key
    obtain ⟨r, hr, rfl⟩ := Option.map_eq_some_iff.1 hq
    refine ⟨t.putPeer addr r.1, ?_, h.putPeer r.1⟩
    have htake : ((t.peerMap addr).bind fun p => (p.handle env t.conf ev).map fun r =>
        t.putPeer addr r.1) = some (t.putPeer addr r.1) := by
      rw [← h.peer, hp, ← h.conf]
      exact Option.map_eq_some_iff.2 ⟨r, hr, rfl⟩
    cases ev with
    | recv d priv => cases hs
    | _ => exact htake
  | queryServer => exact hc.elim

/-! ## Runs -/

/-- A run without all that does not concern `a` is a run, and has the same peer of `a`. -/
theorem purge_run {evs : List Event} (a : Address)
    (hr : (lts env conf server).Run (new conf server) evs s) :
    ∃ t, (lts env conf server).Run (new conf server) (evs.filter (Event.Concerns a)) t ∧
      SameAt a s t :=
  hr.purge (C := Event.Concerns a) (R := SameAt a)
    (fun _ _ _ _ h hs hn => (step_other hs hn).trans h)
    (fun _ _ _ _ h hs hc => step_same h hs hc) (.refl a _)

/-- Whatever other hosts send, and whatever is done with them: where the events that concern
`a` are the same, the peer of `a` is the same, and so is all that has been sent to it and
put into the ring for it. -/
theorem noninterference {evs evs' : List Event} (a : Address)
    (hr : (lts env conf server).Run (new conf server) evs s)
    (hr' : (lts env conf server).Run (new conf server) evs' s')
    (hevs : evs.filter (Event.Concerns a) = evs'.filter (Event.Concerns a)) :
    s.peerMap a = s'.peerMap a ∧ outputFor a s.out = outputFor a s'.out := by
  obtain ⟨t, ht, h⟩ := purge_run a hr
  obtain ⟨t', ht', h'⟩ := purge_run a hr'
  rw [hevs] at ht
  obtain rfl : t = t' := Option.some.inj ((LTS.exec_of_run ht).symm.trans (LTS.exec_of_run ht'))
  exact ⟨h.peer.trans h'.peer.symm, h.out.trans h'.out.symm⟩

/-- Another host says hello first, and ends the receive loop later. -/
theorem noninterference_hello : ∃ s s' : UdpLayer, s.receiving = false ∧ s'.receiving = true ∧
    s.peerMap peer9 = s'.peerMap peer9 ∧ outputFor peer9 s.out = outputFor peer9 s'.out := by
  have hexec : (LTS.exec (step smallEnv) (new smallConfA ⟨[], 0⟩)
      [.receive ⟨127, 0, 0, 1, 8⟩ [2, 0, 0, 0, 0, 0, 0, 0, 0, 1, 0, 0, 0, 98] [5],
        .receive ⟨127, 0, 0, 1, 9⟩ [2, 0, 0, 0, 0, 0, 0, 0, 0, 1, 0, 0, 0, 98] [7],
        .receive ⟨127, 0, 0, 1, 8⟩ [] []]).any (fun s => decide (s.receiving = false)) = true := by
    decide +kernel
  have hexec' : (LTS.exec (step smallEnv) (new smallConfA ⟨[], 0⟩)
      [.receive ⟨127, 0, 0, 1, 9⟩ [2, 0, 0, 0, 0, 0, 0, 0, 0, 1, 0, 0, 0, 98] [7]]).any
        (fun s => decide (s.receiving = true)) = true := by
    decide +kernel
  obtain ⟨s, hs, hrecv⟩ := (Option.any_eq_true _ _).1 hexec
  obtain ⟨s', hs', hrecv'⟩ := (Option.any_eq_true _ _).1 hexec'
  exact ⟨s, s', of_decide_eq_true hrecv, of_decide_eq_true hrecv',
    noninterference peer9
      (LTS.run_of_exec hs) (LTS.run_of_exec hs') (by rfl)⟩

end ShadowTalk.Sml.UdpLayer
