import ShadowTalk.Grpc.ServerInv
import Mathlib.Data.List.Nodup

/-!
# What the relay delivers

A message that is read from a stream is handed to the writer of its receiver in
the same step, under the name of its sender. `given i` is all that the writer of
call `i` has been handed, written or not.

* `given_relay`: how a `Read` changes what the writers were given.
* `delivered_effect`: where everything that was given comes from.
* `relay_delivers`: every message on a stream of a user was addressed to that user,
  no message that was read is on two places, and each stream has its messages in
  the order in which they were read.
-/
namespace ShadowTalk.Grpc
open ShadowTalk.Core

/-- What the writer of the call was given and still has, behind what is written. -/
def Call.given (c : Call) : List Relayed :=
  c.ctx.written ++ (c.writer.map PeerMessageWriter.pending).getD []

namespace Server

variable {SHA1 : Bytes → Digest} {s s' : Server} {e : Event} {i j k p : Nat}

def given (s : Server) (i : Nat) : List Relayed := s.view Call.given [] i

/-- The access token that stream `i` was opened with. -/
def tokenOf (s : Server) (i : Nat) : Option Bytes := s.view (fun c => c.ctx.token) none i

/-- The names that have logged in. -/
def names (s : Server) : List Bytes := s.maps.peers.map PeerInfo.name

/-- The token of a name that logs in is that of no other name. -/
def FreshToken (SHA1 : Bytes → Digest) (s : Server) : Event → Prop
  | .call i true inp => ∀ h ∈ s.handler? i, h.status = .receivedRequest → h.method = .login →
      ∀ n ∈ s.names, (SHA1 n).token = (SHA1 inp.name).token → n = inp.name
  | _ => True

instance (s : Server) (e : Event) : Decidable (FreshToken SHA1 s e) := by
  unfold FreshToken
  split <;> infer_instance

/-! ## Names and tokens -/

theorem token_ne_nil (d : Digest) : d.token ≠ [] := by
  intro h
  have hb : ∀ b ∈ d.bytes, hexText b = [] := List.flatMap_eq_nil_iff.1 h
  obtain ⟨b, hmem⟩ := List.exists_mem_of_length_pos (l := d.bytes) (by rw [d.size]; decide)
  have := hb b hmem
  unfold hexText hexDigits at this
  split at this <;> simp at this

theorem peerName_mem (h : p < s.maps.peers.length) : s.peerName p ∈ s.names := by
  simp only [peerName, names, List.getElem?_eq_getElem h, Option.map_some, Option.getD_some]
  exact List.mem_map_of_mem (List.getElem_mem h)

/-- `GetPeerInfo` finds the `PeerInfo` that the token was made for. -/
theorem token_of_getPeerInfo (hi : s.Inv SHA1) {t : Option Bytes}
    (h : s.maps.getPeerInfo t = some p) : t = some (SHA1 (s.peerName p)).token := by
  have hlt := hi.peer_lt h
  unfold PeerMaps.getPeerInfo at h
  rw [hi.maps.ids] at h
  obtain ⟨hp, ht, -⟩ := List.findIdx?_eq_some_iff_getElem.1 h
  have hname : (s.maps.peers.map PeerInfo.name)[p] = s.peerName p := by
    simp [peerName, List.getElem?_eq_getElem hlt]
  rw [hname, decide_eq_true_eq] at ht
  cases t with
  | none => exact absurd ht (token_ne_nil _)
  | some t => rw [ht]; rfl

/-- `peer_name_map_` leads to the `PeerInfo` of the name. -/
theorem name_of_find (hi : s.Inv SHA1) {n : Bytes} (h : s.maps.peerNameMap.find? n = some p) :
    s.peerName p = n := by
  rw [hi.maps.byName] at h
  obtain ⟨hp, hn, -⟩ := List.findIdx?_eq_some_iff_getElem.1 h
  have hlt : p < s.maps.peers.length := by simpa using hp
  simpa [peerName, List.getElem?_eq_getElem hlt] using hn

/-- The receiver of a message is a stream of the user that it is addressed to. -/
theorem receiver_spec (hi : s.Inv SHA1) {m : Registry.Message} (h : s.receiver m = some j) :
    ∃ q, s.peerOf j = some q ∧ s.peerName q = m.peerId ∧ s.hasWriter j = true := by
  obtain ⟨q, hq, hw⟩ := Option.bind_eq_some_iff.1 h
  obtain ⟨hp, hh⟩ := hi.pointer q j hw
  exact ⟨q, hp, name_of_find hi hq, hh⟩

/-! ## What the writers were given -/

theorem given_setMsg (m : Registry.Message) (c : Call) : (c.setMsg m).given = c.given := rfl

theorem given_write {c : Call} (hi : c.Inv) (hw : c.writer.isSome = true) (m : Relayed) :
    (c.write m).given = c.given ++ [m] := by
  obtain ⟨w, hw⟩ := Option.isSome_iff_exists.1 hw
  simp only [Call.write, hw, Call.given, Call.give, Option.map_some, Option.getD_some,
    List.append_assoc, PeerMessageWriter.write_pending (hi.queue w hw)]

theorem given_relay (hi : s.Inv SHA1) (i p : Nat) (m : Registry.Message) (k : Nat) :
    (s.relay i p m).given k =
      if s.receiver m = some k then
        s.given k ++ [⟨{ m with peerId := s.peerName p }, s.reads.length⟩]
      else s.given k := by
  have hmsg : ∀ (t : Server) (m : Registry.Message),
      (t.modifyCall i (Call.setMsg m)).given k = t.given k := fun t m =>
    view_modifyCall_of_eq (given_setMsg m)
  unfold relay
  cases hr : s.receiver m with
  | none =>
    simp only [reduceCtorEq, if_false]
    exact hmsg s m
  | some j =>
    simp only [Option.some.injEq]
    generalize hm' : ({ m with peerId := s.peerName p } : Registry.Message) = m'
    -- the server with `msg_` changed, before the writer is called
    generalize ht : ({ s.modifyCall i (Call.setMsg m) with reads := s.reads ++ [(i, m)] } :
      Server).modifyCall i (Call.setMsg m') = t
    have hgiven : t.given k = s.given k := by
      rw [← ht]
      exact (hmsg _ m').trans (hmsg s m)
    have hcalls : ∀ c ∈ t.calls, c.Inv := by
      rw [← ht]
      have hkeeps : ∀ m (c : Call), c.Inv → (c.setMsg m).Inv := fun m c hc => Call.inv_setMsg hc m
      exact Slots.forall_mem_modify_of_keeps (hkeeps m')
        (Slots.forall_mem_modify_of_keeps (hkeeps m) hi.calls i) i
    have hw : t.hasWriter j = true := by
      obtain ⟨q, -, -, hw⟩ := receiver_spec hi hr
      rw [← ht]
      have hkeeps : ∀ (t : Server) (m : Registry.Message),
          (t.modifyCall i (Call.setMsg m)).hasWriter j = t.hasWriter j := fun t m =>
        view_modifyCall_of_eq fun _ => rfl
      exact ((hkeeps _ m').trans (hkeeps s m)).trans hw
    obtain ⟨c, hc, hcw⟩ : ∃ c, t.calls[j]? = some c ∧ c.writer.isSome = true := by
      unfold hasWriter view at hw
      cases hc : t.calls[j]? with
      | none => simp [hc] at hw
      | some c => exact ⟨c, rfl, by simpa [hc] using hw⟩
    rw [← hgiven]
    refine (view_modifyCall hc).trans ?_
    by_cases hk : k = j
    · subst hk
      simp only [if_true, given_write (hcalls c (List.mem_of_getElem? hc)) hcw]
      rw [given, view_of_some hc]
    · simp only [hk, Ne.symm hk, if_false]
      rfl

/-! ## Where it comes from -/

/-- The message stems from a `Read` of a stream, was addressed to the owner of stream
`k`, and carries the name of the owner of the stream it was read from. -/
def FromRead (s : Server) (k : Nat) (r : Relayed) : Prop :=
  ∃ i m p q, s.reads[r.read]? = some (i, m) ∧ s.peerOf i = some p ∧ s.peerOf k = some q ∧
    m.peerId = s.peerName q ∧ r.msg = { m with peerId := s.peerName p }

/-- Different names have different tokens. -/
def Distinct (SHA1 : Bytes → Digest) (s : Server) : Prop :=
  ∀ m ∈ s.names, ∀ n ∈ s.names, (SHA1 m).token = (SHA1 n).token → m = n

structure Delivered (SHA1 : Bytes → Digest) (s : Server) : Prop where
  valid : ∀ k p, s.peerOf k = some p → p < s.maps.peers.length
  opened : ∀ k p, s.peerOf k = some p → s.tokenOf k = some (SHA1 (s.peerName p)).token
  source : ∀ k, ∀ r ∈ s.given k, s.FromRead k r
  order : ∀ k, ((s.given k).map Relayed.read).Pairwise (· < ·)
  once : ∀ k l, ∀ r ∈ s.given k, ∀ r' ∈ s.given l, r.read = r'.read → k = l

theorem Delivered.read_lt (hd : s.Delivered SHA1) {r : Relayed} (h : r ∈ s.given k) :
    r.read < s.reads.length := by
  obtain ⟨i, m, p, q, hr, -⟩ := hd.source k r h
  exact (List.getElem?_eq_some_iff.1 hr).1

theorem prefix_of_eq {α : Type} {l l' : List α} (h : l = l') : l <+: l' := h ▸ List.prefix_refl l

theorem FromRead.mono {r : Relayed} (h : s.FromRead k r) (hr : s.reads <+: s'.reads)
    (hp : ∀ k p, s.peerOf k = some p → s'.peerOf k = some p ∧ s'.peerName p = s.peerName p) :
    s'.FromRead k r := by
  obtain ⟨i, m, p, q, h1, h2, h3, h4, h5⟩ := h
  obtain ⟨hpi, hpn⟩ := hp i p h2
  obtain ⟨hqk, hqn⟩ := hp k q h3
  refine ⟨i, m, p, q, ?_, hpi, hqk, by rw [hqn]; exact h4, by rw [hpn]; exact h5⟩
  obtain ⟨l, hl⟩ := hr
  rw [← hl]
  exact Slots.getElem?_append_of_some h1

/-- Nothing new is given to a writer. -/
theorem Delivered.keeps (hd : s.Delivered SHA1)
    (hv : ∀ k p, s'.peerOf k = some p → p < s'.maps.peers.length)
    (ho : ∀ k p, s'.peerOf k = some p → s'.tokenOf k = some (SHA1 (s'.peerName p)).token)
    (hr : s.reads <+: s'.reads)
    (hp : ∀ k p, s.peerOf k = some p → s'.peerOf k = some p ∧ s'.peerName p = s.peerName p)
    (hg : ∀ k, s'.given k <+: s.given k) : s'.Delivered SHA1 where
  valid := hv
  opened := ho
  source k r h := (hd.source k r ((hg k).subset h)).mono hr hp
  order k := (hd.order k).sublist ((hg k).sublist.map _)
  once k l r h r' h' := hd.once k l r ((hg k).subset h) r' ((hg l).subset h')

/-- The streams and the `PeerInfo`s stay as they are, too. -/
theorem Delivered.keeps_all (hd : s.Delivered SHA1) (hr : s'.reads = s.reads)
    (hn : s'.names = s.names) (hp : ∀ k, s'.peerOf k = s.peerOf k)
    (ht : ∀ k, s'.tokenOf k = s.tokenOf k) (hg : ∀ k, s'.given k <+: s.given k) :
    s'.Delivered SHA1 := by
  have hlen : s'.maps.peers.length = s.maps.peers.length := by
    have := congrArg List.length hn
    simpa [names] using this
  have hname : ∀ p, s'.peerName p = s.peerName p := fun p => by
    have : s'.names[p]? = s.names[p]? := by rw [hn]
    simp only [names, List.getElem?_map] at this
    unfold peerName
    rw [this]
  refine hd.keeps (fun k p h => ?_) (fun k p h => ?_)
    (prefix_of_eq hr.symm) (fun k p h => ⟨by rw [hp]; exact h, hname p⟩) hg
  · rw [hlen]
    exact hd.valid k p (by rw [← hp]; exact h)
  · rw [ht, hname]
    exact hd.opened k p (by rw [← hp]; exact h)

theorem delivered_logsIn (hd : s.Delivered SHA1) (inp : Input) (r : Response) :
    (({ s.accept .login with maps := (s.maps.handleLogin SHA1 inp.name).1 } : Server).modifyCall
      i (Call.finish r)).Delivered SHA1 := by
  generalize hs' : (({ s.accept .login with maps := (s.maps.handleLogin SHA1 inp.name).1 } :
    Server).modifyCall i (Call.finish r)) = s'
  have hpeers : s'.maps.peers = s.maps.peers ++ [⟨inp.name, none⟩] := by rw [← hs']; rfl
  have hpeer : ∀ k, s'.peerOf k = s.peerOf k := fun k => by
    rw [← hs']
    show ((s.accept .login).modifyCall i (Call.finish r)).peerOf k = _
    exact view_accept_modify rfl fun _ => rfl
  have htoken : ∀ k, s'.tokenOf k = s.tokenOf k := fun k => by
    rw [← hs']
    show ((s.accept .login).modifyCall i (Call.finish r)).tokenOf k = _
    exact view_accept_modify rfl fun _ => rfl
  have hgiven : ∀ k, s'.given k = s.given k := fun k => by
    rw [← hs']
    show ((s.accept .login).modifyCall i (Call.finish r)).given k = _
    exact view_accept_modify rfl fun _ => rfl
  have hname : ∀ p < s.maps.peers.length, s'.peerName p = s.peerName p := fun p hp => by
    unfold peerName
    rw [hpeers, List.getElem?_append_left hp]
  refine hd.keeps (fun k p h => ?_) (fun k p h => ?_) (prefix_of_eq (by rw [← hs']; rfl))
    (fun k p h => ⟨by rw [hpeer]; exact h, hname p (hd.valid k p h)⟩)
    fun k => prefix_of_eq (hgiven k)
  · rw [hpeer] at h
    have := hd.valid k p h
    rw [hpeers, List.length_append]
    omega
  · rw [hpeer] at h
    rw [htoken, hname p (hd.valid k p h)]
    exact hd.opened k p h

theorem delivered_opens (hi : s.Inv SHA1) (hd : s.Delivered SHA1) {c : Call} {inp : Input}
    (hc : s.calls[i]? = some c) (hp : c.ctx.peer = none)
    (hg : s.maps.getPeerInfo inp.token = some p) :
    Delivered SHA1
      { ((s.accept .switchMessages).modifyCall i (Call.startStream p inp.token)).setWriter p
        (some i) with opened := s.opened ++ [(p, i)] } := by
  have hci := hi.calls c (List.mem_of_getElem? hc)
  generalize hs' : ({ ((s.accept .switchMessages).modifyCall i
    (Call.startStream p inp.token)).setWriter p (some i) with
    opened := s.opened ++ [(p, i)] } : Server) = s'
  have hnames : s'.names = s.names := by
    rw [← hs']
    exact setWriter_names (s := s) (some i)
  have hname : ∀ p, s'.peerName p = s.peerName p := fun p => by
    have : s'.names[p]? = s.names[p]? := by rw [hnames]
    simp only [names, List.getElem?_map] at this
    unfold peerName
    rw [this]
  have hlen : s'.maps.peers.length = s.maps.peers.length := by
    have := congrArg List.length hnames
    simpa [names] using this
  have hpeer : ∀ k, s'.peerOf k = if k = i then some p else s.peerOf k := fun k => by
    rw [← hs']
    exact view_accept_modify_at rfl hc
  have htoken : ∀ k, s'.tokenOf k = if k = i then inp.token else s.tokenOf k := fun k => by
    rw [← hs']
    exact view_accept_modify_at rfl hc
  have hgiven : ∀ k, s'.given k = s.given k := fun k => by
    rw [← hs']
    refine (view_accept_modify_at rfl hc).trans ?_
    split
    · rename_i hk
      rw [hk, given, view_of_some hc]
      simp [Call.given, Call.startStream, Call.openStream, Call.setStatus, hci.writer hp,
        hci.written hp, PeerMessageWriter.new, PeerMessageWriter.pending]
    · rfl
  have hold : s.peerOf i = none := (view_of_some hc).trans hp
  refine hd.keeps (fun k q h => ?_) (fun k q h => ?_)
    (prefix_of_eq (by rw [← hs']; rfl)) (fun k q h => ⟨?_, hname q⟩)
    fun k => prefix_of_eq (hgiven k)
  · rw [hlen]
    rw [hpeer] at h
    split at h
    · cases h
      exact hi.peer_lt hg
    · exact hd.valid k q h
  · rw [htoken, hname]
    rw [hpeer] at h
    split at h
    · rename_i hk
      cases h
      rw [if_pos hk]
      exact token_of_getPeerInfo hi hg
    · rename_i hk
      rw [if_neg hk]
      exact hd.opened k q h
  · rw [hpeer, if_neg]
    · exact h
    · rintro rfl
      rw [hold] at h
      cases h

theorem delivered_relay (hi : s.Inv SHA1) (hd : s.Delivered SHA1) (hp : s.peerOf i = some p)
    (m : Registry.Message) : (s.relay i p m).Delivered SHA1 := by
  have hgiven := given_relay hi i p m
  have hmaps := relay_maps (s := s) (i := i) (p := p) m
  have hreads : (s.relay i p m).reads = s.reads ++ [(i, m)] := relay_reads m
  have hpeer : ∀ k, (s.relay i p m).peerOf k = s.peerOf k := fun k =>
    view_relay (fun _ _ => rfl) write_peer m
  have htoken : ∀ k, (s.relay i p m).tokenOf k = s.tokenOf k := fun k =>
    view_relay (fun _ _ => rfl) (fun m c => by unfold Call.write; split <;> rfl) m
  generalize s.relay i p m = s' at *
  have hname : ∀ p, s'.peerName p = s.peerName p := fun p => by unfold peerName; rw [hmaps]
  -- the message that is read now has the next number
  have hnew : ∀ k, ∀ r ∈ s'.given k, r ∈ s.given k ∨
      (s.receiver m = some k ∧ r = ⟨{ m with peerId := s.peerName p }, s.reads.length⟩) := by
    intro k r hr
    rw [hgiven] at hr
    split at hr
    · rename_i hrec
      rcases List.mem_append.1 hr with hr | hr
      · exact .inl hr
      · exact .inr ⟨hrec, List.mem_singleton.1 hr⟩
    · exact .inl hr
  refine ⟨fun k q h => ?_, fun k q h => ?_, fun k r hr => ?_, fun k => ?_,
    fun k l r hr r' hr' h => ?_⟩
  · rw [hmaps]
    exact hd.valid k q (by rw [← hpeer]; exact h)
  · rw [htoken, hname]
    exact hd.opened k q (by rw [← hpeer]; exact h)
  · rcases hnew k r hr with hr | ⟨hrec, rfl⟩
    · refine (hd.source k r hr).mono ?_ fun k p h => ⟨by rw [hpeer]; exact h, hname p⟩
      rw [hreads]
      exact List.prefix_append _ _
    · obtain ⟨q, hq, hqn, -⟩ := receiver_spec hi hrec
      refine ⟨i, m, p, q, ?_, by rw [hpeer]; exact hp, by rw [hpeer]; exact hq,
        by rw [hname]; exact hqn.symm, by rw [hname]⟩
      rw [hreads]
      simp
  · rw [hgiven]
    split
    · rw [List.map_append]
      refine List.pairwise_append.2 ⟨hd.order k, List.pairwise_singleton _ _, ?_⟩
      intro x hx y hy
      obtain ⟨r, hr, rfl⟩ := List.mem_map.1 hx
      rw [List.mem_singleton.1 hy]
      exact hd.read_lt hr
    · exact hd.order k
  · rcases hnew k r hr with hr | ⟨hrec, rfl⟩ <;> rcases hnew l r' hr' with hr' | ⟨hrec', rfl⟩
    · exact hd.once k l r hr r' hr' h
    · exact absurd h (Nat.ne_of_lt (hd.read_lt hr))
    · exact absurd h.symm (Nat.ne_of_lt (hd.read_lt hr'))
    · rw [hrec] at hrec'
      exact Option.some.inj hrec'

theorem delivered_effect (hi : s.Inv SHA1) (hd : s.Delivered SHA1) (he : Effect SHA1 s e s') :
    s'.Delivered SHA1 := by
  cases he with
  | @fails i inp c h hc hh =>
    exact hd.keeps_all rfl rfl (fun k => view_accept_modify rfl fun _ => rfl)
      (fun k => view_accept_modify rfl fun _ => rfl)
      fun k => prefix_of_eq (view_accept_modify rfl fun _ => rfl)
  | @logsIn i inp c h hc hh hp hs hm =>
    exact delivered_logsIn hd inp _
  | @answers i inp c h r hc hh hp =>
    exact hd.keeps_all rfl rfl (fun k => view_accept_modify rfl fun _ => rfl)
      (fun k => view_accept_modify rfl fun _ => rfl)
      fun k => prefix_of_eq (view_accept_modify rfl fun _ => rfl)
  | @opens i inp c h p hc hh hp hm hg => exact delivered_opens hi hd hc hp hg
  | @relays i inp c h p hc hh hp => exact delivered_relay hi hd ((view_of_some hc).trans hp) inp.msg
  | @finishes i inp c h hc hh hp =>
    exact hd.keeps_all rfl rfl (fun k => view_modifyCall_of_eq fun _ => rfl)
      (fun k => view_modifyCall_of_eq fun _ => rfl)
      fun k => prefix_of_eq (view_modifyCall_of_eq fun _ => rfl)
  | @wrote i c w hc hw hr =>
    refine hd.keeps_all rfl rfl (fun k => view_modifyCall_of_eq fun _ => rfl)
      (fun k => view_modifyCall_of_eq fun _ => rfl) fun k => prefix_of_eq ?_
    refine (view_modifyCall hc).trans ?_
    split
    · rename_i hk
      rw [hk, given, view_of_some hc]
      simp only [Call.given, Call.give, hw, Option.map_some, Option.getD_some, List.append_assoc,
        PeerMessageWriter.wrote_pending hr]
    · rfl
  | @writeFails i c w p hc hw hr hp =>
    refine hd.keeps_all rfl (setWriter_names none) (fun k => view_modifyCall_of_eq fun _ => rfl)
      (fun k => view_modifyCall_of_eq fun _ => rfl) fun k => ?_
    rw [show ((s.modifyCall i Call.deleteWriter).setWriter p none).given k =
      if k = i then c.deleteWriter.given else s.given k from view_modifyCall hc]
    split
    · rename_i hk
      rw [hk, given, view_of_some hc]
      simp [Call.given, Call.deleteWriter]
    · exact List.prefix_refl _

theorem delivered_inductive (SHA1 : Bytes → Digest) :
    (lts SHA1).Inductive fun s => s.Inv SHA1 ∧ s.Delivered SHA1 := by
  refine (inv_inductive SHA1).and ?_ ?_
  · rintro s rfl
    have hview : ∀ (k : Nat) (c : Call), Server.new.calls[k]? = some c →
        c.ctx.peer = none ∧ c.given = [] := by
      intro k c hc
      have hmem := List.mem_of_getElem? hc
      simp only [new, accept, List.nil_append, List.cons_append, List.mem_cons, List.not_mem_nil,
        or_false] at hmem
      rcases hmem with rfl | rfl | rfl <;> exact ⟨rfl, rfl⟩
    have hpeer : ∀ k p, new.peerOf k ≠ some p := by
      intro k p h
      obtain ⟨c, hc, hcp⟩ := view_eq_some.1 h
      rw [(hview k c hc).1] at hcp
      cases hcp
    have hgiven : ∀ k, new.given k = [] := by
      intro k
      unfold given view
      cases hc : new.calls[k]? with
      | none => rfl
      | some c => exact (hview k c hc).2
    refine ⟨fun k p h => absurd h (hpeer k p), fun k p h => absurd h (hpeer k p),
      fun k r hr => ?_, fun k => ?_, fun k l r hr => ?_⟩
    · rw [hgiven] at hr
      cases hr
    · rw [hgiven]
      exact .nil
    · rw [hgiven] at hr
      cases hr
  · intro s e s' hi _ hd hs
    exact delivered_effect hi hd (effect_of_step hi hs)

theorem names_relay (m : Registry.Message) : (s.relay i p m).names = s.names := by
  unfold names
  rw [relay_maps]

theorem distinct_effect (hd : s.Distinct SHA1) (he : Effect SHA1 s e s')
    (hf : FreshToken SHA1 s e) : s'.Distinct SHA1 := by
  cases he with
  | fails => exact hd
  | @logsIn i inp c h hc hh hp hs hm =>
    have hfresh := hf h (view_eq_some.2 ⟨c, hc, hh⟩) hs hm
    have hnames : (({ s.accept .login with maps := (s.maps.handleLogin SHA1 inp.name).1 } :
        Server).modifyCall i (Call.finish (.accessToken
          (s.maps.handleLogin SHA1 inp.name).2))).names = s.names ++ [inp.name] := by
      simp [names, PeerMaps.handleLogin]
    intro m hm n hn h
    rw [hnames, List.mem_append, List.mem_singleton] at hm hn
    rcases hm with hm | rfl <;> rcases hn with hn | rfl
    · exact hd m hm n hn h
    · exact hfresh m hm h
    · exact (hfresh n hn h.symm).symm
    · rfl
  | answers => exact hd
  | @opens i inp c h p =>
    have hnames := setWriter_names (s := s) (p := p) (some i)
    unfold Distinct names at hd ⊢
    rwa [← hnames] at hd
  | relays =>
    unfold Distinct at hd ⊢
    rwa [names_relay]
  | finishes => exact hd
  | wrote => exact hd
  | @writeFails i c w p =>
    have hnames := setWriter_names (s := s) (p := p) none
    unfold Distinct names at hd ⊢
    rwa [← hnames] at hd

theorem distinct_inductive (SHA1 : Bytes → Digest) :
    ((lts SHA1).guard (FreshToken SHA1)).Inductive fun s => s.Inv SHA1 ∧ s.Distinct SHA1 := by
  refine (inv_inductive SHA1).of_guard.and ?_ ?_
  · rintro s rfl m ⟨⟩
  · intro s e s' hi _ hd hs
    exact distinct_effect hd (effect_of_step hi hs.1) hs.2

/-! ## The messages on the streams -/

/-- What is promised of the messages written to the streams. -/
structure RelayCorrect (SHA1 : Bytes → Digest) (s : Server) : Prop where
  /-- a message on a stream of `D` was read from a stream of some `S`, was addressed to
  `D`, and now carries the name of `S` -/
  source : ∀ D ∈ s.names, ∀ k, s.tokenOf k = some (SHA1 D).token → ∀ r ∈ s.written k,
    ∃ i m, s.reads[r.read]? = some (i, m) ∧ m.peerId = D ∧
      ∃ S ∈ s.names, s.tokenOf i = some (SHA1 S).token ∧ r.msg = { m with peerId := S }
  /-- no message that was read is written twice -/
  once : ((List.range s.calls.length).flatMap fun k => (s.written k).map Relayed.read).Nodup
  order : ∀ k, ((s.written k).map Relayed.read).Pairwise (· < ·)

theorem written_given (s : Server) (k : Nat) : s.written k <+: s.given k := by
  unfold written given view
  cases s.calls[k]? with
  | none => exact List.prefix_refl _
  | some c => exact List.prefix_append _ _

theorem Delivered.relayCorrect (hd : s.Delivered SHA1) (hn : s.Distinct SHA1) :
    s.RelayCorrect SHA1 := by
  have hsub : ∀ k, s.written k <+: s.given k := s.written_given
  have horder : ∀ k, ((s.written k).map Relayed.read).Pairwise (· < ·) := fun k =>
    (hd.order k).sublist ((hsub k).sublist.map _)
  refine ⟨fun D hD k hk r hr => ?_, ?_, horder⟩
  · obtain ⟨i, m, p, q, h1, h2, h3, h4, h5⟩ := hd.source k r ((hsub k).subset hr)
    refine ⟨i, m, h1, ?_, s.peerName p, peerName_mem (hd.valid i p h2), hd.opened i p h2, h5⟩
    have htok := hd.opened k q h3
    rw [hk, Option.some.injEq] at htok
    rw [h4]
    exact (hn D hD _ (peerName_mem (hd.valid k q h3)) htok).symm
  · refine List.nodup_flatMap.2 ⟨fun k _ => (horder k).imp fun h => Nat.ne_of_lt h, ?_⟩
    refine List.nodup_range.imp fun {k l} hkl => ?_
    apply List.disjoint_left.2
    intro x hx hy
    obtain ⟨r, hr, rfl⟩ := List.mem_map.1 hx
    obtain ⟨r', hr', h'⟩ := List.mem_map.1 hy
    exact hkl (hd.once k l r ((hsub k).subset hr) r' ((hsub l).subset hr') h'.symm)

theorem relay_delivers (SHA1 : Bytes → Digest) {s : Server}
    (hr : ((lts SHA1).guard (FreshToken SHA1)).Reachable s) : s.RelayCorrect SHA1 :=
  ((delivered_inductive SHA1).reachable hr.of_guard).2.relayCorrect
    ((distinct_inductive SHA1).reachable hr).2

/-- "a" and "b" log in and open their streams; then "a" sends two messages to "b", the
second one while the first one is being written. -/
def twoStreams : List Event :=
  [.call 0 true (.credential [97]), .call 3 true (.credential [98]),
    .call 2 true (.metadata (Digest.sample [97]).token),
    .call 5 true (.metadata (Digest.sample [98]).token),
    .call 2 true (.message ⟨[98], .text, [1]⟩), .call 2 true (.message ⟨[98], .text, [2]⟩),
    .writer 5 true]

theorem relay_delivers_twoStreams :
    ∃ s : Server, s.written 5 = [⟨⟨[97], .text, [1]⟩, 0⟩, ⟨⟨[97], .text, [2]⟩, 1⟩] ∧
      s.RelayCorrect .sample := by
  have hrun : ∃ s, ((lts .sample).guard (FreshToken .sample)).Reachable s ∧
      s.written 5 = [⟨⟨[97], .text, [1]⟩, 0⟩, ⟨⟨[97], .text, [2]⟩, 1⟩] :=
    LTS.exists_reachable_of_execGuard twoStreams rfl (by decide +kernel)
  obtain ⟨s, hr, hw⟩ := hrun
  exact ⟨s, hw, relay_delivers .sample hr⟩

end Server
end ShadowTalk.Grpc
