import ShadowTalk.Grpc.Order

/-!
# Who is there

A client that has its token may ask for the names that have logged in. The server answers
with one name for each key of `peer_id_map_`.

* `Server.peerNames_nodup`, `Server.mem_peerNames`: the answer names, once each, who logged in
  first with a token.
* `Server.peerNames_complete_iff`: it names everybody if and only if no two names share a
  token.
* `Chat.list_answered`: a user that has got a token is never turned away, and the list stays
  what it was until the callback gets it.
-/
namespace ShadowTalk.Grpc
open ShadowTalk.Core

/-- What the callback of a `ListPeerCall` gets when its `Finish` is done. It is not called if
`status_` is not OK: the server has refused, or its response has not `arrived`.
mirrors client/GRPCClient.cpp:83-97 -/
def ListPeerCall.finished (qt : Qt) (arrived : Bool) (response : Response) :
    Option (List QString) :=
  match arrived, response with
  | true, .peerList names => some (names.map qt.fromStdString)
  | _, _ => none

/-! ## The answer -/

namespace Server

variable {SHA1 : Bytes → Digest} {s s' : Server} {i : Nat} {inp : Input} {n : Bytes}

/-- One name for each entry of `peer_id_map_`. -/
def peerNames (s : Server) : List Bytes := s.maps.peerIdMap.entries.map fun e => s.peerName e.2

/-- `n` has logged in before every other name with its token. -/
def First (SHA1 : Bytes → Digest) (s : Server) (n : Bytes) : Prop :=
  ∃ p : Nat, s.names[p]? = some n ∧
    ∀ q < p, ∀ m, s.names[q]? = some m → (SHA1 m).token ≠ (SHA1 n).token

/-- The entries of `peer_id_map_` are those of the first names with their tokens. -/
theorem mem_peerIdMap (hi : s.Inv SHA1) {k : Bytes} {p : Nat} :
    (k, p) ∈ s.maps.peerIdMap.entries ↔
      (∃ n, s.names[p]? = some n ∧ (SHA1 n).token = k) ∧
        ∀ q < p, ∀ m, s.names[q]? = some m → (SHA1 m).token ≠ k := by
  rw [← OMap.find?_eq_some, hi.maps.ids]
  change s.names.findIdx? _ = some p ↔ _
  rw [List.findIdx?_eq_some_iff_getElem]
  simp only [decide_eq_true_eq]
  constructor
  · rintro ⟨hp, htok, hfirst⟩
    refine ⟨⟨_, List.getElem?_eq_getElem hp, htok⟩, fun q hq m hm => ?_⟩
    obtain ⟨hlt, rfl⟩ := List.getElem?_eq_some_iff.1 hm
    exact hfirst q hq
  · rintro ⟨⟨n, hn, htok⟩, hfirst⟩
    obtain ⟨hp, rfl⟩ := List.getElem?_eq_some_iff.1 hn
    exact ⟨hp, htok, fun q hq => hfirst q hq _ (List.getElem?_eq_getElem (hq.trans hp))⟩

theorem peerName_eq {p : Nat} (h : s.names[p]? = some n) : s.peerName p = n := by
  rw [names, List.getElem?_map] at h
  rw [peerName, h, Option.getD_some]

/-- The name of an entry has the token of the entry. -/
theorem token_of_entry (hi : s.Inv SHA1) {e : Bytes × Nat} (he : e ∈ s.maps.peerIdMap.entries) :
    s.peerName e.2 ∈ s.names ∧ (SHA1 (s.peerName e.2)).token = e.1 := by
  obtain ⟨⟨n, hn, htok⟩, -⟩ := (mem_peerIdMap (k := e.1) (p := e.2) hi).1 he
  rw [peerName_eq hn]
  exact ⟨List.mem_of_getElem? hn, htok⟩

theorem peerNames_nodup (hi : s.Inv SHA1) : s.peerNames.Nodup := by
  refine List.pairwise_map.2 (s.maps.peerIdMap.sorted.imp_of_mem fun {a b} ha hb hlt heq => ?_)
  rw [← (token_of_entry hi ha).2, ← (token_of_entry hi hb).2, heq] at hlt
  exact lt_irrefl _ hlt

theorem mem_peerNames (hi : s.Inv SHA1) : n ∈ s.peerNames ↔ s.First SHA1 n := by
  constructor
  · intro hlisted
    obtain ⟨⟨k, p⟩, he, rfl⟩ := List.mem_map.1 hlisted
    obtain ⟨⟨m, hm, rfl⟩, hfirst⟩ := (mem_peerIdMap hi).1 he
    rw [peerName_eq hm]
    exact ⟨p, hm, hfirst⟩
  · rintro ⟨p, hn, hfirst⟩
    exact List.mem_map.2 ⟨⟨_, p⟩, (mem_peerIdMap hi).2 ⟨⟨n, hn, rfl⟩, hfirst⟩, peerName_eq hn⟩

/-- Everybody's token is listed under some name. -/
theorem exists_listed (hi : s.Inv SHA1) (hn : n ∈ s.names) :
    ∃ m ∈ s.peerNames, (SHA1 m).token = (SHA1 n).token := by
  cases hf : s.maps.peerIdMap.find? (SHA1 n).token with
  | none =>
    rw [hi.maps.ids] at hf
    have hno := List.findIdx?_eq_none_iff.1 hf n hn
    simp at hno
  | some p =>
    have he := OMap.find?_eq_some.1 hf
    exact ⟨s.peerName p, List.mem_map_of_mem he, (token_of_entry hi he).2⟩

theorem peerNames_complete_iff (hi : s.Inv SHA1) :
    (∀ n ∈ s.names, n ∈ s.peerNames) ↔ s.Distinct SHA1 := by
  constructor
  · intro h m hm n hn htok
    obtain ⟨x, hx, rfl⟩ := List.mem_map.1 (h m hm)
    obtain ⟨y, hy, rfl⟩ := List.mem_map.1 (h n hn)
    -- the two entries have one key
    rw [(token_of_entry hi hx).2, (token_of_entry hi hy).2] at htok
    have hsame : x.2 = y.2 :=
      OMap.key_unique (m := s.maps.peerIdMap) (k := x.1) hx (by rw [htok]; exact hy)
    rw [hsame]
  · intro hd n hn
    obtain ⟨m, hm, htok⟩ := exists_listed hi hn
    obtain ⟨e, he, rfl⟩ := List.mem_map.1 hm
    rwa [← hd _ (token_of_entry hi he).1 n hn htok]

/-- The answer to a request with the token of a name. -/
theorem list_spec (hi : s.Inv SHA1) (hw : s.hasStatus i .receivedRequest = true)
    (hm : (s.handler? i).any (·.method = .listPeers) = true)
    (hs : step SHA1 s (.call i true inp) = some s') (hn : n ∈ s.names)
    (htok : inp.token = some (SHA1 n).token) :
    s'.waits i = false ∧ s'.view Call.response none i = some (.peerList s.peerNames) := by
  obtain ⟨c, h, hc, hh, hst, hm, -, -⟩ := waiting_handler hi hw hm
  have hstep : step SHA1 s (.call i true inp) = some (proceed SHA1 s i h true inp) :=
    Option.map_eq_some_iff.2 ⟨h, view_eq_some.2 ⟨c, hc, hh⟩, rfl⟩
  obtain ⟨p, hp⟩ : ∃ p, s.maps.getPeerInfo inp.token = some p := by
    rw [htok]
    obtain ⟨m, hm, htok⟩ := exists_listed hi hn
    obtain ⟨e, he, rfl⟩ := List.mem_map.1 hm
    rw [← htok, (token_of_entry hi he).2]
    exact ⟨e.2, OMap.find?_eq_some.2 he⟩
  have hanswer : (s.accept .listPeers).listPeers inp.token = .peerList s.peerNames := by
    simp only [listPeers, accept_maps, hp]
    rfl
  rw [hstep, Option.some.injEq] at hs
  unfold proceed at hs
  simp only [Bool.not_true, Bool.false_eq_true, if_false, hst, handleRequest, hm, if_true,
    modifyCall_modifyCall, hanswer] at hs
  subst hs
  refine ⟨?_, ?_⟩
  · show ((s.accept .listPeers).modifyCall i (Call.finish _)).waits i = false
    exact (view_kept_at kept_waits hc).trans (waits_finish hh _)
  · show ((s.accept .listPeers).modifyCall i (Call.finish _)).view Call.response none i = _
    exact view_kept_at kept_response hc

end Server

/-! ## The client that asks -/

namespace Chat

variable {qt : Qt} {SHA1 : Bytes → Digest} {s s' : Chat} {i : Nat} {u : User} {q : QString}

/-- An answer stays as it is. -/
theorem response_stays {r : Option Response} {ls : List Label} {a b : Chat}
    (hr : (lts qt SHA1).Run a ls b) (hi : a.Inv qt SHA1) (hw : a.server.waits i = false)
    (hv : a.server.view Call.response none i = r) : b.server.view Call.response none i = r := by
  refine (LTS.run_invariant (P := fun t => t.Inv qt SHA1 ∧ t.server.waits i = false ∧
    t.server.view Call.response none i = r) ?_ hr ⟨hi, hw, hv⟩).2.2
  rintro t l t' ⟨hit, hwt, hvt⟩ hs
  refine ⟨inv_step hit hs, ?_⟩
  rcases step_parts hs with ⟨-, he⟩ | ⟨e, -, hst⟩
  · rw [he]
    exact ⟨hwt, hvt⟩
  · have hwait := Server.view_settled Server.kept_waits hit.server hst hwt
    exact ⟨hwait.trans hwt,
      (Server.view_settled Server.kept_response hit.server hst hwt).trans hvt⟩

/-- A user that has a token and asks who is there gets, however long the answer takes, the
first name of every token, each of them once; that is everybody if no two names share a token,
and only then. If the answer is lost on the way he gets nothing. -/
theorem list_answered (hq : ∀ d : Digest, qt.toStdString (qt.fromStdString d.token) = d.token)
    (hr : (lts qt SHA1).Reachable s) (hu : u ∈ s.users) (ht : u.token = some q)
    (hw : s.server.hasStatus i .receivedRequest = true)
    (hm : (s.server.handler? i).any (·.method = .listPeers) = true)
    (hs : step qt SHA1 s (.server (.call i true (.metadata (qt.toStdString q)))) = some s') :
    ∃ l : List Bytes, l.Nodup ∧ (∀ n, n ∈ l ↔ s.server.First SHA1 n) ∧
      ((∀ n ∈ s.server.names, n ∈ l) ↔ s.server.Distinct SHA1) ∧
      ∀ ls t, (lts qt SHA1).Run s' ls t → ∀ arrived,
        (t.server.view Call.response none i).bind (ListPeerCall.finished qt arrived) =
          if arrived then some (l.map qt.fromStdString) else none := by
  obtain ⟨hi, hnamed⟩ := (named_inductive qt SHA1).reachable hr
  obtain ⟨rfl, hname⟩ := (hnamed u hu).token q ht
  have hi' := inv_step hi hs
  simp only [step] at hs
  split at hs
  · obtain ⟨t, hst, rfl⟩ := Option.map_eq_some_iff.1 hs
    obtain ⟨hwait, hresp⟩ := Server.list_spec hi.server hw hm hst hname
      (by rw [Input.metadata, hq])
    refine ⟨s.server.peerNames, Server.peerNames_nodup hi.server,
      fun n => Server.mem_peerNames hi.server, Server.peerNames_complete_iff hi.server,
      fun ls t' hrun arrived => ?_⟩
    rw [response_stays hrun hi' hwait hresp]
    cases arrived <;> rfl
  · cases hs

/-- "a" and "b" have logged in, and "b" has its token. -/
def loggedInTrace : List Label := [.login 0 0, .login 1 3, .loggedIn 1]

theorem list_answered_loggedInTrace : ∃ s s' : Chat, ∃ l : List Bytes,
    (lts .ascii .sample).Reachable s ∧ s.server.names = [[97], [98]] ∧
      l.Nodup ∧ (∀ n ∈ s.server.names, n ∈ l) ∧
      (s'.server.view Call.response none 1).bind (ListPeerCall.finished .ascii true) =
        some (l.map Qt.ascii.fromStdString) := by
  have hrun : ∃ s, (lts .ascii .sample).Reachable s ∧
      ((s.users[1]?).bind User.token =
          some (Qt.ascii.fromStdString (Digest.sample [98]).token) ∧
        s.server.hasStatus 1 .receivedRequest = true ∧
        (s.server.handler? 1).any (·.method = .listPeers) = true ∧
        s.server.names = [[97], [98]] ∧
        (step .ascii .sample s (.server (.call 1 true (.metadata (Qt.ascii.toStdString
          (Qt.ascii.fromStdString (Digest.sample [98]).token)))))).isSome = true) :=
    LTS.exists_reachable_of_exec (s := ⟨.new, [.new [97], .new [98]]⟩) loggedInTrace
      ⟨rfl, by decide⟩ (by decide +kernel)
  obtain ⟨s, hr, ht, hw, hm, hnames, hstep⟩ := hrun
  obtain ⟨u, hu, ht⟩ := Option.bind_eq_some_iff.1 ht
  obtain ⟨s', hs⟩ := Option.isSome_iff_exists.1 hstep
  obtain ⟨l, hnodup, -, hall, hanswer⟩ :=
    list_answered ascii_token hr (List.mem_of_getElem? hu) ht hw hm hs
  refine ⟨s, s', l, hr, hnames, hnodup, hall.2 fun m hm n hn htok => ?_,
    hanswer [] s' (.nil s') true⟩
  rw [hnames] at hm hn
  have hdistinct : ∀ m ∈ [[97], [98]], ∀ n ∈ [[97], [98]],
      (Digest.sample m).token = (Digest.sample n).token → m = n := by decide
  exact hdistinct m hm n hn htok

end Chat
end ShadowTalk.Grpc
