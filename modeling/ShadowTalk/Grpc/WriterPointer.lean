import ShadowTalk.Grpc.ServerInv

/-!
# The writer pointer of a `PeerInfo`

`PeerInfo::writer_` is set when a stream is opened and cleared when a write
fails, on whichever stream of the `PeerInfo` that is.

* `tracks_step`: when a step keeps `Tracks`, the promise that the pointer follows
  the newest stream.
* `writer_tracks`: the exact condition on the steps of a run: a write may fail only
  on the newest stream or after it, and the last read failure must find the
  pointer cleared.
-/
namespace ShadowTalk.Grpc
open ShadowTalk.Core

namespace Server

variable {SHA1 : Bytes → Digest} {s s' : Server} {e : Event} {i p : Nat}

/-- Neither a read nor a write of stream `i` has been reported failed: a failure
deletes the handler or the writer. -/
def alive (s : Server) (i : Nat) : Bool :=
  s.view (fun c => c.handler.isSome && c.writer.isSome) false i

/-- The stream that was opened last for `PeerInfo` `p`. -/
def newest (s : Server) (p : Nat) : Option Nat := (s.opened.reverse.find? (·.1 = p)).map Prod.snd

/-- The pointer of every `PeerInfo` is that of its newest stream unless that stream has
failed, and it is null when all its streams have failed. -/
structure Tracks (s : Server) : Prop where
  newest : ∀ p i, s.newest p = some i → s.alive i = true → s.peerWriter p = some i
  gone : ∀ p, (∀ i, s.peerOf i = some p → s.alive i = false) → s.peerWriter p = none

/-- A write fails on the newest stream or after it has failed; a read failure leaves
another stream alive or finds the pointer null. -/
def FailsInOrder (s : Server) : Event → Prop
  | .call i false _ => ∀ p ∈ s.peerOf i,
      (∃ k < s.calls.length, k ≠ i ∧ s.peerOf k = some p ∧ s.alive k = true) ∨
        s.peerWriter p = none
  | .writer i false => ∀ p ∈ s.peerOf i, ∀ n ∈ s.newest p, n = i ∨ s.alive n = false
  | _ => True

instance (s : Server) (e : Event) : Decidable (FailsInOrder s e) := by
  unfold FailsInOrder
  split <;> infer_instance

theorem newest_append (h : s'.opened = s.opened ++ [(p, i)]) (q : Nat) :
    s'.newest q = if q = p then some i else s.newest q := by
  unfold newest
  rw [h, List.reverse_append, List.reverse_singleton, List.singleton_append, List.find?_cons]
  by_cases hq : p = q
  · simp [hq]
  · simp [hq, Ne.symm hq]

/-- The log of opened streams agrees with the streams. -/
def Logged (s : Server) : Prop := ∀ p i, (p, i) ∈ s.opened → s.peerOf i = some p

/-- Nothing that `Tracks` looks at changes. -/
structure Same (s s' : Server) : Prop where
  opened : s'.opened = s.opened
  writer : ∀ p, s'.peerWriter p = s.peerWriter p
  peer : ∀ k, s'.peerOf k = s.peerOf k
  alive : ∀ k, s'.alive k = s.alive k

theorem Same.tracks (h : Same s s') : s'.Tracks ↔ s.Tracks := by
  have hn : ∀ p, s'.newest p = s.newest p := fun p => by unfold newest; rw [h.opened]
  constructor
  · intro ht
    refine ⟨fun p i => ?_, fun p => ?_⟩
    · rw [← hn, ← h.alive, ← h.writer]; exact ht.newest p i
    · intro hall
      rw [← h.writer]
      exact ht.gone p fun i hi => by rw [h.alive]; exact hall i (by rw [← h.peer]; exact hi)
  · intro ht
    refine ⟨fun p i => ?_, fun p => ?_⟩
    · rw [hn, h.alive, h.writer]; exact ht.newest p i
    · intro hall
      rw [h.writer]
      exact ht.gone p fun i hi => by rw [← h.alive]; exact hall i (by rw [h.peer]; exact hi)

/-- What a step does to the streams and the pointers. -/
inductive PointerEffect (s : Server) : Event → Server → Prop
  | same {e : Event} {s' : Server} : Same s s' → FailsInOrder s e → PointerEffect s e s'
  | opens {e : Event} {s' : Server} {p i : Nat} : s.peerOf i = none →
      s'.opened = s.opened ++ [(p, i)] →
      (∀ q, s'.peerWriter q = if q = p then some i else s.peerWriter q) →
      (∀ k, s'.peerOf k = if k = i then some p else s.peerOf k) →
      (∀ k, s'.alive k = if k = i then true else s.alive k) → FailsInOrder s e →
      PointerEffect s e s'
  | readFails {i : Nat} {inp : Input} {s' : Server} {p : Nat} : s.peerOf i = some p →
      s'.opened = s.opened →
      (∀ q, s'.peerWriter q = s.peerWriter q) → (∀ k, s'.peerOf k = s.peerOf k) →
      (∀ k, s'.alive k = if k = i then false else s.alive k) →
      PointerEffect s (.call i false inp) s'
  | writeFails {i : Nat} {s' : Server} {p : Nat} : s.peerOf i = some p → s'.opened = s.opened →
      (∀ q, s'.peerWriter q = if q = p then none else s.peerWriter q) →
      (∀ k, s'.peerOf k = s.peerOf k) →
      (∀ k, s'.alive k = if k = i then false else s.alive k) →
      PointerEffect s (.writer i false) s'

theorem Same.modifyCall {f : Call → Call} {c : Call} (hc : s.calls[i]? = some c)
    (hp : ∀ c, (f c).ctx.peer = c.ctx.peer)
    (ha : ((f c).handler.isSome && (f c).writer.isSome) = s.alive i) :
    Same s (s.modifyCall i f) := by
  refine ⟨rfl, fun _ => rfl, fun k => view_modifyCall_of_eq hp, fun k => ?_⟩
  refine (view_modifyCall hc).trans ?_
  split
  · rename_i hk
    rw [hk]
    exact ha
  · rfl

theorem same_finish (r : Response) (m : Method) :
    Same s ((s.accept m).modifyCall i (Call.finish r)) := by
  refine ⟨rfl, fun _ => rfl, fun k => ?_, fun k => ?_⟩
  · exact view_accept_modify rfl fun _ => rfl
  · exact view_accept_modify rfl fun c => by rw [Call.finish_handler]; rfl

theorem same_relay (i p : Nat) (m : Registry.Message) : Same s (s.relay i p m) := by
  refine ⟨?_, fun q => ?_, fun k => view_relay (fun _ _ => rfl) write_peer _, fun k => ?_⟩
  · unfold relay
    simp only
    split <;> rfl
  · simp only [peerWriter, relay_maps]
  · refine view_relay (fun m c => ?_) (fun m c => ?_) _
    · simp [Call.setMsg]
    · rw [write_hasWriter, write_handler]

theorem peerWriter_setWriter_none (q : Nat) :
    (s.setWriter p none).peerWriter q = if q = p then none else s.peerWriter q := by
  rw [peerWriter_setWriter]
  by_cases hq : q = p
  · subst hq
    by_cases hlt : q < s.maps.peers.length
    · simp [hlt]
    · simp [hlt, peerWriter]
  · simp [hq]

/-- A handler is deleted: a stream dies of it, and another call was not alive. -/
theorem pointer_fails (hi : s.Inv SHA1) {inp : Input} {c : Call} (hc : s.calls[i]? = some c)
    (m : Method) :
    PointerEffect s (.call i false inp) ((s.accept m).modifyCall i Call.delete) := by
  have hci := hi.calls c (List.mem_of_getElem? hc)
  have halive : ∀ k, ((s.accept m).modifyCall i Call.delete).alive k =
      if k = i then false else s.alive k := fun k => view_accept_modify_at rfl hc
  have hpeer : ∀ k, ((s.accept m).modifyCall i Call.delete).peerOf k = s.peerOf k :=
    fun k => view_accept_modify rfl fun _ => rfl
  cases hp : s.peerOf i with
  | none =>
    have hold : s.alive i = false := by
      rw [alive, view_of_some hc, hci.writer ((view_of_some hc).symm.trans hp)]
      simp
    refine .same ⟨rfl, fun _ => rfl, hpeer, fun k => ?_⟩ fun p hp' => ?_
    · rw [halive]
      split
      · rename_i hk; rw [hk, hold]
      · rfl
    · rw [hp] at hp'; cases hp'
  | some p => exact .readFails hp rfl (fun _ => rfl) hpeer halive

theorem pointerEffect (hi : s.Inv SHA1) (he : Effect SHA1 s e s') : PointerEffect s e s' := by
  cases he with
  | @fails i inp c h hc hh => exact pointer_fails hi hc _
  | @logsIn i inp c h hc hh hp hs hm =>
    have hsame := same_finish (s := s) (i := i)
      (.accessToken (s.maps.handleLogin SHA1 inp.name).2) .login
    refine .same ⟨rfl, peerWriter_append _ ⟨inp.name, none⟩ rfl rfl, fun k => ?_, fun k => ?_⟩ trivial
    · exact hsame.peer k
    · exact hsame.alive k
  | answers hc hh hp => exact .same (same_finish _ _) trivial
  | @opens i inp c h p hc hh hp hm hg =>
    refine .opens (p := p) (i := i) ((view_of_some hc).trans hp) rfl (fun q => ?_)
      (fun k => view_accept_modify_at rfl hc) (fun k => ?_) trivial
    · show (s.setWriter p (some i)).peerWriter q = _
      rw [peerWriter_setWriter]
      simp only [hi.peer_lt hg, and_true]
    · have hup : ((c.startStream p inp.token).handler.isSome &&
          (c.startStream p inp.token).writer.isSome) = true := by
        simp [Call.startStream, Call.openStream, Call.setStatus, hh]
      refine (view_accept_modify_at rfl hc).trans ?_
      rw [hup]
      rfl
  | relays hc hh hp => exact .same (same_relay _ _ _) trivial
  | @finishes i inp c h hc hh hp =>
    have hci := hi.calls c (List.mem_of_getElem? hc)
    refine .same (Same.modifyCall hc (fun _ => rfl) ?_) trivial
    rw [alive, view_of_some hc, hci.writer hp]
    simp [Call.delete]
  | @wrote i c w hc hw hr =>
    refine .same (Same.modifyCall hc (fun _ => rfl) ?_) trivial
    rw [alive, view_of_some hc, hw]
    simp [Call.give]
  | @writeFails i c w p hc hw hr hp =>
    refine .writeFails ((view_of_some hc).trans hp) rfl (fun q => peerWriter_setWriter_none q)
      (fun k => view_modifyCall_of_eq fun _ => rfl) (fun k => ?_)
    refine (view_modifyCall hc).trans ?_
    simp [Call.deleteWriter]
    rfl

theorem alive_lt {k : Nat} (h : s.alive k = true) : k < s.calls.length := by
  by_contra hk
  rw [alive, view, List.getElem?_eq_none (Nat.not_lt.1 hk)] at h
  cases h

theorem Logged.newest (hl : s.Logged) (h : s.newest p = some i) : s.peerOf i = some p := by
  obtain ⟨x, hx, rfl⟩ := Option.map_eq_some_iff.1 h
  have hp : x.1 = p := by simpa using List.find?_some hx
  have hmem := List.mem_reverse.1 (List.mem_of_find?_eq_some hx)
  subst hp
  exact hl x.1 x.2 hmem

theorem logged_effect (hl : s.Logged) (he : PointerEffect s e s') : s'.Logged := by
  intro q k hk
  cases he with
  | same h hg =>
    rw [h.opened] at hk
    rw [h.peer]
    exact hl q k hk
  | @opens _ _ p i hpi ho hw hp ha hg =>
    rw [ho] at hk
    rw [hp]
    rcases List.mem_append.1 hk with hk | hk
    · have := hl q k hk
      rw [if_neg]
      · exact this
      · rintro rfl
        rw [hpi] at this
        cases this
    · cases List.mem_singleton.1 hk
      exact if_pos rfl
  | readFails hpi ho hw hp ha =>
    rw [ho] at hk
    rw [hp]
    exact hl q k hk
  | writeFails hpi ho hw hp ha =>
    rw [ho] at hk
    rw [hp]
    exact hl q k hk

/-- A new stream is the newest of its user, and the pointer leads to it. -/
theorem tracks_opens (hl : s.Logged) (ht : s.Tracks) (hpi : s.peerOf i = none)
    (ho : s'.opened = s.opened ++ [(p, i)])
    (hw : ∀ q, s'.peerWriter q = if q = p then some i else s.peerWriter q)
    (hp : ∀ k, s'.peerOf k = if k = i then some p else s.peerOf k)
    (ha : ∀ k, s'.alive k = if k = i then true else s.alive k) : s'.Tracks := by
  refine ⟨fun q k hk hak => ?_, fun q hall => ?_⟩
  · rw [newest_append ho] at hk
    rw [hw]
    split at hk
    · rename_i hq
      rw [if_pos hq]
      exact hk
    · rename_i hq
      rw [if_neg hq]
      have hki : k ≠ i := by
        rintro rfl
        rw [hl.newest hk] at hpi
        cases hpi
      rw [ha, if_neg hki] at hak
      exact ht.newest q k hk hak
  · rw [hw]
    split
    · rename_i hq
      have := hall i (by rw [hp, if_pos rfl, hq])
      rw [ha, if_pos rfl] at this
      cases this
    · refine ht.gone q fun k hk => ?_
      have hki : k ≠ i := by
        rintro rfl
        rw [hpi] at hk
        cases hk
      have := hall k (by rw [hp, if_neg hki]; exact hk)
      rwa [ha, if_neg hki] at this

/-- Stream `i` of user `p` fails, and nothing else. -/
structure Dies (s s' : Server) (p i : Nat) : Prop where
  peer : s.peerOf i = some p
  opened : s'.opened = s.opened
  peerOf : ∀ k, s'.peerOf k = s.peerOf k
  alive : ∀ k, s'.alive k = if k = i then false else s.alive k

theorem Dies.newest {q : Nat} (h : Dies s s' p i) : s'.newest q = s.newest q := by
  unfold Server.newest
  rw [h.opened]

theorem Dies.ne {k q : Nat} (h : Dies s s' p i) (hq : q ≠ p) (hk : s.peerOf k = some q) :
    k ≠ i := by
  rintro rfl
  rw [h.peer] at hk
  exact hq (Option.some.inj hk).symm

/-- If now all streams of another user have failed, they had before. -/
theorem Dies.gone {q : Nat} (h : Dies s s' p i) (ht : s.Tracks) (hq : q ≠ p)
    (hall : ∀ k, s'.peerOf k = some q → s'.alive k = false) : s.peerWriter q = none := by
  refine ht.gone q fun k hk => ?_
  have hak := hall k (by rw [h.peerOf]; exact hk)
  rwa [h.alive, if_neg (h.ne hq hk)] at hak

/-- A read that fails leaves the pointer: one stream more must be alive, or it must
be null. -/
theorem tracks_readFails {inp : Input} (ht : s.Tracks) (h : Dies s s' p i)
    (hw : ∀ q, s'.peerWriter q = s.peerWriter q) :
    s'.Tracks ↔ FailsInOrder s (.call i false inp) := by
  constructor
  · intro ht' q hq
    rw [h.peer] at hq
    cases hq
    by_contra hcon
    obtain ⟨hother, hnull⟩ := not_or.1 hcon
    refine hnull ?_
    rw [← hw]
    refine ht'.gone p fun k hk => ?_
    rw [h.peerOf] at hk
    rw [h.alive]
    split
    · rfl
    · rename_i hki
      cases hak : s.alive k with
      | false => rfl
      | true => exact absurd ⟨k, alive_lt hak, hki, hk, hak⟩ hother
  · intro hg
    refine ⟨fun q k hk hak => ?_, fun q hall => ?_⟩
    · rw [h.newest] at hk
      rw [h.alive] at hak
      rw [hw]
      split at hak
      · cases hak
      · exact ht.newest q k hk hak
    · rw [hw]
      by_cases hq : q = p
      · subst hq
        rcases hg q h.peer with ⟨k, -, hki, hk, hak⟩ | hnull
        · have hdead := hall k (by rw [h.peerOf]; exact hk)
          rw [h.alive, if_neg hki, hak] at hdead
          cases hdead
        · exact hnull
      · exact h.gone ht hq hall

/-- A write that fails clears the pointer: it must be the newest stream, or the newest
one must have failed. -/
theorem tracks_writeFails (ht : s.Tracks) (h : Dies s s' p i)
    (hw : ∀ q, s'.peerWriter q = if q = p then none else s.peerWriter q) :
    s'.Tracks ↔ FailsInOrder s (.writer i false) := by
  constructor
  · intro ht' q hq n hnew
    rw [h.peer] at hq
    cases hq
    by_contra hcon
    obtain ⟨hni, han⟩ := not_or.1 hcon
    have hptr := ht'.newest p n (by rw [h.newest]; exact hnew)
      (by rw [h.alive, if_neg hni]; exact Bool.not_eq_false _ ▸ han)
    rw [hw, if_pos rfl] at hptr
    cases hptr
  · intro hg
    refine ⟨fun q k hk hak => ?_, fun q hall => ?_⟩
    · rw [h.newest] at hk
      rw [h.alive] at hak
      rw [hw]
      split at hak
      · cases hak
      · rename_i hki
        split
        · rename_i hq
          subst hq
          rcases hg q h.peer k hk with h' | h'
          · exact absurd h' hki
          · rw [hak] at h'
            cases h'
        · exact ht.newest q k hk hak
    · rw [hw]
      split
      · rfl
      · rename_i hq
        exact h.gone ht hq hall

/-- A step keeps the promise exactly if it fails, if at all, in order. -/
theorem tracks_step (hl : s.Logged) (ht : s.Tracks) (he : PointerEffect s e s') :
    s'.Tracks ↔ FailsInOrder s e := by
  cases he with
  | same h hg => exact iff_of_true (h.tracks.2 ht) hg
  | opens hpi ho hw hp ha hg => exact iff_of_true (tracks_opens hl ht hpi ho hw hp ha) hg
  | readFails hpi ho hw hp ha => exact tracks_readFails ht ⟨hpi, ho, hp, ha⟩ hw
  | writeFails hpi ho hw hp ha => exact tracks_writeFails ht ⟨hpi, ho, hp, ha⟩ hw

theorem writer_tracks (SHA1 : Bytes → Digest) : (lts SHA1).Exact FailsInOrder Tracks := by
  have hinv : ((lts SHA1).guard FailsInOrder).Inductive fun s =>
      s.Inv SHA1 ∧ s.Logged ∧ s.Tracks := by
    refine (inv_inductive SHA1).of_guard.and ?_ ?_
    · rintro s rfl
      exact ⟨fun _ _ h => (by cases h), fun _ _ h => (by cases h), fun p _ => rfl⟩
    · rintro s e s' hi - ⟨hl, ht⟩ ⟨hs, hg⟩
      have he := pointerEffect hi (effect_of_step hi hs)
      exact ⟨logged_effect hl he, (tracks_step hl ht he).2 hg⟩
  refine hinv.exact (fun s hi => hi.2.2) fun s e s' hi hs ht => ?_
  exact (tracks_step hi.2.1 hi.2.2 (pointerEffect hi.1 (effect_of_step hi.1 hs))).1 ht

/-- The stream of user "a" carries a message of "a" to itself, and while that is being
written "a" opens a second stream. -/
def reconnect : List Event :=
  oneStream ++ [.call 2 true (.message ⟨[97], .text, [1]⟩),
    .call 4 true (.metadata (Digest.sample [97]).token)]

theorem writer_tracks_reconnect :
    ∃ s : Server, s.newest 0 = some 4 ∧ s.alive 4 = true ∧ s.peerWriter 0 = some 4 := by
  have hrun : ∃ s, ((lts .sample).guard FailsInOrder).Reachable s ∧
      (s.newest 0 = some 4 ∧ s.alive 4 = true) :=
    LTS.exists_reachable_of_execGuard (reconnect ++ [.writer 2 true, .call 2 false .nothing]) rfl
      (by decide +kernel)
  obtain ⟨s, hr, hn, ha⟩ := hrun
  exact ⟨s, hn, ha, ((writer_tracks .sample).sound s hr).newest 0 4 hn ha⟩

/-- The first stream's write fails: the pointer to the second one's writer is cleared.
And where the only stream ends with its writer idle, the pointer stays. -/
theorem writer_not_tracked :
    (∃ s, (lts .sample).Reachable s ∧
      (s.newest 0 = some 4 ∧ s.alive 4 = true ∧ s.peerWriter 0 = none)) ∧
    ∃ s, (lts .sample).Reachable s ∧
      (s.opened = [(0, 2)] ∧ s.alive 2 = false ∧ s.peerWriter 0 = some 2) :=
  ⟨LTS.exists_reachable_of_exec (reconnect ++ [.writer 2 false]) rfl (by decide +kernel),
    LTS.exists_reachable_of_exec (oneStream ++ [.call 2 false .nothing]) rfl (by decide +kernel)⟩

end Server
end ShadowTalk.Grpc
