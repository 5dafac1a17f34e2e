import ShadowTalk.Whisper.UdpService
import Mathlib.Data.List.Perm.Basic

/-!
# What the UDP service confirms

`send_message` files a message under its content and has it sent; when a send has
completed, `send_handler` looks its content up and hands the message on file to the
registered handlers. A content is a pointer, and sends complete in any order, with an error
or without.

* `sendMessage_spec`: what `send_message` files and what it has sent.
* `Sound`: what is on file is what is being sent.
* `confirmed_of_completions`: no completion confirms more than is on file, or is being sent.
* `confirms_exact`: every message is confirmed when its own send completes, exactly as long
  as no content is posted again before that and no address fails to parse. From then on
  some message is never confirmed.
-/
namespace ShadowTalk.Whisper
open ShadowTalk.Core
open ShadowTalk.Sml (Asio IpEndpoint Ipv4 asioV4)

/-- `flying` are the messages whose `async_send_to` has not completed. `posted` are all that
`send_message` was called with, and `completed` those whose send has completed, in order;
both are ghosts.
mirrors server/udp_service.cpp:17-22, 57-60 -/
structure Outbox (Addr : Type) where
  service : UdpService Addr
  flying : List UdpMessage
  posted : List UdpMessage
  completed : List UdpMessage

namespace Outbox

variable {Addr : Type}

def start : Outbox Addr := ⟨.start, [], [], []⟩

inductive Event (Addr : Type) where
  /-- an operation of the service -/
  | call (e : UdpService.Event Addr)
  /-- the send of the `i`th message in flight completes; `handle_send` does not look at the
  error -/
  | handleSend (i : Nat) (error : Bool)

/-- A send completes. -/
def Completes (_ : Outbox Addr) : Event Addr → Prop
  | .handleSend _ _ => True
  | .call _ => False

instance (s : Outbox Addr) (l : Event Addr) : Decidable (s.Completes l) :=
  match l with
  | .handleSend _ _ => inferInstanceAs (Decidable True)
  | .call _ => inferInstanceAs (Decidable False)

variable [DecidableEq Addr]

def step (asio : Asio Addr) (s : Outbox Addr) : Event Addr → Option (Outbox Addr)
  | .call (.sendDone _) => none
  | .call (.sendMessage msg) =>
    (s.service.step asio (.sendMessage msg)).map fun sv =>
      { s with
        service := sv
        flying := s.flying ++ (sv.sent.drop s.service.sent.length).map fun _ => msg
        posted := s.posted ++ [msg] }
  | .call e => (s.service.step asio e).map fun sv => { s with service := sv }
  | .handleSend i _ =>
    s.flying[i]?.map fun msg =>
      { s with
        service := s.service.sendHandler msg.content
        flying := s.flying.eraseIdx i
        completed := s.completed ++ [msg] }

def lts (asio : Asio Addr) : LTS (Outbox Addr) (Event Addr) := .ofFn (· = start) (step asio)

/-- The content is not on file, and the receiver has an endpoint or its address has one. -/
def Fresh (asio : Asio Addr) (s : Outbox Addr) : Event Addr → Prop
  | .call (.sendMessage msg) => s.service.toBeSent.find? msg.content = none ∧
      ∀ p ∈ s.service.peers[msg.dstPeer]?,
        s.service.peerEndpointBm.findRight p.key ≠ none ∨ p.endpoint asio ≠ none
  | _ => True

instance (asio : Asio Addr) (s : Outbox Addr) (l : Event Addr) : Decidable (s.Fresh asio l) :=
  match l with
  | .call (.sendMessage _) => inferInstanceAs (Decidable (_ ∧ ∀ p ∈ _, _))
  | .call (.newPeer ..) | .call (.receive ..) | .call (.sendDone _) | .call (.livePeers _) |
    .handleSend .. => inferInstanceAs (Decidable True)

/-- What is on file is what is being sent, each message under its content. -/
structure Sound (s : Outbox Addr) : Prop where
  confirmed : s.service.confirmed = s.completed
  filed : (s.service.toBeSent.entries.map Prod.snd).Perm s.flying
  content : ∀ e ∈ s.service.toBeSent.entries, e.1 = e.2.content
  posted : s.posted.Perm (s.completed ++ s.flying)

variable {asio : Asio Addr} {s s' t : Outbox Addr} {sv : UdpService Addr} {msg : UdpMessage}
  {p : Peer} {i : Nat}

/-! ## The operations -/

/-- The message is filed, whether or not it can be sent. -/
theorem sendMessage_spec (asio : Asio Addr) (sv : UdpService Addr) (msg : UdpMessage)
    (p : Peer) : ∃ es, (sv.sendMessage asio msg p).sent = sv.sent ++ es ∧ es.length ≤ 1 ∧
      (es.length = 1 ↔ sv.peerEndpointBm.findRight p.key ≠ none ∨ p.endpoint asio ≠ none) ∧
      (sv.sendMessage asio msg p).toBeSent = sv.toBeSent.insert msg.content msg ∧
      (sv.sendMessage asio msg p).confirmed = sv.confirmed := by
  unfold UdpService.sendMessage
  simp only
  cases hr : sv.peerEndpointBm.findRight p.key with
  | some x => exact ⟨[_], rfl, by simp, by simp, rfl, rfl⟩
  | none =>
    cases he : p.endpoint asio with
    | none => exact ⟨[], by simp, by simp, by simp, rfl, rfl⟩
    | some e => exact ⟨[_], rfl, by simp, by simp, rfl, rfl⟩

/-- The other operations file, send and confirm nothing. -/
theorem call_same {sv' : UdpService Addr} {e : UdpService.Event Addr}
    (hs : sv.step asio e = some sv') (hm : ∀ m, e ≠ .sendMessage m) (hd : ∀ c, e ≠ .sendDone c) :
    sv'.toBeSent = sv.toBeSent ∧ sv'.confirmed = sv.confirmed := by
  cases e with
  | sendMessage m => exact absurd rfl (hm m)
  | sendDone c => exact absurd rfl (hd c)
  | newPeer address port now =>
    rw [← Option.some.inj hs]
    exact ⟨rfl, rfl⟩
  | receive bytes remote now =>
    rw [← Option.some.inj hs]
    unfold UdpService.receiveHandler
    simp only
    split <;> exact ⟨rfl, rfl⟩
  | livePeers now =>
    rw [← Option.some.inj hs]
    exact ⟨rfl, rfl⟩

omit [DecidableEq Addr] in
/-- What is on file under the content is confirmed. -/
theorem sendHandler_spec (sv : UdpService Addr) (content : Nat) :
    (∃ m, sv.toBeSent.find? content = some m ∧
        (sv.sendHandler content).confirmed = sv.confirmed ++ [m] ∧
        (sv.sendHandler content).toBeSent = sv.toBeSent.erase content) ∨
      sv.toBeSent.find? content = none ∧ sv.sendHandler content = sv := by
  unfold UdpService.sendHandler
  cases hf : sv.toBeSent.find? content with
  | some m => exact .inl ⟨m, rfl, rfl, rfl⟩
  | none => exact .inr ⟨rfl, rfl⟩

omit [DecidableEq Addr] in
/-- A message whose send has completed is in flight no longer. -/
theorem perm_flying (h : s.flying[i]? = some msg) :
    s.flying.Perm (msg :: s.flying.eraseIdx i) := by
  obtain ⟨hi, rfl⟩ := List.getElem?_eq_some_iff.1 h
  exact (List.getElem_cons_eraseIdx_perm hi).symm

/-- What a step does. -/
inductive Steps (asio : Asio Addr) (s : Outbox Addr) : Event Addr → Outbox Addr → Prop
  | posted (msg : UdpMessage) (p : Peer) (sends : List UdpMessage) (sv : UdpService Addr)
      (hp : s.service.peers[msg.dstPeer]? = some p)
      (hsends : sends = [msg] ∧ (s.service.peerEndpointBm.findRight p.key ≠ none ∨
          p.endpoint asio ≠ none) ∨
        sends = [] ∧ ¬ (s.service.peerEndpointBm.findRight p.key ≠ none ∨ p.endpoint asio ≠ none))
      (hfiled : sv.toBeSent = s.service.toBeSent.insert msg.content msg)
      (hconf : sv.confirmed = s.service.confirmed) :
      Steps asio s (.call (.sendMessage msg))
        ⟨sv, s.flying ++ sends, s.posted ++ [msg], s.completed⟩
  | completed (i : Nat) (error : Bool) (msg : UdpMessage) (hi : s.flying[i]? = some msg) :
      Steps asio s (.handleSend i error)
        ⟨s.service.sendHandler msg.content, s.flying.eraseIdx i, s.posted, s.completed ++ [msg]⟩
  | other (e : UdpService.Event Addr) (sv : UdpService Addr) (hm : ∀ m, e ≠ .sendMessage m)
      (hfiled : sv.toBeSent = s.service.toBeSent) (hconf : sv.confirmed = s.service.confirmed) :
      Steps asio s (.call e) { s with service := sv }

theorem step_call {e : UdpService.Event Addr} (hm : ∀ m, e ≠ .sendMessage m)
    (hd : ∀ c, e ≠ .sendDone c) : step asio s (.call e) =
      (s.service.step asio e).map fun sv => { s with service := sv } := by
  cases e with
  | sendMessage m => exact absurd rfl (hm m)
  | sendDone c => exact absurd rfl (hd c)
  | newPeer | receive | livePeers => rfl

theorem step_cases {l : Event Addr} (hs : step asio s l = some s') : Steps asio s l s' := by
  cases l with
  | handleSend i error =>
    obtain ⟨msg, hi, rfl⟩ := Option.map_eq_some_iff.1 hs
    exact .completed i error msg hi
  | call e =>
    by_cases hm : ∀ m, e ≠ .sendMessage m
    · by_cases hd : ∀ c, e ≠ .sendDone c
      · rw [step_call hm hd] at hs
        obtain ⟨sv, hsv, rfl⟩ := Option.map_eq_some_iff.1 hs
        have hsame := call_same hsv hm hd
        exact .other e sv hm hsame.1 hsame.2
      · simp only [ne_eq, not_forall, not_not] at hd
        obtain ⟨c, rfl⟩ := hd
        cases hs
    · simp only [ne_eq, not_forall, not_not] at hm
      obtain ⟨msg, rfl⟩ := hm
      obtain ⟨sv, hsv, rfl⟩ := Option.map_eq_some_iff.1 hs
      obtain ⟨p, hp, rfl⟩ := Option.map_eq_some_iff.1 hsv
      obtain ⟨es, hes, hle, hone, hfiled, hconf⟩ := sendMessage_spec asio s.service msg p
      refine .posted msg p _ _ hp ?_ hfiled hconf
      rw [hes, List.drop_left, ← hone]
      rcases Nat.le_one_iff_eq_zero_or_eq_one.1 hle with hlen | hlen
      · exact .inr ⟨by simp [List.length_eq_zero_iff.1 hlen], by simp [hlen]⟩
      · obtain ⟨x, rfl⟩ := List.length_eq_one_iff.1 hlen
        exact .inl ⟨rfl, rfl⟩

/-! ## What is on file is what is being sent -/

theorem sound_step {l : Event Addr} (h : Sound s) (hs : step asio s l = some s')
    (hf : s.Fresh asio l) : Sound s' := by
  cases step_cases hs with
  | posted msg p sends sv hp hsends hfiled hconf =>
    obtain ⟨hnew, hreach⟩ := hf
    obtain ⟨rfl, -⟩ | ⟨-, hno⟩ := hsends
    · have hins := OMap.insert_perm hnew msg
      rw [← hfiled] at hins
      refine ⟨hconf.trans h.confirmed, ?_, fun e he => ?_, ?_⟩
      · exact ((hins.map Prod.snd).trans (h.filed.cons msg)).trans
          (List.perm_append_singleton msg s.flying).symm
      · rcases List.mem_cons.1 (hins.mem_iff.1 he) with rfl | he
        · rfl
        · exact h.content e he
      · rw [← List.append_assoc]
        exact h.posted.append_right _
    · exact absurd (hreach p hp) hno
  | completed i error msg hi =>
    have hmem := h.filed.mem_iff.2 (List.mem_of_getElem? hi)
    obtain ⟨e, he, rfl⟩ := List.mem_map.1 hmem
    have hfind : s.service.toBeSent.find? e.2.content = some e.2 := by
      rw [OMap.find?_eq_some, ← h.content e he]
      exact he
    have hfly := perm_flying hi
    obtain ⟨m, hm, hconf, hfiled⟩ | ⟨hnone, -⟩ := sendHandler_spec s.service e.2.content
    swap
    · rw [hfind] at hnone
      cases hnone
    obtain rfl := Option.some.inj (hfind.symm.trans hm)
    refine ⟨?_, ?_, fun x hx => ?_, ?_⟩
    · simp only [hconf, h.confirmed]
    · have herase := (OMap.erase_perm hfind).map Prod.snd
      rw [List.map_cons] at herase
      simp only [hfiled]
      exact List.Perm.cons_inv ((herase.symm.trans h.filed).trans hfly)
    · simp only [hfiled] at hx
      exact h.content x (OMap.mem_erase.1 hx).1
    · refine h.posted.trans ((hfly.append_left s.completed).trans ?_)
      rw [List.append_assoc, List.singleton_append]
  | other e sv hm hfiled hconf =>
    refine ⟨hconf.trans h.confirmed, ?_, ?_, h.posted⟩
    · simp only [hfiled]
      exact h.filed
    · simp only [hfiled]
      exact h.content

theorem sound_inductive (asio : Asio Addr) : ((lts asio).guard (Fresh asio)).Inductive Sound where
  init := forall_eq.2 ⟨rfl, .nil, by simp [start, UdpService.start, OMap.empty], .nil⟩
  step _ _ _ h hs := sound_step h hs.1 hs.2

/-! ## What is never confirmed -/

/-- A completion confirms at most one message, which was on file. -/
theorem completes_le {l : Event Addr} (hs : step asio s l = some s') (hl : s.Completes l) :
    s'.posted = s.posted ∧
      s'.service.confirmed.length + s'.flying.length ≤
        s.service.confirmed.length + s.flying.length ∧
      s'.service.confirmed.length + s'.service.toBeSent.entries.length ≤
        s.service.confirmed.length + s.service.toBeSent.entries.length := by
  cases step_cases hs with
  | posted | other => cases hl
  | completed i error msg hi =>
    have hfly := (perm_flying hi).length_eq
    simp only [List.length_cons] at hfly
    obtain ⟨m, hm, hconf, hfiled⟩ | ⟨-, hsame⟩ := sendHandler_spec s.service msg.content
    · have hfile := (OMap.erase_perm hm).length_eq
      simp only [List.length_cons] at hfile
      simp only [hconf, hfiled, List.length_append, List.length_singleton, true_and]
      constructor
      · omega
      · omega
    · simp only [hsame, true_and]
      constructor
      · omega
      · omega

theorem confirmed_of_completions {ls : List (Event Addr)}
    (hr : ((lts asio).guard Completes).Run s ls t) : t.posted = s.posted ∧
      t.service.confirmed.length + t.flying.length ≤
        s.service.confirmed.length + s.flying.length ∧
      t.service.confirmed.length ≤
        s.service.confirmed.length + s.service.toBeSent.entries.length := by
  have hrun : t.posted = s.posted ∧
      t.service.confirmed.length + t.flying.length ≤
        s.service.confirmed.length + s.flying.length ∧
      t.service.confirmed.length + t.service.toBeSent.entries.length ≤
        s.service.confirmed.length + s.service.toBeSent.entries.length := by
    refine LTS.run_invariant (P := fun t => t.posted = s.posted ∧
      t.service.confirmed.length + t.flying.length ≤
        s.service.confirmed.length + s.flying.length ∧
      t.service.confirmed.length + t.service.toBeSent.entries.length ≤
        s.service.confirmed.length + s.service.toBeSent.entries.length) ?_ hr
      ⟨rfl, Nat.le_refl _, Nat.le_refl _⟩
    intro u l u' ⟨hp, hf, ht⟩ hs
    obtain ⟨hp', hf', ht'⟩ := completes_le hs.1 hs.2
    exact ⟨hp'.trans hp, hf'.trans hf, ht'.trans ht⟩
  obtain ⟨hp, hf, ht⟩ := hrun
  exact ⟨hp, hf, by omega⟩

/-- After a message that is not fresh, completions confirm one message less than was posted:
there is one more posted, but none more on file, or none more in flight. -/
theorem confirmed_lt {ls : List (Event Addr)} {l : Event Addr} (h : Sound s)
    (hs : step asio s l = some s') (hf : ¬ s.Fresh asio l)
    (hr : ((lts asio).guard Completes).Run s' ls t) (ht : t.flying = []) :
    t.service.confirmed.length < t.posted.length := by
  obtain ⟨hposted, hfly, hfile⟩ := confirmed_of_completions hr
  have hcount := h.posted.length_eq
  have hfiled := h.filed.length_eq
  simp only [List.length_append, List.length_map] at hcount hfiled
  rw [ht, List.length_nil] at hfly
  rw [hposted]
  cases step_cases hs with
  | completed => exact absurd trivial hf
  | other e sv hm =>
    cases e with
    | sendMessage m => exact absurd rfl (hm m)
    | newPeer | receive | sendDone | livePeers => exact absurd trivial hf
  | posted msg p sends sv hp hsends hfiled' hconf =>
    simp only [hconf, h.confirmed, hfiled', List.length_append, List.length_singleton]
      at hfly hfile ⊢
    obtain ⟨rfl, hreach⟩ | ⟨rfl, -⟩ := hsends
    · have hold : s.service.toBeSent.find? msg.content ≠ none := by
        intro hnew
        refine hf ⟨hnew, fun q hq => ?_⟩
        obtain rfl := Option.some.inj (hp.symm.trans hq)
        exact hreach
      obtain ⟨m, hm⟩ := Option.ne_none_iff_exists'.1 hold
      have hins := (OMap.insert_perm_of_some hm msg).length_eq
      omega
    · simp only [List.length_nil] at hfly
      omega

/-- As long as the messages are fresh, what is confirmed are the messages whose send has
completed, in that order, and every message posted is one of these or still in flight. As
soon as one is not fresh, there is a message that completions never confirm. -/
theorem confirms_exact (asio : Asio Addr) :
    (∀ s, ((lts asio).guard (Fresh asio)).Reachable s →
      s.service.confirmed = s.completed ∧ s.posted.Perm (s.service.confirmed ++ s.flying)) ∧
    ∀ s l s', ((lts asio).guard (Fresh asio)).Reachable s → (lts asio).step s l s' →
      ¬ s.Fresh asio l → ∀ ls t, ((lts asio).guard Completes).Run s' ls t → t.flying = [] →
        t.service.confirmed.length < t.posted.length := by
  have hinv := sound_inductive asio
  refine ⟨fun s hr => ?_, fun s l s' hr hs hf ls t hrun ht => ?_⟩
  · have h := hinv.reachable hr
    refine ⟨h.confirmed, ?_⟩
    rw [h.confirmed]
    exact h.posted
  · exact confirmed_lt (hinv.reachable hr) hs hf hrun ht

/-- A peer at 1.2.3.4:80, and a message to it. -/
def sentTrace : List (Event Ipv4) :=
  [.call (.newPeer [49, 46, 50, 46, 51, 46, 52] 80 0), .call (.sendMessage ⟨7, 0⟩)]

/-- Its send completes. Then again, but the message was posted once more before. -/
theorem confirms_exact_sentTrace :
    (∃ s : Outbox Ipv4, s.posted = [⟨7, 0⟩] ∧ s.flying = [] ∧
      s.posted.Perm (s.service.confirmed ++ s.flying)) ∧
    ∃ t : Outbox Ipv4, t.posted = [⟨7, 0⟩, ⟨7, 0⟩] ∧ t.flying = [] ∧
      t.service.confirmed.length < t.posted.length := by
  obtain ⟨hall, hlost⟩ := confirms_exact asioV4
  constructor
  · have hrun : ∃ s, ((lts asioV4).guard (Fresh asioV4)).Reachable s ∧
        (s.posted = [⟨7, 0⟩] ∧ s.flying = []) :=
      LTS.exists_reachable_of_execGuard (sentTrace ++ [.handleSend 0 false]) rfl
        (by decide +kernel)
    obtain ⟨s, hr, hp, hf⟩ := hrun
    exact ⟨s, hp, hf, (hall s hr).2⟩
  · have hrun : ∃ s, ((lts asioV4).guard (Fresh asioV4)).Reachable s ∧
        (¬ s.Fresh asioV4 (.call (.sendMessage ⟨7, 0⟩)) ∧
          ((s.step asioV4 (.call (.sendMessage ⟨7, 0⟩))).any fun s' =>
            (LTS.execGuard (step asioV4) Completes s' [.handleSend 1 false, .handleSend 0 true]).any
              fun t => t.posted = [⟨7, 0⟩, ⟨7, 0⟩] ∧ t.flying = []) = true) :=
      LTS.exists_reachable_of_execGuard sentTrace rfl (by decide +kernel)
    obtain ⟨s, hr, hfresh, hany⟩ := hrun
    obtain ⟨s', hs', hany⟩ := (Option.any_eq_true _ _).1 hany
    obtain ⟨t, ht, hp⟩ := (Option.any_eq_true _ _).1 hany
    simp only [decide_eq_true_eq] at hp
    exact ⟨t, hp.1, hp.2, hlost s _ s' hr hs' hfresh _ t (LTS.run_of_execGuard ht) hp.2⟩

end Outbox
end ShadowTalk.Whisper
