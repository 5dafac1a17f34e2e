import ShadowTalk.Sml.Recovery

/-!
# A restarted side that waits forever

Side `b` waits for a hello, an acknowledgement or a key that side `a` will never
send again, and `a` waits for the reply to its echo.

* `Blocked.step`: this stays so whatever arrives in whatever order.
* `recovers_iff`: after a restart of `b` both sides can get established exactly
  if the state of `a` is `Resumable`.
-/
namespace ShadowTalk.Sml
open ShadowTalk.Core

namespace Hs

/-- A step of one side that takes at most a message in `inn`. -/
def Turn (pub : Bytes → Bytes) (ok : Bytes → Bytes → Bool) (inn : Msg → Prop) (s s' : Hs)
    (ms : List Msg) : Prop :=
  (∃ m priv, inn m ∧ Recv pub ok priv s m s' ms) ∨
    ∃ t, s' = { s with timer := t } ∧ (∀ y ∈ t.pending, y ∈ s.timer.pending) ∧
      ∀ y ∈ ms, y ∈ s.timer.pending

/-- After a step to `s'` that has sent `ms`, `m` is under way or may be sent again. -/
def Sends (s' : Hs) (ms : List Msg) (m : Msg) : Prop := m ∈ ms ∨ m ∈ s'.timer.pending

/-- What a side says in a phase; `inn` are the messages it may take. -/
inductive Says (s : Hs) (inn : Msg → Prop) : Msg → Prop
  | hello (hp : s.phase = .established) : Says s inn .hello
  | ack (hp : s.phase = .echo → ∃ k, inn (.publicKey k)) : Says s inn .ack
  | publicKey (hp : s.phase = .hello) (ha : s.receivedHelloAck = true ∨ inn .ack) (k : Bytes) :
    Says s inn (.publicKey k)
  | echo (hp : s.phase = .publicKeyExchange) (c : Bytes) : Says s inn (.echo c)
  | echoBack (hp : s.Late) (c : Bytes) : Says s inn (.echoBack c)

variable {pub : Bytes → Bytes} {ok : Bytes → Bytes → Bool} {priv : Bytes} {s s' s₁ : Hs} {m : Msg}
  {ms : List Msg} {inn : Msg → Prop}

theorem TakeHello.sends {q : Msg} (hp : s.phase = .hello) (ht : s.TakeHello m s₁ ms)
    (hq : s₁.Sends ms q) : q ∈ s.timer.pending ∨ s.Says inn q := by
  rcases hq with hq | hq
  · cases ht with
    | hello =>
      rw [List.mem_singleton.1 hq]
      exact .inr (.ack fun he => by rw [hp] at he; cases he)
    | ack => cases hq
  · exact .inl (ht.pending hq)

theorem TakeKey.sends {q : Msg} (hp : s.phase = .publicKeyExchange) (ht : s.TakeKey m s₁ ms)
    (hq : s₁.Sends ms q) : q ∈ s.timer.pending ∨ s.Says inn q := by
  rcases hq with hq | hq
  · cases ht with
    | key | hello =>
      rw [List.mem_singleton.1 hq]
      exact .inr (.ack fun he => by rw [hp] at he; cases he)
    | ack | ignore => cases hq
  · exact .inl (ht.pending hq)

/-- A side goes on to the next phase, with `q` in its timer. -/
theorem Sends.complete {q r : Msg} (h : s'.Sends (ms ++ [q]) r)
    (ht : s'.timer = s₁.timer.asyncWait q) : s₁.Sends ms r ∨ r = q := by
  rcases h with h | h
  · rcases List.mem_append.1 h with h | h
    · exact .inl (.inl h)
    · exact .inr (List.mem_singleton.1 h)
  · rw [ht] at h
    exact (pending_asyncWait h).symm.imp .inr id

theorem Recv.sends {q : Msg} (h : Recv pub ok priv s m s' ms) (hm : inn m) (hq : s'.Sends ms q) :
    q ∈ s.timer.pending ∨ s.Says inn q := by
  cases h with
  | helloMore hp ht => exact ht.sends hp hq
  | helloDone hp ht hd =>
    rcases hq.complete rfl with hq | rfl
    · exact ht.sends hp hq
    · refine .inr (.publicKey hp ?_ _)
      cases ht with
      | hello => exact .inl hd.1
      | ack => exact .inr hm
  | exchangeMore hp ht => exact ht.sends hp hq
  | exchangeDone hp ht =>
    rcases hq.complete rfl with hq | rfl
    · exact ht.sends hp hq
    · exact .inr (.echo hp _)
  | echoKey k hp =>
    rcases hq with hq | hq
    · rw [List.mem_singleton.1 hq]
      exact .inr (.ack fun _ => ⟨k, hm⟩)
    · exact .inl hq
  | echoBack hp => exact .inl (pending_cancel (hq.resolve_left (by simp)))
  | answer c hp =>
    rcases hq with hq | hq
    · rw [List.mem_singleton.1 hq]
      exact .inr (.echoBack hp c)
    · exact .inl hq
  | reset hp =>
    rcases hq with hq | hq
    · simp only [List.mem_cons, List.not_mem_nil, or_false] at hq
      rcases hq with rfl | rfl
      · exact .inr (.hello hp)
      · exact .inr (.ack fun he => by rw [hp] at he; cases he)
    · rcases pending_asyncWait hq with rfl | hq
      · exact .inr (.hello hp)
      · exact .inl hq
  | helloIgnore | echoIgnore | establishedIgnore => exact .inl (hq.resolve_left (by simp))

theorem Turn.sends {q : Msg} (h : s.Turn pub ok inn s' ms) (hq : s'.Sends ms q) :
    q ∈ s.timer.pending ∨ s.Says inn q := by
  rcases h with ⟨m, priv, hm, hr⟩ | ⟨t, rfl, ht, hms⟩
  · exact hr.sends hm hq
  · exact .inl (hq.elim (hms q) (ht q))

/-! ## Where a side can get -/

/-- Without a reply to its echo a side does not get established. -/
theorem Turn.not_established (h : s.Turn pub ok inn s' ms) (hb : ∀ c, ¬ inn (.echoBack c))
    (hp : s.phase ≠ .established) : s'.phase ≠ .established := by
  rcases h with ⟨m, priv, hm, hr⟩ | ⟨t, rfl, -⟩
  · cases hr with
    | helloMore _ ht => cases ht <;> exact hp
    | exchangeMore _ ht => cases ht <;> exact hp
    | echoBack => exact absurd hm (hb _)
    | helloDone | exchangeDone => exact fun hp' => by cases hp'
    | reset hp' => exact absurd hp' hp
    | _ => exact hp
  · exact hp

/-- A side does not go back, unless it is established. -/
theorem Turn.forward (h : s.Turn pub ok inn s' ms) (hp' : s'.phase ≠ .established) :
    (s.phase = .echo → s'.phase = .echo) ∧
      (s.phase = .publicKeyExchange → s'.phase = .publicKeyExchange ∨ s'.phase = .echo) := by
  rcases h with ⟨m, priv, hm, hr⟩ | ⟨t, rfl, -⟩
  · cases hr with
    | helloMore hp ht => simp [hp]
    | helloDone hp ht => simp [hp]
    | exchangeMore hp ht => cases ht <;> simp [hp]
    | exchangeDone hp ht => simp [hp, enterEcho]
    | echoBack => exact absurd rfl hp'
    | reset hp => simp [hp]
    | _ => exact ⟨id, .inl⟩
  · exact ⟨id, .inl⟩

/-- Without a hello a side stays in the hello phase. -/
theorem Turn.no_hello (h : s.Turn pub ok inn s' ms) (hi : ¬ inn .hello) (hp : s.phase = .hello)
    (hr : s.receivedHello = false) : s'.phase = .hello ∧ s'.receivedHello = false := by
  rcases h with ⟨m, priv, hm, h⟩ | ⟨t, rfl, -⟩
  · cases h with
    | helloMore _ ht =>
      cases ht with
      | hello => exact absurd hm hi
      | ack => exact ⟨hp, hr⟩
    | helloDone _ ht hd =>
      cases ht with
      | hello => exact absurd hm hi
      | ack => exact absurd hd.2 (by simp [hr])
    | helloIgnore => exact ⟨hp, hr⟩
    | _ => simp_all
  · exact ⟨hp, hr⟩

/-- Without an acknowledgement a side stays in the hello phase. -/
theorem Turn.no_ack (h : s.Turn pub ok inn s' ms) (hi : ¬ inn .ack) (hp : s.phase = .hello)
    (hr : s.receivedHelloAck = false) : s'.phase = .hello ∧ s'.receivedHelloAck = false := by
  rcases h with ⟨m, priv, hm, h⟩ | ⟨t, rfl, -⟩
  · cases h with
    | helloMore _ ht =>
      cases ht with
      | ack => exact absurd hm hi
      | hello => exact ⟨hp, hr⟩
    | helloDone _ ht hd =>
      cases ht with
      | ack => exact absurd hm hi
      | hello => exact absurd hd.1 (by simp [hr])
    | helloIgnore => exact ⟨hp, hr⟩
    | _ => simp_all
  · exact ⟨hp, hr⟩

/-- Without a key a side does not get beyond the key exchange. -/
theorem Turn.no_key (h : s.Turn pub ok inn s' ms) (hi : ∀ k, ¬ inn (.publicKey k)) (hp : s.Early)
    (hr : s.receivedPublicKey = false) : s'.Early ∧ s'.receivedPublicKey = false := by
  rcases h with ⟨m, priv, hm, h⟩ | ⟨t, rfl, -⟩
  · cases h with
    | helloMore _ ht => cases ht <;> exact ⟨hp, hr⟩
    | helloDone _ ht => cases ht <;> exact ⟨.inr rfl, hr⟩
    | exchangeMore _ ht =>
      cases ht with
      | key k => exact absurd hm (hi k)
      | _ => exact ⟨hp, hr⟩
    | exchangeDone _ ht hd =>
      cases ht with
      | key k => exact absurd hm (hi k)
      | _ => exact absurd hd.1 (by simp [hr])
    | helloIgnore => exact ⟨hp, hr⟩
    | _ => simp_all [Early]
  · exact ⟨hp, hr⟩

end Hs

namespace HsNet

/-- `m` is under way from `x`, or may be sent again. -/
def Sent (s : HsNet) (x : Side) (m : Msg) : Prop :=
  (∃ p ∈ s.net, p.src = x ∧ p.msg = m) ∨ m ∈ (s.get x).state.timer.pending

/-- Side `b` is not beyond the key exchange, side `a` is not established, and
nothing will reply to an echo of `a`. -/
structure Waiting (s : HsNet) : Prop where
  a : (s.get .a).state.phase ≠ .established
  b : (s.get .b).state.Early
  echoBack : ∀ c, ¬ s.Sent .b (.echoBack c)

/-- What `b` waits for. -/
inductive Lacks (s : HsNet) : Prop
  | hello (hb : (s.get .b).state.phase = .hello) (hr : (s.get .b).state.receivedHello = false)
    (hs : ¬ s.Sent .a .hello)
  | ack (ha : (s.get .a).state.phase = .echo) (hb : (s.get .b).state.phase = .hello)
    (hr : (s.get .b).state.receivedHelloAck = false) (hs : ¬ s.Sent .a .ack)
    (hk : ∀ k, ¬ s.Sent .b (.publicKey k))
  | key (ha : (s.get .a).state.phase = .publicKeyExchange ∨ (s.get .a).state.phase = .echo)
    (hr : (s.get .b).state.receivedPublicKey = false) (hs : ∀ k, ¬ s.Sent .a (.publicKey k))

structure Blocked (s : HsNet) : Prop where
  quiet : s.Quiet
  waiting : s.Waiting
  lacks : s.Lacks

variable {pub : Bytes → Bytes} {ok : Side → Bytes → Bytes → Bool} {s s' : HsNet} {x : Side}
  {ms : List Msg}

/-- Side `x` has taken a turn, and nothing is under way but what was and what it
has sent. -/
structure After (pub : Bytes → Bytes) (ok : Side → Bytes → Bytes → Bool) (s : HsNet) (x : Side)
    (ms : List Msg) (s' : HsNet) : Prop where
  turn : (s.get x).state.Turn pub (ok x) (fun m => m = .other ∨ s.Sent x.other m) (s'.get x).state ms
  other : s'.get x.other = s.get x.other
  net : ∀ p ∈ s'.net, p ∈ s.net ∨ p.src = x ∧ p.msg ∈ ms
  quiet : s'.Quiet

theorem after_move {s₀ : HsNet} {r : Party Hs} {c : Option Msg} (hp : s₀.party = s.party)
    (hn : ∀ p ∈ s₀.net, p ∈ s.net) (hq : s.Quiet)
    (ht : (s.get x).state.Turn pub (ok x) (fun m => m = .other ∨ s.Sent x.other m) r.state ms)
    (ho : r.state.out = []) : After pub ok s x ms (s₀.move (hsMachine pub ok) x (r, ms) c) where
  turn := by rw [Net.get_move_self]; exact ht
  other := by rw [Net.get_move_other, Net.get, hp]; rfl
  net p hp := (Net.mem_move.1 hp).imp (hn p) fun ⟨h1, h2, _⟩ => ⟨h1, h2⟩
  quiet y := by
    rcases Side.eq_or_eq_other x y with rfl | rfl
    · rw [Net.get_move_self]; exact ho
    · rw [Net.get_move_other, Net.get, hp]; exact hq _

theorem resume_after {l : HsLabel} (hq : s.Quiet) (h : (resume pub ok).step s l s') :
    ∃ x ms, After pub ok s x ms s' := by
  rcases Net.reliable_cases h with ⟨i, priv, p, rfl, hi, rfl⟩ | ⟨x, k, r, rfl, -, hr, rfl⟩
  · have hr := Hs.recv_cases pub (ok p.src.other) priv (hq p.src.other) p.msg
    have hsent : s.Sent p.src.other.other p.msg :=
      .inl ⟨p, List.mem_of_getElem? hi, (Side.other_other _).symm, rfl⟩
    exact ⟨p.src.other, _, after_move rfl (fun _ hp => List.mem_of_mem_eraseIdx hp) hq
      (.inl ⟨p.msg, priv, .inr hsent, hr⟩) rfl⟩
  · have hs : (lts pub ok).step s (.act x k) (s.move (hsMachine pub ok) x r none) := by
      show ((hsMachine pub ok).act x (s.get x) k).map _ = some _
      rw [hr]
      rfl
    obtain ⟨x', r', ms, c, hm, he⟩ := move_of_step hq hs
    rw [he]
    have ho := hm.quiet hq x'
    rw [Net.get_move_self] at ho
    refine ⟨x', ms, after_move rfl (fun _ => id) hq ?_ ho⟩
    rcases hm.turn with ⟨m, priv, hc, hr⟩ | ⟨t, rfl, -, ht, hms⟩
    · exact .inl ⟨m, priv, hc.imp And.left fun ⟨_, hp⟩ => .inl hp, hr⟩
    · exact .inr ⟨t, rfl, ht, hms⟩

theorem After.sent_other {m : Msg} (h : After pub ok s x ms s') (hm : s'.Sent x.other m) :
    s.Sent x.other m := by
  rcases hm with ⟨p, hp, hsrc, rfl⟩ | hm
  · refine .inl ⟨p, (h.net p hp).resolve_right fun ⟨hx, _⟩ => ?_, hsrc, rfl⟩
    exact Side.other_ne x (hsrc.symm.trans hx)
  · rw [h.other] at hm
    exact .inr hm

theorem After.sent_self {m : Msg} (h : After pub ok s x ms s') (hm : s'.Sent x m) :
    s.Sent x m ∨ (s.get x).state.Says (fun m => m = .other ∨ s.Sent x.other m) m := by
  have : (∃ p ∈ s.net, p.src = x ∧ p.msg = m) ∨ (s'.get x).state.Sends ms m := by
    rcases hm with ⟨p, hp, hsrc, rfl⟩ | hm
    · exact (h.net p hp).imp (fun hp => ⟨p, hp, hsrc, rfl⟩) fun hp => .inl hp.2
    · exact .inr (.inr hm)
  rcases this with hp | hs
  · exact .inl (.inl hp)
  · exact (h.turn.sends hs).imp .inr id

/-- Side `a` takes a turn. -/
theorem Blocked.turn_a (h : s.Blocked) (ha : After pub ok s .a ms s') : s'.Blocked := by
  obtain ⟨hq, ⟨wa, wb, we⟩, hl⟩ := h
  have hb : s'.get .b = s.get .b := ha.other
  have ha' : (s'.get .a).state.phase ≠ .established :=
    ha.turn.not_established (fun c hc => hc.elim (by simp) (we c)) wa
  have hfwd := ha.turn.forward ha'
  refine ⟨ha.quiet, ⟨ha', by rw [hb]; exact wb, fun c hc => we c (ha.sent_other hc)⟩, ?_⟩
  cases hl with
  | hello hb' hr hs =>
    refine .hello (by rw [hb]; exact hb') (by rw [hb]; exact hr) fun hh => ?_
    rcases ha.sent_self hh with hh | hh
    · exact hs hh
    · cases hh with
      | hello hp => exact wa hp
  | ack ha₀ hb' hr hs hk =>
    refine .ack (hfwd.1 ha₀) (by rw [hb]; exact hb') (by rw [hb]; exact hr) (fun hh => ?_)
      fun k hc => hk k (ha.sent_other hc)
    rcases ha.sent_self hh with hh | hh
    · exact hs hh
    · cases hh with
      | ack hp =>
        obtain ⟨k, hp⟩ := hp ha₀
        exact hp.elim (by simp) (hk k)
  | key ha₀ hr hs =>
    refine .key ?_ (by rw [hb]; exact hr) fun k hh => ?_
    · exact ha₀.elim hfwd.2 fun hp => .inr (hfwd.1 hp)
    · rcases ha.sent_self hh with hh | hh
      · exact hs k hh
      · cases hh with
        | publicKey hp => rcases ha₀ with h | h <;> rw [hp] at h <;> cases h

/-- Side `b` takes a turn. -/
theorem Blocked.turn_b (h : s.Blocked) (hb : After pub ok s .b ms s') : s'.Blocked := by
  obtain ⟨hq, ⟨wa, wb, we⟩, hl⟩ := h
  have ha : s'.get .a = s.get .a := hb.other
  have sent_a : ∀ m, s'.Sent .a m → s.Sent .a m := fun m hm => hb.sent_other hm
  have hearly : (s'.get .b).state.Early := by
    cases hl with
    | hello hp hr hs =>
      exact .inl (hb.turn.no_hello (fun hi => hi.elim (by simp) hs) hp hr).1
    | ack _ hp hr hs =>
      exact .inl (hb.turn.no_ack (fun hi => hi.elim (by simp) hs) hp hr).1
    | key _ hr hs =>
      exact (hb.turn.no_key (fun k hi => hi.elim (by simp) (hs k)) wb hr).1
  refine ⟨hb.quiet, ⟨by rw [ha]; exact wa, hearly, fun c hc => ?_⟩, ?_⟩
  · rcases hb.sent_self hc with hc | hc
    · exact we c hc
    · cases hc with
      | echoBack hp =>
        rcases wb with wb | wb <;> rcases hp with hp | hp <;> rw [wb] at hp <;> cases hp
  · cases hl with
    | hello hp hr hs =>
      obtain ⟨hp, hr⟩ := hb.turn.no_hello (fun hi => hi.elim (by simp) hs) hp hr
      exact .hello hp hr fun hh => hs (sent_a _ hh)
    | ack ha₀ hp hr₀ hs hk =>
      obtain ⟨hp', hr⟩ := hb.turn.no_ack (fun hi => hi.elim (by simp) hs) hp hr₀
      refine .ack (by rw [ha]; exact ha₀) hp' hr (fun hh => hs (sent_a _ hh)) fun k hh => ?_
      rcases hb.sent_self hh with hh | hh
      · exact hk k hh
      · cases hh with
        | publicKey _ hack =>
          rcases hack with hack | hack
          · rw [hr₀] at hack; cases hack
          · exact hack.elim (by simp) hs
    | key ha₀ hr hs =>
      obtain ⟨-, hr⟩ := hb.turn.no_key (fun k hi => hi.elim (by simp) (hs k)) wb hr
      exact .key (by rw [ha]; exact ha₀) hr fun k hh => hs k (sent_a _ hh)

theorem Blocked.step {l : HsLabel} (h : s.Blocked) (hs : (resume pub ok).step s l s') :
    s'.Blocked := by
  obtain ⟨x, ms, ha⟩ := resume_after h.quiet hs
  cases x with
  | a => exact h.turn_a ha
  | b => exact h.turn_b ha

theorem Blocked.not_recovers (h : s.Blocked) : ¬ Recovers pub ok s := by
  rintro ⟨ls, s', hr, he⟩
  have hb : s'.Blocked := LTS.run_invariant (fun _ _ _ h hs => h.step hs) hr h
  exact hb.waiting.a (he .a)

/-- After the restart nothing of `a` is under way, and `b` has only said hello. -/
theorem sent_restart_a {m : Msg} (h : (restart s).Sent .a m) :
    m ∈ (s.get .a).state.timer.pending := by
  rcases h with ⟨p, hp, hsrc, -⟩ | h
  · rw [List.mem_singleton.1 hp] at hsrc
    cases hsrc
  · exact h

theorem sent_restart_b {m : Msg} (h : (restart s).Sent .b m) : m = .hello := by
  rcases h with ⟨p, hp, -, rfl⟩ | h
  · rw [List.mem_singleton.1 hp]
  · exact List.mem_singleton.1 h

theorem blocked_restart (h : Proper pub ok s) (hr : ¬ (s.get .a).state.Resumable) :
    (restart s).Blocked := by
  have hb : (restart s).get .b = ⟨Hs.start.flush, 0⟩ := rfl
  have ha : (restart s).get .a = s.get .a := rfl
  refine ⟨fun x => ?_, ⟨fun hp => hr (.inl hp), .inl rfl, fun c hc => by cases sent_restart_b hc⟩, ?_⟩
  · cases x with
    | a => exact h.quiet .a
    | b => rfl
  · by_cases hm : .hello ∈ (s.get .a).state.timer.pending
    · cases hp : (s.get .a).state.phase with
      | hello => exact absurd (.inr (.inl ⟨hp, hm⟩)) hr
      | publicKeyExchange =>
        refine .key (.inl hp) rfl fun k hk => hr (.inr (.inr ⟨hp, hm, k, sent_restart_a hk⟩))
      | echo =>
        refine .ack hp rfl rfl (fun hk => ?_) fun k hk => by cases sent_restart_b hk
        rcases (h.party .a).own _ (sent_restart_a hk) with hk | ⟨e, hk⟩ | hk <;> cases hk
      | established => exact absurd (.inl hp) hr
    · exact .hello rfl rfl fun hk => hm (sent_restart_a hk)

/-- A restart of `b` can be recovered from exactly if `a` is resumable. -/
theorem recovers_iff (hok : ∀ x e q, ok x e (pub q) = true) (h : (lts pub ok).Reachable s) :
    Recovers pub ok (restart s) ↔ (s.get .a).state.Resumable := by
  have hp := (proper_inductive pub ok).reachable h
  refine ⟨fun hrec => ?_, recovers_of_resumable hok hp⟩
  by_contra hr
  exact (blocked_restart hp hr).not_recovers hrec

end HsNet
end ShadowTalk.Sml
