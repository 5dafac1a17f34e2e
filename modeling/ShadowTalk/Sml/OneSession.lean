import ShadowTalk.Sml.Deadlock
import ShadowTalk.Sml.Redelivery
import ShadowTalk.Sml.SharedKey

/-!
# One session

As long as no hello reaches an established peer, nobody starts over, and each side draws
one ephemeral key in the whole run. Then no leftover can be told from the real thing,
since there is nothing else to be left over.

* `HsNet.OneKey`: every public key that is under way, or was taken, is the one of the side
  it comes from.
* `PeerNet.one_key`: all keys that the two peers compute at any time are the same, and
  once there is one it stays.
-/
namespace ShadowTalk.Sml
open ShadowTalk.Core

namespace Hs

variable {pub : Bytes → Bytes} {ok : Bytes → Bytes → Bool} {priv : Bytes} {s s' s₁ : Hs} {m : Msg}
  {ms : List Msg}

/-- What a step does to the keys of a side that it does not reset: a key is drawn in the
hello phase only, what is sent is the own key, and what is taken came with `m`. -/
structure Draws (pub : Bytes → Bytes) (s : Hs) (m : Msg) (s' : Hs) (ms : List Msg) : Prop where
  epriv : s'.epriv = s.epriv ∨ s.phase = .hello
  hello : s'.phase = .hello → s.phase = .hello ∧ s'.epriv = s.epriv
  sends : ∀ k, s'.Sends ms (.publicKey k) → .publicKey k ∈ s.timer.pending ∨ s'.Current pub k
  takes : ∀ k, s'.peerEpub = some k → s.peerEpub = some k ∨ m = .publicKey k

theorem TakeHello.draws (hp : s.phase = .hello) (h : s.TakeHello m s₁ ms) :
    Draws pub s m s₁ ms := by
  cases h with
  | hello =>
    refine ⟨.inl rfl, fun _ => ⟨hp, rfl⟩, fun k hk => ?_, fun k hk => .inl hk⟩
    exact hk.elim (fun hk => by simp at hk) .inl
  | ack =>
    refine ⟨.inl rfl, fun _ => ⟨hp, rfl⟩, fun k hk => ?_, fun k hk => .inl hk⟩
    exact hk.elim (fun hk => by cases hk) fun hk => .inl (pending_cancel hk)

theorem TakeKey.draws (hp : s.phase = .publicKeyExchange) (h : s.TakeKey m s₁ ms) :
    Draws pub s m s₁ ms ∧ s₁.phase = .publicKeyExchange := by
  cases h with
  | key q =>
    refine ⟨⟨.inl rfl, fun he => ?_, fun k hk => ?_, fun k hk => ?_⟩, hp⟩
    · rw [show s.phase = _ from he] at hp
      cases hp
    · exact hk.elim (fun hk => by simp at hk) .inl
    · exact .inr (congrArg Msg.publicKey (Option.some.inj hk))
  | ack =>
    refine ⟨⟨.inl rfl, fun he => ?_, fun k hk => ?_, fun k hk => .inl hk⟩, hp⟩
    · rw [show s.phase = _ from he] at hp
      cases hp
    · exact hk.elim (fun hk => by cases hk) fun hk => .inl (pending_cancel hk)
  | hello =>
    refine ⟨⟨.inl rfl, fun he => ⟨he, rfl⟩, fun k hk => ?_, fun k hk => .inl hk⟩, hp⟩
    exact hk.elim (fun hk => by simp at hk) .inl
  | ignore =>
    refine ⟨⟨.inl rfl, fun he => ⟨he, rfl⟩, fun k hk => ?_, fun k hk => .inl hk⟩, hp⟩
    exact hk.elim (fun hk => by cases hk) .inl

/-- Nothing changes, and no key is sent. -/
theorem draws_same (hms : ∀ k, .publicKey k ∉ ms) : Draws pub s m s ms :=
  ⟨.inl rfl, fun he => ⟨he, rfl⟩, fun k hk => hk.elim (fun hk => absurd hk (hms k)) .inl,
    fun _ hk => .inl hk⟩

theorem Recv.draws (h : Recv pub ok priv s m s' ms)
    (hno : m = .hello → s.phase ≠ .established) : Draws pub s m s' ms := by
  cases h with
  | helloMore hp ht hd => exact ht.draws hp
  | @helloDone m s₁ ms hp ht hd =>
    obtain ⟨-, -, -, htakes⟩ : Draws pub s m s₁ ms := ht.draws hp
    refine ⟨.inr hp, fun he => (by cases he), fun k hk => ?_, htakes⟩
    rcases hk with hk | hk
    · rcases List.mem_append.1 hk with hk | hk
      · exact absurd hk (ht.publicKey_notMem k)
      · exact .inr ⟨priv, rfl, by simpa using hk⟩
    · rcases pending_asyncWait hk with hk | hk
      · exact .inr ⟨priv, rfl, by simpa using hk⟩
      · exact .inl (ht.pending hk)
  | exchangeMore hp ht hd => exact (ht.draws hp).1
  | @exchangeDone m s₁ ms hp ht hd =>
    obtain ⟨⟨hepriv, -, hsends, htakes⟩, -⟩ : Draws pub s m s₁ ms ∧ s₁.phase = _ := ht.draws hp
    refine ⟨hepriv, fun he => (by cases he), fun k hk => hsends k ?_, htakes⟩
    rcases hk with hk | hk
    · exact .inl ((List.mem_append.1 hk).resolve_right (by simp))
    · exact .inr ((pending_asyncWait hk).resolve_left (by simp))
  | echoBack hp =>
    refine ⟨.inl rfl, fun he => (by cases he), fun k hk => ?_, fun k hk => .inl hk⟩
    exact hk.elim (fun hk => by cases hk) fun hk => .inl (pending_cancel hk)
  | reset hp => exact absurd hp (hno rfl)
  | helloIgnore | echoKey | echoIgnore | answer | establishedIgnore => exact draws_same (by simp)

end Hs

/-! ## One key a side -/

namespace HsNet

variable {pub : Bytes → Bytes} {ok : Side → Bytes → Bytes → Bool} {s s' : HsNet}

/-- No hello arrives at an established side. -/
def NoReset (s : HsNet) : HsLabel → Prop
  | .deliver i _ => ∀ p, s.net[i]? = some p → p.msg = .hello →
      (s.get p.src.other).state.phase ≠ .established
  | _ => True

/-- A public key that is under way, or was taken, is the current one of its sender. -/
structure OneKey (pub : Bytes → Bytes) (s : HsNet) : Prop where
  quiet : s.Quiet
  hello : ∀ x, (s.get x).state.phase = .hello → (s.get x).state.epriv = none
  sent : ∀ x k, s.Sent x (.publicKey k) → (s.get x).state.Current pub k
  taken : ∀ x k, (s.get x).state.peerEpub = some k → (s.get x.other).state.Current pub k

theorem oneKey_start (pub : Bytes → Bytes) : OneKey pub start where
  quiet := quiet_start
  hello x _ := by cases x <;> rfl
  sent x k h := by
    rcases h with ⟨p, hp, -, hm⟩ | h
    · simp only [start, List.mem_cons, List.not_mem_nil, or_false] at hp
      rcases hp with rfl | rfl <;> cases hm
    · cases x <;> simp [start, Net.get, Two.get, Hs.start, Hs.sendWithRetransmit, Hs.flush,
        Timer.pending, Timer.new, Timer.asyncWait] at h
  taken x k h := by cases x <;> cases h

/-- Side `x` draws as it may. -/
theorem OneKey.move {x : Side} {r : Party Hs} {ms : List Msg} {c : Option Msg} {m : Msg}
    (h : OneKey pub s) (hq : Quiet (s.move (hsMachine pub ok) x (r, ms) c))
    (hd : (s.get x).state.Draws pub m r.state ms)
    (hm : ∀ k, m = .publicKey k → s.Sent x.other (.publicKey k)) :
    OneKey pub (s.move (hsMachine pub ok) x (r, ms) c) := by
  -- a side that has a key keeps it
  have keep : ∀ k, (s.get x).state.Current pub k → r.state.Current pub k := by
    intro k hk
    obtain ⟨e, he, hk⟩ := hk
    rcases hd.epriv with hs | hp
    · exact ⟨e, hs.trans he, hk⟩
    · rw [h.hello x hp] at he
      cases he
  refine ⟨hq, fun y hy => ?_, fun y k hy => ?_, fun y k hy => ?_⟩
  · rcases Side.eq_or_eq_other x y with rfl | rfl
    · rw [Net.get_move_self] at hy ⊢
      obtain ⟨hp, he⟩ := hd.hello hy
      exact he.trans (h.hello _ hp)
    · rw [Net.get_move_other] at hy ⊢
      exact h.hello _ hy
  · rcases Side.eq_or_eq_other x y with rfl | rfl
    · rw [Net.get_move_self]
      have hsent : s.Sent y (.publicKey k) ∨ r.state.Sends ms (.publicKey k) := by
        rcases hy with ⟨p, hp, hsrc, hmsg⟩ | hy
        · rcases Net.mem_move.1 hp with hp | ⟨-, hms, -⟩
          · exact .inl (.inl ⟨p, hp, hsrc, hmsg⟩)
          · exact .inr (.inl (hmsg ▸ hms))
        · rw [Net.get_move_self] at hy
          exact .inr (.inr hy)
      rcases hsent with hs | hs
      · exact keep k (h.sent y k hs)
      · exact (hd.sends k hs).elim (fun hk => keep k (h.sent y k (.inr hk))) id
    · rw [Net.get_move_other]
      refine h.sent _ k ?_
      rcases hy with ⟨p, hp, hsrc, hmsg⟩ | hy
      · refine .inl ⟨p, (Net.mem_move.1 hp).resolve_right fun hx => ?_, hsrc, hmsg⟩
        exact Side.other_ne x (hsrc.symm.trans hx.1)
      · rw [Net.get_move_other] at hy
        exact .inr hy
  · rcases Side.eq_or_eq_other x y with rfl | rfl
    · rw [Net.get_move_self] at hy
      rw [Net.get_move_other]
      rcases hd.takes k hy with hk | hk
      · exact h.taken y k hk
      · exact h.sent _ k (hm k hk)
    · rw [Net.get_move_other] at hy
      rw [Side.other_other, Net.get_move_self]
      have := h.taken _ k hy
      rw [Side.other_other] at this
      exact keep k this

theorem oneKey_inductive (pub : Bytes → Bytes) (ok : Side → Bytes → Bytes → Bool) :
    ((lts pub ok).guard NoReset).Inductive (OneKey pub) where
  init := forall_eq.2 (oneKey_start pub)
  step s l s' h hs := by
    obtain ⟨x, r, ms, c, hm, rfl⟩ := move_of_step h.quiet hs.1
    have hq := hm.quiet h.quiet
    cases hm with
    | @deliver i priv p hs' ms hi hp hr =>
      refine h.move hq (hr.draws (hs.2 p hi)) fun k hk => ?_
      rw [Side.other_other]
      exact .inl ⟨p, hp, rfl, hk⟩
    | junk hr => exact h.move hq (hr.draws fun hm => by cases hm) fun k hk => by cases hk
    | expire ha =>
      refine h.move (m := .other) hq ⟨.inl rfl, fun he => ⟨he, rfl⟩, fun k hk => ?_,
        fun k hk => .inl hk⟩ fun k hk => by cases hk
      exact hk.elim (fun hk => by cases hk) fun hk => .inl ((Timer.mem_pending_expire ha).1 hk)
    | retransmit hqu =>
      refine h.move (m := .other) hq ⟨.inl rfl, fun he => ⟨he, rfl⟩, fun k hk => ?_,
        fun k hk => .inl hk⟩ fun k hk => by cases hk
      refine hk.elim (fun hk => ?_) fun hk => .inl (Timer.mem_pending_of_fire hqu hk)
      exact .inl (Timer.mem_pending.2 (.inr (hqu ▸ List.mem_singleton.1 hk ▸ List.mem_cons_self)))

end HsNet

/-! ## One key a session -/

namespace Peer

variable {env : Env} {conf : Configuration} {p : Peer} {d : Datagram} {priv : Bytes}

/-- The peer has a key: it is past the key exchange. -/
def Agreed (p : Peer) : Prop := p.currentState.sharedKeyAgreement = true

instance (p : Peer) : Decidable (Agreed p) := inferInstanceAs (Decidable (_ = _))

theorem Inv.not_agreed_hello (h : Inv env conf p) (hp : p.datagramHandler = .hello) :
    ¬ p.Agreed := by
  obtain ⟨ha, hr, hb⟩ := h.helloBits hp
  simp [Agreed, hb]

theorem Inv.not_agreed_exchange (h : Inv env conf p) (hp : p.datagramHandler = .publicKeyExchange) :
    ¬ p.Agreed := by
  obtain ⟨pa, pr, hb⟩ := h.exchangeBits hp
  simp [Agreed, hb]

/-- The key of `p` is still the one of `q`. -/
structure KeepsKey (p q : Peer) : Prop where
  agreed : q.Agreed
  key : q.key = p.key
  encryptLayer : q.encryptLayer = p.encryptLayer

theorem KeepsKey.refl (ha : p.Agreed) : KeepsKey p p := ⟨ha, rfl, rfl⟩

theorem KeepsKey.trans {q r : Peer} (h : KeepsKey p q) (h' : KeepsKey q r) : KeepsKey p r :=
  ⟨h'.agreed, h'.key.trans h.key, h'.encryptLayer.trans h.encryptLayer⟩

theorem KeepsKey.flush {q : Peer} (h : KeepsKey p q) : KeepsKey p q.flush :=
  ⟨h.agreed, h.key, h.encryptLayer⟩

theorem SameHandshake.keepsKey {q : Peer} (h : SameHandshake p q) (ha : p.Agreed) :
    KeepsKey p q :=
  ⟨(congrArg Bits.sharedKeyAgreement h.currentState).trans ha, h.key, h.encryptLayer⟩

/-- Past the key exchange nothing but a reset takes the key away. -/
theorem Turn.keepsKey {r : Peer × Option Exc} (hi : Inv env conf p) (ha : p.Agreed)
    (ht : Turn env conf p d priv r) (hno : p.datagramHandler = .established → d.type ≠ .hello) :
    KeepsKey p r.1 := by
  cases ht with
  | hello hp => exact absurd ha (hi.not_agreed_hello hp)
  | helloDone hp => exact absurd ha (hi.not_agreed_hello hp)
  | key hp => exact absurd ha (hi.not_agreed_exchange hp)
  | keyFailed hp => exact absurd ha (hi.not_agreed_exchange hp)
  | keyDone hp => exact absurd ha (hi.not_agreed_exchange hp)
  | reset hp ht => exact absurd ht (hno hp)
  | feed hp ht payload => exact (feedStream_same _ _).keepsKey ha
  | _ => exact ⟨ha, rfl, rfl⟩

theorem keepsKey_handle {e : Event} {r : Peer × Option Exc} (ha : p.Agreed)
    (he : ∀ d priv, e ≠ .recv d priv) (hr : p.handle env conf e = some r) : KeepsKey p r.1 := by
  cases hs : e.isStream with
  | true => exact (handle_stream_same hr hs).keepsKey ha
  | false =>
    cases e with
    | recv d priv => exact absurd rfl (he d priv)
    | expire =>
      obtain ⟨t, -, rfl⟩ := Option.map_eq_some_iff.1 hr
      exact ⟨ha, rfl, rfl⟩
    | retransmit =>
      obtain ⟨t, -, rfl⟩ := Option.map_eq_some_iff.1 hr
      exact ⟨ha, rfl, rfl⟩
    | _ => cases hs

end Peer

namespace PeerNet

variable {env : Env} {conf : Side → Configuration} {s t : PeerNet} {x y : Side}

/-- No hello arrives at an established peer. -/
def NoReset (s : PeerNet) : PeerLabel → Prop
  | .deliver i _ => ∀ p ∈ s.net[i]?, p.msg.type = .hello →
      (s.get p.src.other).state.datagramHandler ≠ .established
  | _ => True

instance decidableNoReset (s : PeerNet) (l : PeerLabel) : Decidable (NoReset s l) :=
  match l with
  | .deliver _ _ => inferInstanceAs (Decidable (∀ _ ∈ _, _ → _))
  | .consume _ _ => .isTrue trivial
  | .act _ _ => .isTrue trivial

theorem noReset_view {l : PeerLabel} {k : HsLabel} (hl : viewLabel l = some k)
    (h : NoReset s l) : HsNet.NoReset (view s) k := by
  cases l with
  | deliver i priv =>
    cases hl
    intro q hq hm
    rw [show (view s).net = s.net.map fun p => ⟨p.src, Msg.of p.msg, viewTag p.tag⟩ from rfl,
      List.getElem?_map, Option.map_eq_some_iff] at hq
    obtain ⟨p, hp, rfl⟩ := hq
    rw [view_get]
    exact h p hp (msg_hello.1 hm)
  | consume i priv => cases hl; trivial
  | act x l => cases l <;> cases hl <;> trivial

/-- What each peer has taken is the key of the other one. -/
theorem oneKey (h : ((lts env conf).guard NoReset).Reachable s) :
    HsNet.OneKey env.ephemeralPub (view s) :=
  (HsNet.oneKey_inductive _ _).reachable (view_reachable (fun _ _ _ _ hl hc => noReset_view hl hc) h)

theorem netOk (h : ((lts env conf).guard NoReset).Reachable s) : NetOk env conf s :=
  (netOk_inductive env conf).of_guard.reachable h

/-- The computed key, from the two private keys. -/
theorem PeerOk.agreed {p : Peer} (h : PeerOk env conf x p) (ha : p.Agreed) :
    ∃ ea qb v k, p.dh.epriv = some ea ∧ p.dh.peerEpub = some qb ∧ p.key = some v ∧
      setKey v = .ok k ∧ p.encryptLayer = some k ∧
      env.agree (env.hexStrToBytes (conf x).privateKey) ea (spubOf env conf x) qb = some v := by
  obtain ⟨sa, ea, pb, qb, v, k, hsa, hea, hpb, hqb, hv, hkey, hk, hl⟩ := h.inv.keyed ha
  have hpk : p.currentState.receivedPublicKey = true := by
    cases hp : p.datagramHandler with
    | hello => exact absurd ha (h.inv.not_agreed_hello hp)
    | publicKeyExchange => exact absurd ha (h.inv.not_agreed_exchange hp)
    | echo => rw [h.inv.echoBits hp]
    | established => rw [h.inv.establishedBits hp]
  refine ⟨ea, qb, v, k, hea, hqb, hkey, hk, hl, ?_⟩
  rw [h.inv.spriv, Option.some.injEq] at hsa
  rw [h.knows.dhSpub hpk, Option.some.injEq] at hpb
  rw [hsa, hpb]
  exact hv

/-- In one session two peers that have a key have the same one. -/
theorem same_key (hc : Paired env conf) (h : ((lts env conf).guard NoReset).Reachable s)
    (ha : ∀ x, (s.get x).state.Agreed) :
    ∃ v k, ∀ x, (s.get x).state.key = some v ∧ (s.get x).state.encryptLayer = some k := by
  have hok := netOk h
  have hone := oneKey h
  -- each side has received the public value of the other's ephemeral key
  have other : ∀ x e q, (s.get x.other).state.dh.epriv = some e →
      (s.get x).state.dh.peerEpub = some q → q = env.ephemeralPub e := by
    intro x e q he hq
    obtain ⟨e', he', hk⟩ := hone.taken x q (by rw [view_get]; exact hq)
    rw [view_get] at he'
    rw [hk, Option.some.inj (he'.symm.trans he)]
  obtain ⟨ea, qa, va, ka, hea, hqa, hkeya, hka, hla, hva⟩ := (hok.peer .a).agreed (ha .a)
  obtain ⟨eb, qb, vb, kb, heb, hqb, hkeyb, hkb, hlb, hvb⟩ := (hok.peer .b).agreed (ha .b)
  rw [other .a eb qa heb hqa, hc.static] at hva
  rw [other .b ea qb hea hqb, hc.static] at hvb
  obtain rfl : va = vb := Option.some.inj (hva.symm.trans ((hc.agree ea eb).trans hvb))
  obtain rfl : ka = kb := Except.ok.inj (hka.symm.trans hkb)
  refine ⟨va, ka, fun x => ?_⟩
  cases x with
  | a => exact ⟨hkeya, hla⟩
  | b => exact ⟨hkeyb, hlb⟩

/-- A peer that has a key keeps it. -/
theorem keepsKey_step {l : PeerLabel} (hok : NetOk env conf s)
    (hs : ((lts env conf).guard NoReset).step s l t) (ha : (s.get x).state.Agreed) :
    (s.get x).state.KeepsKey (t.get x).state := by
  have move : ∀ (z : Side) (q : Peer) (n : Nat) (c : Option Datagram),
      ((s.get z).state.Agreed → (s.get z).state.KeepsKey q) →
      (s.get x).state.KeepsKey
        ((s.move (peerMachine env conf) z (⟨q.flush, n⟩, Peer.rawSends q.out) c).get x).state := by
    intro z q n c hq
    rcases Side.eq_or_eq_other z x with rfl | rfl
    · rw [Net.get_move_self]
      exact (hq ha).flush
    · rw [Net.get_move_other]
      exact .refl ha
  obtain ⟨hs, hno⟩ := hs
  rcases Net.lossy_cases hs with ⟨i, priv, p, rfl, hi, hp, rfl⟩ | ⟨z, k, r, rfl, hr, rfl⟩
  · refine move _ _ _ _ fun hz => ?_
    have ht := Peer.turn_of_recv (hok.peer p.src.other).inv p.msg priv
    exact ht.keepsKey (hok.peer _).inv hz fun he hd => hno p hi hd he
  · cases k with
    | expire =>
      obtain ⟨q, hq, rfl⟩ := Option.map_eq_some_iff.1
        (show ((s.get z).state.handle env (conf z) .expire).map _ = some r from hr)
      exact move _ _ _ _ fun hz => Peer.keepsKey_handle hz (by simp) hq
    | retransmit =>
      obtain ⟨q, hq, rfl⟩ := Option.map_eq_some_iff.1
        (show ((s.get z).state.handle env (conf z) .retransmit).map _ = some r from hr)
      exact move _ _ _ _ fun hz => Peer.keepsKey_handle hz (by simp) hq
    | stream e =>
      simp only [peerMachine] at hr
      split at hr
      · rename_i hstream
        obtain ⟨q, hq, rfl⟩ := Option.map_eq_some_iff.1 hr
        exact move _ _ _ _ fun hz => (Peer.handle_stream_same hq hstream).keepsKey hz
      · cases hr
    | junk d priv =>
      simp only [peerMachine] at hr
      split at hr
      · rename_i hj
        cases hr
        refine move _ _ _ _ fun hz => ?_
        have ht := Peer.turn_of_recv (hok.peer z).inv d priv
        refine ht.keepsKey (hok.peer z).inv hz fun _ hd => ?_
        have hm : Msg.of d = .other := (of_decide_eq_true hj).1
        simp [Msg.of, hd] at hm
      · cases hr

theorem keepsKey_run {ls : List PeerLabel} (hok : NetOk env conf s)
    (hr : ((lts env conf).guard NoReset).Run s ls t) (ha : (s.get x).state.Agreed) :
    (s.get x).state.KeepsKey (t.get x).state := by
  induction hr with
  | nil => exact .refl ha
  | cons hs _ ih =>
    have hstep := keepsKey_step hok hs ha
    exact hstep.trans (ih ((netOk_inductive env conf).step _ _ _ hok hs.1) hstep.agreed)

/-- In one session, whatever is lost, repeated or delayed, there is one key: whenever a
peer has a key and, then or later, the same peer or the other one has a key, it is the
same key. -/
theorem one_key {ls : List PeerLabel} (hc : Paired env conf)
    (h : ((lts env conf).guard NoReset).Reachable s)
    (hr : ((lts env conf).guard NoReset).Run s ls t) (hx : (s.get x).state.Agreed)
    (hy : (t.get y).state.Agreed) :
    (t.get y).state.key = (s.get x).state.key ∧
      (t.get y).state.encryptLayer = (s.get x).state.encryptLayer := by
  have hkeep := keepsKey_run (netOk h) hr hx
  have ht := h.run hr
  rcases Side.eq_or_eq_other x y with rfl | rfl
  · exact ⟨hkeep.key, hkeep.encryptLayer⟩
  · have hboth : ∀ z, (t.get z).state.Agreed := by
      intro z
      rcases Side.eq_or_eq_other x z with rfl | rfl
      · exact hkeep.agreed
      · exact hy
    obtain ⟨v, k, hvk⟩ := same_key hc ht hboth
    obtain ⟨h1, h2⟩ := hvk x
    obtain ⟨h3, h4⟩ := hvk x.other
    exact ⟨h3.trans (h1.symm.trans hkeep.key), h4.trans (h2.symm.trans hkeep.encryptLayer)⟩

/-- Side `b` computes its key one step after side `a`. -/
theorem one_key_handshakeTrace : ∃ s t : PeerNet, ¬ (s.get .b).state.Agreed ∧
    (s.get .a).state.Agreed ∧ (t.get .b).state.Agreed ∧
      (t.get .b).state.key = (s.get .a).state.key := by
  have hrun : ∃ s, ((lts smallEnv smallConf).guard NoReset).Reachable s ∧
      ¬ (s.get .b).state.Agreed ∧ (s.get .a).state.Agreed ∧ NoReset s (.deliver 7 []) ∧
        (Net.step (peerMachine smallEnv smallConf) s (.deliver 7 [])).any
          (fun t => decide (t.get .b).state.Agreed) = true :=
    LTS.exists_reachable_of_execGuard (handshakeTrace.take 7) rfl (by decide +kernel)
  obtain ⟨s, hr, hb, ha, hno, hnext⟩ := hrun
  obtain ⟨t, ht, hbt⟩ := (Option.any_eq_true _ _).1 hnext
  have hcont : ((lts smallEnv smallConf).guard NoReset).Run s [.deliver 7 []] t :=
    .single ⟨ht, hno⟩
  exact ⟨s, t, hb, ha, of_decide_eq_true hbt,
    (one_key paired_small hr hcont ha (of_decide_eq_true hbt)).1⟩

end PeerNet
end ShadowTalk.Sml
