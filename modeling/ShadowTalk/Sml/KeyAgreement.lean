import ShadowTalk.Sml.HandshakeNet

/-!
# Both sides end with the same keys

Leftovers of an earlier handshake are what can make two established peers hold
different keys. A packet is *fresh* if neither side was reset since it was sent.

* `Half`: what one side may assume about the other, in terms of the phases, the
  received key, and whether a fresh key or a fresh echo reply is under way.
* `HsNet.keyInv_inductive`: kept by every step that takes only fresh keys and echo
  replies.
* `HsNet.established_holds`: then two established sides hold each other's ephemeral
  public key.
-/
namespace ShadowTalk.Sml
open ShadowTalk.Core

/-- What side `s` knows about side `t`; `fk` and `fb` say that a fresh key and a
fresh echo reply of `s` are under way. -/
structure Half (pub : Bytes → Bytes) (s t : Hs) (fk fb : Prop) : Prop where
  hello : s.phase = .hello → s.receivedPublicKey = false
  key : fk → t.Early → s.phase = .publicKeyExchange ∨ s.phase = .echo
  received : s.phase = .publicKeyExchange → s.receivedPublicKey = true →
    (t.phase = .publicKeyExchange ∨ t.phase = .echo) ∧ s.Holds pub t
  echoBack : fb → s.Late
  finished : s.Late → t.phase ≠ .hello ∧ s.Holds pub t ∨
    t.Early ∧ t.receivedPublicKey = false ∧ ¬ fk

namespace Half

variable {pub : Bytes → Bytes} {s s' t : Hs} {fk fb fk' fb' gk gb : Prop}

/-- Phase and keys stay, and what is newly sent fits the phase. -/
theorem same (h : Half pub s t fk fb) (g : Half pub t s gk gb) (hp : s'.phase = s.phase)
    (hr : s'.receivedPublicKey = s.receivedPublicKey) (hq : s'.peerEpub = s.peerEpub)
    (he : s'.epriv = s.epriv) (hk : fk' → fk ∨ s.phase = .publicKeyExchange)
    (hb : fb' → fb ∨ s.Late) : Half pub s' t fk' fb' ∧ Half pub t s' gk gb := by
  have hlate : s'.Late ↔ s.Late := by unfold Hs.Late; rw [hp]
  have hearly : s'.Early ↔ s.Early := by unfold Hs.Early; rw [hp]
  have hst : s'.Holds pub t ↔ s.Holds pub t := by unfold Hs.Holds; rw [hq]
  have hts : t.Holds pub s' ↔ t.Holds pub s := by unfold Hs.Holds Hs.Current; rw [he]
  refine ⟨⟨by rw [hp, hr]; exact h.hello, fun hk' ht => ?_, ?_, fun hb' => ?_, fun hl => ?_⟩,
    ⟨g.hello, ?_, ?_, g.echoBack, ?_⟩⟩
  · rw [hp]
    rcases hk hk' with hk | hk
    · exact h.key hk ht
    · exact .inl hk
  · rw [hp, hr, hst]; exact h.received
  · rw [hlate]; exact (hb hb').elim h.echoBack id
  · rw [hlate] at hl
    rw [hst]
    refine (h.finished hl).imp id fun ⟨h1, h2, h3⟩ => ⟨h1, h2, fun hk' => ?_⟩
    rcases hk hk' with hk | hk
    · exact h3 hk
    · rcases hl with hl | hl <;> rw [hk] at hl <;> cases hl
  · rw [hearly]; exact g.key
  · rw [hp, hts]; exact g.received
  · rw [hp, hr, hts, hearly]; exact g.finished

/-- The hello phase ends and a new ephemeral key is drawn. -/
theorem enterExchange (h : Half pub s t fk fb) (g : Half pub t s gk gb)
    (hp : s.phase = .hello) (hp' : s'.phase = .publicKeyExchange)
    (hr : s'.receivedPublicKey = s.receivedPublicKey) (hb : fb' → fb) :
    Half pub s' t fk' fb' ∧ Half pub t s' gk gb := by
  have hr' : s'.receivedPublicKey = false := hr.trans (h.hello hp)
  have hno : ¬ fb' := fun hb' => by
    rcases h.echoBack (hb hb') with hl | hl <;> rw [hp] at hl <;> cases hl
  refine ⟨⟨fun hp => ?_, fun _ _ => .inl hp', fun _ hk => ?_, fun hb' => absurd hb' hno,
    fun hl => ?_⟩, ⟨g.hello, fun hk _ => g.key hk (.inl hp), fun h1 h2 => ?_, g.echoBack,
    fun hl => ?_⟩⟩
  · rw [hp'] at hp; cases hp
  · rw [hr'] at hk; cases hk
  · rcases hl with hl | hl <;> rw [hp'] at hl <;> cases hl
  · rcases (g.received h1 h2).1 with h | h <;> rw [hp] at h <;> cases h
  · rcases g.finished hl with ⟨h1, -⟩ | ⟨-, -, h3⟩
    · exact absurd hp h1
    · exact .inr ⟨.inr hp', hr', h3⟩

/-- A fresh key is received. -/
theorem takeKey (h : Half pub s t fk fb) (g : Half pub t s gk gb)
    (hp : s.phase = .publicKeyExchange) (hp' : s'.phase = s.phase)
    (hholds : s'.Holds pub t) (he : s'.epriv = s.epriv) (hgk : gk) (hb : fb' → fb) :
    Half pub s' t fk' fb' ∧ Half pub t s' gk gb := by
  have hts : t.Holds pub s' ↔ t.Holds pub s := by unfold Hs.Holds Hs.Current; rw [he]
  have ht := g.key hgk (.inr hp)
  have hpk : s'.phase = .publicKeyExchange := hp'.trans hp
  refine ⟨⟨fun hh => ?_, fun _ _ => .inl hpk, fun _ _ => ⟨ht, hholds⟩, fun hb' => ?_, fun hl => ?_⟩,
    ⟨g.hello, fun _ _ => ht, fun h1 h2 => ?_, g.echoBack, fun hl => ?_⟩⟩
  · rw [hpk] at hh; cases hh
  · rcases h.echoBack (hb hb') with hl | hl <;> rw [hp] at hl <;> cases hl
  · rcases hl with hl | hl <;> rw [hpk] at hl <;> cases hl
  · rw [hp', hts]; exact g.received h1 h2
  · rw [hp', hts]
    rcases g.finished hl with h1 | ⟨-, -, h3⟩
    · exact .inl h1
    · exact absurd hgk h3

/-- The key exchange ends. -/
theorem enterEcho (h : Half pub s t fk fb) (g : Half pub t s gk gb)
    (hp : s.phase = .publicKeyExchange) (hr : s.receivedPublicKey = true)
    (hp' : s'.phase = .echo) (hq : s'.peerEpub = s.peerEpub) (he : s'.epriv = s.epriv) :
    Half pub s' t fk' fb' ∧ Half pub t s' gk gb := by
  have hst : s'.Holds pub t ↔ s.Holds pub t := by unfold Hs.Holds; rw [hq]
  have hts : t.Holds pub s' ↔ t.Holds pub s := by unfold Hs.Holds Hs.Current; rw [he]
  obtain ⟨ht, hh⟩ := h.received hp hr
  have hth : t.phase ≠ .hello := by rcases ht with ht | ht <;> rw [ht] <;> decide
  refine ⟨⟨fun hh => ?_, fun _ _ => .inr hp', fun hh => ?_, fun _ => .inl hp',
    fun _ => .inl ⟨hth, hst.2 hh⟩⟩, ⟨g.hello, fun _ hl => ?_, fun h1 h2 => ?_, g.echoBack,
    fun hl => ?_⟩⟩
  · rw [hp'] at hh; cases hh
  · rw [hp'] at hh; cases hh
  · rcases hl with hl | hl <;> rw [hp'] at hl <;> cases hl
  · exact ⟨.inr hp', hts.2 (g.received h1 h2).2⟩
  · rcases g.finished hl with ⟨-, h2⟩ | ⟨-, h2, -⟩
    · exact .inl ⟨by rw [hp']; decide, hts.2 h2⟩
    · rw [hr] at h2; cases h2

/-- A fresh echo reply is received. -/
theorem establish (h : Half pub s t fk fb) (g : Half pub t s gk gb) (hp : s.phase = .echo)
    (hp' : s'.phase = .established) (hq : s'.peerEpub = s.peerEpub) (he : s'.epriv = s.epriv)
    (hgb : gb) (hk : fk' → fk) : Half pub s' t fk' fb' ∧ Half pub t s' gk gb := by
  have hst : s'.Holds pub t ↔ s.Holds pub t := by unfold Hs.Holds; rw [hq]
  have hts : t.Holds pub s' ↔ t.Holds pub s := by unfold Hs.Holds Hs.Current; rw [he]
  have ht := g.echoBack hgb
  refine ⟨⟨fun hh => ?_, fun _ hl => ?_, fun hh => ?_, fun _ => .inr hp', fun _ => ?_⟩,
    ⟨g.hello, fun _ hl => ?_, fun h1 => ?_, g.echoBack, fun hl => ?_⟩⟩
  · rw [hp'] at hh; cases hh
  · rcases hl with hl | hl <;> rcases ht with ht | ht <;> rw [hl] at ht <;> cases ht
  · rw [hp'] at hh; cases hh
  · rw [hst]
    exact (h.finished (.inl hp)).imp id fun ⟨h1, h2, h3⟩ => ⟨h1, h2, fun hk' => h3 (hk hk')⟩
  · rcases hl with hl | hl <;> rw [hp'] at hl <;> cases hl
  · rcases ht with ht | ht <;> rw [h1] at ht <;> cases ht
  · rcases g.finished hl with ⟨-, h2⟩ | ⟨h1, -⟩
    · exact .inl ⟨by rw [hp']; decide, hts.2 h2⟩
    · rcases h1 with h1 | h1 <;> rw [hp] at h1 <;> cases h1

/-- A hello resets `s`: nothing under way is fresh any more. -/
theorem reset (g : Half pub t s gk gb) (hp : s.phase = .established) (hp' : s'.phase = .hello)
    (hr : s'.receivedPublicKey = false) (hfk : ¬ fk') (hfb : ¬ fb') {gk' gb' : Prop}
    (hgk : ¬ gk') (hgb : ¬ gb') : Half pub s' t fk' fb' ∧ Half pub t s' gk' gb' := by
  refine ⟨⟨fun _ => hr, fun hk => absurd hk hfk, fun hh => ?_, fun hb => absurd hb hfb, fun hl => ?_⟩,
    ⟨g.hello, fun hk => absurd hk hgk, fun h1 h2 => ?_, fun hb => absurd hb hgb,
      fun _ => .inr ⟨.inl hp', hr, hgk⟩⟩⟩
  · rw [hp'] at hh; cases hh
  · rcases hl with hl | hl <;> rw [hp'] at hl <;> cases hl
  · rcases (g.received h1 h2).1 with hh | hh <;> rw [hp] at hh <;> cases hh

/-- Two established sides hold each other's current key. -/
theorem established (h : Half pub s t fk fb) (hs : s.phase = .established)
    (ht : t.phase = .established) : s.Holds pub t := by
  rcases h.finished (.inr hs) with ⟨-, h⟩ | ⟨h, -⟩
  · exact h
  · rcases h with h | h <;> rw [ht] at h <;> cases h

end Half

namespace Half

variable {pub : Bytes → Bytes} {s s₁ t : Hs} {fk fb fk' fb' gk gb : Prop} {m : Msg} {ms : List Msg}

theorem takeHello (h : Half pub s t fk fb) (g : Half pub t s gk gb) (hp : s.phase = .hello)
    (ht : s.TakeHello m s₁ ms) (hk : fk' → fk) (hb : fb' → fb) :
    s₁.phase = .hello ∧ Half pub s₁ t fk' fb' ∧ Half pub t s₁ gk gb := by
  have hk' : fk' → fk ∨ s.phase = .publicKeyExchange := fun h => .inl (hk h)
  cases ht with
  | hello => exact ⟨hp, h.same g rfl rfl rfl rfl hk' (fun h => .inl (hb h))⟩
  | ack => exact ⟨hp, h.same g rfl rfl rfl rfl hk' (fun h => .inl (hb h))⟩

theorem takeExchange (fk' : Prop) (h : Half pub s t fk fb) (g : Half pub t s gk gb)
    (hp : s.phase = .publicKeyExchange) (ht : s.TakeKey m s₁ ms)
    (hkey : ∀ k, m = .publicKey k → gk ∧ t.Current pub k) (hb : fb' → fb) :
    s₁.phase = .publicKeyExchange ∧ Half pub s₁ t fk' fb' ∧ Half pub t s₁ gk gb := by
  cases ht with
  | key k =>
    obtain ⟨hgk, hc⟩ := hkey k rfl
    exact ⟨hp, h.takeKey g hp rfl ⟨k, rfl, hc⟩ rfl hgk hb⟩
  | ack => exact ⟨hp, h.same g rfl rfl rfl rfl (fun _ => .inr hp) (fun h => .inl (hb h))⟩
  | hello => exact ⟨hp, h.same g rfl rfl rfl rfl (fun _ => .inr hp) (fun h => .inl (hb h))⟩
  | ignore => exact ⟨hp, h.same g rfl rfl rfl rfl (fun _ => .inr hp) (fun h => .inl (hb h))⟩

end Half

theorem Hs.TakeHello.echoBack_notMem {s s₁ : Hs} {m : Msg} {ms : List Msg}
    (h : s.TakeHello m s₁ ms) (c : Bytes) : .echoBack c ∉ ms := by
  cases h <;> simp

theorem Hs.TakeHello.publicKey_notMem {s s₁ : Hs} {m : Msg} {ms : List Msg}
    (h : s.TakeHello m s₁ ms) (k : Bytes) : .publicKey k ∉ ms := by
  cases h <;> simp

theorem Hs.TakeHello.receivedPublicKey {s s₁ : Hs} {m : Msg} {ms : List Msg}
    (h : s.TakeHello m s₁ ms) : s₁.epriv = s.epriv := by
  cases h <;> rfl

theorem Hs.TakeKey.echoBack_notMem {s s₁ : Hs} {m : Msg} {ms : List Msg}
    (h : s.TakeKey m s₁ ms) (c : Bytes) : .echoBack c ∉ ms := by
  cases h <;> simp

theorem Hs.recv_established_hello {pub : Bytes → Bytes} {ok : Bytes → Bytes → Bool}
    {priv : Bytes} {s s' : Hs} {ms : List Msg} (hp : s.phase = .established)
    (h : Hs.Recv pub ok priv s .hello s' ms) :
    s'.phase = .hello ∧ s'.receivedPublicKey = false ∧ ms = [.hello, .ack] := by
  have hno : ∀ q : Handler, q ≠ .established → s.phase ≠ q := fun q hq hs => hq (hs ▸ hp)
  cases h with
  | reset => exact ⟨rfl, rfl, rfl⟩
  | establishedIgnore _ hh => exact absurd rfl hh
  | helloMore hp' | helloDone hp' | helloIgnore hp' => exact absurd hp' (hno _ (by decide))
  | exchangeMore hp' | exchangeDone hp' => exact absurd hp' (hno _ (by decide))
  | echoIgnore hp' => exact absurd hp' (hno _ (by decide))

namespace HsNet

/-- Neither side was reset since `p` was sent. -/
def Fresh (s : HsNet) (p : Packet Msg (Tag Msg)) : Prop :=
  p.tag.srcResets = (s.get p.src).resets ∧ p.tag.dstResets = (s.get p.src.other).resets

/-- A fresh packet of `x` carries its current key, sent during its key exchange. -/
def FreshKey (pub : Bytes → Bytes) (s : HsNet) (x : Side) : Prop :=
  ∃ p ∈ s.net, p.src = x ∧ s.Fresh p ∧ p.tag.srcPhase = .publicKeyExchange ∧
    ∃ k, p.msg = .publicKey k ∧ (s.get x).state.Current pub k

def FreshEchoBack (s : HsNet) (x : Side) : Prop :=
  ∃ p ∈ s.net, p.src = x ∧ s.Fresh p ∧ ∃ c, p.msg = .echoBack c

/-- The keys and echo replies that a delivery lets a peer use are fresh. -/
def TakesFresh (pub : Bytes → Bytes) (s : HsNet) : HsLabel → Prop
  | .deliver i _ => ∀ p, s.net[i]? = some p →
    ((s.get p.src.other).state.phase = .publicKeyExchange → ∀ k, p.msg = .publicKey k →
      s.Fresh p ∧ p.tag.srcPhase = .publicKeyExchange ∧ (s.get p.src).state.Current pub k) ∧
    ((s.get p.src.other).state.phase = .echo → ∀ c, p.msg = .echoBack c → s.Fresh p)
  | _ => True

variable {pub : Bytes → Bytes} {ok : Side → Bytes → Bytes → Bool} {s s' : HsNet} {l : HsLabel}
  {x : Side} {r : Party Hs} {ms : List Msg} {c : Option Msg}

theorem freshKey_move_self (hr : r.resets = (s.get x).resets)
    (he : r.state.epriv = (s.get x).state.epriv)
    (h : FreshKey pub (s.move (hsMachine pub ok) x (r, ms) c) x) :
    FreshKey pub s x ∨ r.state.phase = .publicKeyExchange ∧ ∃ k, .publicKey k ∈ ms := by
  obtain ⟨p, hp, rfl, hf, hph, k, hm, hc⟩ := h
  rcases Net.mem_move.1 hp with hp | ⟨-, hms, ht⟩
  · refine .inl ⟨p, hp, rfl, ?_, hph, k, hm, ?_⟩
    · simpa only [Fresh, Net.get_move_self, Net.get_move_other, hr] using hf
    · simpa only [Hs.Current, Net.get_move_self, he] using hc
  · rw [ht] at hph
    exact .inr ⟨hph, k, hm ▸ hms⟩

theorem freshKey_move_other (hr : r.resets = (s.get x).resets) :
    FreshKey pub (s.move (hsMachine pub ok) x (r, ms) c) x.other ↔ FreshKey pub s x.other := by
  constructor
  · intro hsent
    obtain ⟨p, hp, hsrc, hf, hph, k, hm, hc⟩ := hsent
    rcases Net.mem_move.1 hp with hp | ⟨hx, -⟩
    · refine ⟨p, hp, hsrc, ?_, hph, k, hm, by simpa only [Net.get_move_other] using hc⟩
      simpa only [Fresh, hsrc, Side.other_other, Net.get_move_self, Net.get_move_other, hr] using hf
    · rw [hsrc] at hx
      exact absurd hx (Side.other_ne x)
  · intro hsent
    obtain ⟨p, hp, hsrc, hf, hph, k, hm, hc⟩ := hsent
    refine ⟨p, Net.mem_move.2 (.inl hp), hsrc, ?_, hph, k, hm,
      by simpa only [Net.get_move_other] using hc⟩
    simpa only [Fresh, hsrc, Side.other_other, Net.get_move_self, Net.get_move_other, hr] using hf

theorem freshEchoBack_move_self (hr : r.resets = (s.get x).resets)
    (h : FreshEchoBack (s.move (hsMachine pub ok) x (r, ms) c) x) :
    FreshEchoBack s x ∨ ∃ k, .echoBack k ∈ ms := by
  obtain ⟨p, hp, rfl, hf, k, hm⟩ := h
  rcases Net.mem_move.1 hp with hp | ⟨-, hms, -⟩
  · refine .inl ⟨p, hp, rfl, ?_, k, hm⟩
    simpa only [Fresh, Net.get_move_self, Net.get_move_other, hr] using hf
  · exact .inr ⟨k, hm ▸ hms⟩

theorem freshEchoBack_move_other (hr : r.resets = (s.get x).resets) :
    FreshEchoBack (s.move (hsMachine pub ok) x (r, ms) c) x.other ↔ FreshEchoBack s x.other := by
  constructor
  · intro hsent
    obtain ⟨p, hp, hsrc, hf, k, hm⟩ := hsent
    rcases Net.mem_move.1 hp with hp | ⟨hx, -⟩
    · refine ⟨p, hp, hsrc, ?_, k, hm⟩
      simpa only [Fresh, hsrc, Side.other_other, Net.get_move_self, Net.get_move_other, hr] using hf
    · rw [hsrc] at hx
      exact absurd hx (Side.other_ne x)
  · intro hsent
    obtain ⟨p, hp, hsrc, hf, k, hm⟩ := hsent
    refine ⟨p, Net.mem_move.2 (.inl hp), hsrc, ?_, k, hm⟩
    simpa only [Fresh, hsrc, Side.other_other, Net.get_move_self, Net.get_move_other, hr] using hf

/-- The reset counts in the tags are counts of the past. -/
def TagsPast (s : HsNet) : Prop :=
  ∀ p ∈ s.net, p.tag.srcResets ≤ (s.get p.src).resets ∧ p.tag.dstResets ≤ (s.get p.src.other).resets

theorem TagsPast.move (h : TagsPast s) (hr : (s.get x).resets ≤ r.resets) :
    TagsPast (s.move (hsMachine pub ok) x (r, ms) c) := by
  intro p hp
  rcases Net.mem_move.1 hp with hp | ⟨rfl, -, ht⟩
  · obtain ⟨h1, h2⟩ := h p hp
    rcases Side.eq_or_eq_other x p.src with hx | hx
    · simp only [hx, Net.get_move_self, Net.get_move_other] at h1 h2 ⊢
      exact ⟨h1.trans hr, h2⟩
    · simp only [hx, Side.other_other, Net.get_move_self, Net.get_move_other] at h1 h2 ⊢
      exact ⟨h1, h2.trans hr⟩
  · rw [ht, Net.get_move_self, Net.get_move_other]
    exact ⟨Nat.le_refl _, Nat.le_refl _⟩

/-- A reset makes everything sent before stale. -/
theorem not_fresh_of_reset (h : TagsPast s) (hr : r.resets = (s.get x).resets + 1)
    {p : Packet Msg (Tag Msg)} (hp : p ∈ s.net) :
    ¬ Fresh (s.move (hsMachine pub ok) x (r, ms) c) p := by
  intro hf
  obtain ⟨h1, h2⟩ := h p hp
  unfold Fresh at hf
  rcases Side.eq_or_eq_other x p.src with hx | hx
  · simp only [hx, Net.get_move_self] at hf h1
    omega
  · simp only [hx, Side.other_other, Net.get_move_self] at hf h2
    omega

/-- The two halves, seen from `x`. -/
def Halves (pub : Bytes → Bytes) (s : HsNet) (x : Side) : Prop :=
  Half pub (s.get x).state (s.get x.other).state (FreshKey pub s x) (FreshEchoBack s x) ∧
    Half pub (s.get x.other).state (s.get x).state (FreshKey pub s x.other)
      (FreshEchoBack s x.other)

theorem Halves.symm (h : Halves pub s x) : Halves pub s x.other := by
  unfold Halves
  rw [Side.other_other]
  exact ⟨h.2, h.1⟩

/-- Side `x` moves without a reset: what is left to show about the two sides. -/
theorem halves_move (hr : r.resets = (s.get x).resets)
    (h : ∀ fk' fb' : Prop,
      (r.state.epriv = (s.get x).state.epriv →
        fk' → FreshKey pub s x ∨ r.state.phase = .publicKeyExchange ∧ ∃ k, .publicKey k ∈ ms) →
      (fb' → FreshEchoBack s x ∨ ∃ k, .echoBack k ∈ ms) →
      Half pub r.state (s.get x.other).state fk' fb' ∧
        Half pub (s.get x.other).state r.state (FreshKey pub s x.other)
          (FreshEchoBack s x.other)) :
    Halves pub (s.move (hsMachine pub ok) x (r, ms) c) x := by
  have := h (FreshKey pub (s.move (hsMachine pub ok) x (r, ms) c) x)
    (FreshEchoBack (s.move (hsMachine pub ok) x (r, ms) c) x)
    (fun he => freshKey_move_self hr he) (freshEchoBack_move_self hr)
  unfold Halves
  rw [Net.get_move_self, Net.get_move_other, freshKey_move_other hr, freshEchoBack_move_other hr]
  exact this

/-- A received message, without a reset. -/
theorem halves_recv {priv : Bytes} {m : Msg} (h : Halves pub s x)
    (hr : Hs.Recv pub (ok x) priv (s.get x).state m r.state ms)
    (hres : r.resets = (s.get x).resets) (hno : ¬ ((s.get x).state.phase = .established ∧ m = .hello))
    (hkey : (s.get x).state.phase = .publicKeyExchange → ∀ k, m = .publicKey k →
      FreshKey pub s x.other ∧ (s.get x.other).state.Current pub k)
    (hback : (s.get x).state.phase = .echo → ∀ k, m = .echoBack k → FreshEchoBack s x.other) :
    Halves pub (s.move (hsMachine pub ok) x (r, ms) c) x := by
  obtain ⟨h, g⟩ := h
  obtain ⟨hs, n⟩ := r
  refine halves_move hres fun fk' fb' hfk hfb => ?_
  -- nothing of the exchange changes, and no key is sent
  have keep : hs = (s.get x).state → (∀ k, .echoBack k ∈ ms → (s.get x).state.Late) →
      Half pub hs (s.get x.other).state fk' fb' ∧
        Half pub (s.get x.other).state hs (FreshKey pub s x.other) (FreshEchoBack s x.other) :=
    fun he hb => by
      subst he
      exact h.same g rfl rfl rfl rfl (fun hk => (hfk rfl hk).imp id And.left)
        (fun hb' => (hfb hb').imp id fun ⟨k, hk⟩ => hb k hk)
  cases hr with
  | helloMore hp ht =>
    refine (h.takeHello g hp ht (fun hk => ?_) fun hb => ?_).2
    · exact (hfk ht.receivedPublicKey hk).resolve_right fun ⟨_, k, hk⟩ => ht.publicKey_notMem k hk
    · exact (hfb hb).resolve_right fun ⟨k, hk⟩ => ht.echoBack_notMem k hk
  | helloDone hp ht =>
    obtain ⟨hp₁, h₁, g₁⟩ := h.takeHello g hp ht id id
    refine h₁.enterExchange g₁ hp₁ rfl rfl fun hb => ?_
    refine (hfb hb).resolve_right fun ⟨k, hk⟩ => ?_
    rcases List.mem_append.1 hk with hk | hk
    · exact ht.echoBack_notMem k hk
    · cases List.mem_singleton.1 hk
  | helloIgnore hp => exact keep rfl (by simp)
  | exchangeMore hp ht =>
    refine (h.takeExchange fk' g hp ht (hkey hp) fun hb => ?_).2
    exact (hfb hb).resolve_right fun ⟨k, hk⟩ => ht.echoBack_notMem k hk
  | exchangeDone hp ht hd =>
    obtain ⟨hp₁, h₁, g₁⟩ := h.takeExchange False g hp ht (hkey hp) id
    exact h₁.enterEcho g₁ hp₁ hd.1 rfl rfl rfl
  | echoKey k hp => exact keep rfl (by simp)
  | echoBack hp =>
    refine h.establish g hp rfl rfl rfl (hback hp _ rfl) fun hk => ?_
    exact (hfk rfl hk).resolve_right fun ⟨_, k, hk⟩ => by cases hk
  | echoIgnore hp => exact keep rfl (by simp)
  | answer k hp => exact keep rfl fun _ _ => hp
  | reset hp => exact absurd ⟨hp, rfl⟩ hno
  | establishedIgnore hp => exact keep rfl (by simp)

/-- A hello for an established peer. -/
theorem halves_reset {priv : Bytes} (h : Halves pub s x) (ht : TagsPast s)
    (hp : (s.get x).state.phase = .established)
    (hr : Hs.Recv pub (ok x) priv (s.get x).state .hello r.state ms)
    (hres : r.resets = (s.get x).resets + 1) :
    Halves pub (s.move (hsMachine pub ok) x (r, ms) c) x := by
  obtain ⟨hp', hr', hms⟩ := Hs.recv_established_hello hp hr
  -- a fresh packet would have to be one of the two that are sent now
  have stale : ∀ y, ∀ p ∈ (s.move (hsMachine pub ok) x (r, ms) c).net, p.src = y →
      Fresh (s.move (hsMachine pub ok) x (r, ms) c) p → p.msg ∈ ms := fun y p hpn _ hf => by
    rcases Net.mem_move.1 hpn with hpn | ⟨-, hm, -⟩
    · exact absurd hf (not_fresh_of_reset ht hres hpn)
    · exact hm
  have hkey : ∀ y, ¬ FreshKey pub (s.move (hsMachine pub ok) x (r, ms) c) y :=
    fun y ⟨p, hpn, hsrc, hf, _, k, hm, _⟩ => by
      have := stale y p hpn hsrc hf
      rw [hm, hms] at this
      simp at this
  have hback : ∀ y, ¬ FreshEchoBack (s.move (hsMachine pub ok) x (r, ms) c) y :=
    fun y ⟨p, hpn, hsrc, hf, k, hm⟩ => by
      have := stale y p hpn hsrc hf
      rw [hm, hms] at this
      simp at this
  have := Half.reset h.2 hp hp' hr' (hkey x) (hback x) (hkey x.other) (hback x.other)
  unfold Halves
  rw [Net.get_move_self, Net.get_move_other]
  exact this

structure KeyInv (pub : Bytes → Bytes) (s : HsNet) : Prop where
  quiet : s.Quiet
  tags : TagsPast s
  timer : ∀ x c, .echoBack c ∉ (s.get x).state.timer.pending
  halves : ∀ x, Halves pub s x

theorem keyInv_start (pub : Bytes → Bytes) : KeyInv pub start where
  quiet := quiet_start
  tags p hp := by
    simp only [start, List.mem_cons, List.not_mem_nil, or_false] at hp
    rcases hp with rfl | rfl <;> exact ⟨Nat.le_refl _, Nat.le_refl _⟩
  timer x c := by cases x <;> simp [start, Net.get, Two.get, Hs.start, Hs.sendWithRetransmit,
    Hs.flush, Timer.pending, Timer.new, Timer.asyncWait]
  halves x := by
    have hk : ∀ y, ¬ FreshKey pub start y := by
      intro y hsent
      obtain ⟨p, hp, -, -, -, k, hm, -⟩ := hsent
      simp only [start, List.mem_cons, List.not_mem_nil, or_false] at hp
      rcases hp with rfl | rfl <;> cases hm
    have hb : ∀ y, ¬ FreshEchoBack start y := by
      intro y hsent
      obtain ⟨p, hp, -, -, k, hm⟩ := hsent
      simp only [start, List.mem_cons, List.not_mem_nil, or_false] at hp
      rcases hp with rfl | rfl <;> cases hm
    have hp : ∀ y, (start.get y).state.phase = .hello := by intro y; cases y <;> rfl
    have hr : ∀ y, (start.get y).state.receivedPublicKey = false := by intro y; cases y <;> rfl
    have half : ∀ y z, Half pub (start.get y).state (start.get z).state (FreshKey pub start y)
        (FreshEchoBack start y) := fun y z => by
      refine ⟨fun _ => hr y, fun h => absurd h (hk y), fun h => ?_, fun h => absurd h (hb y),
        fun h => ?_⟩
      · rw [hp] at h; cases h
      · rcases h with h | h <;> rw [hp] at h <;> cases h
    exact ⟨half x _, half x.other _⟩

/-- A retransmission, or a deadline. -/
theorem halves_timer {t : Timer Msg} (h : Halves pub s x)
    (hms : ∀ c, .echoBack c ∉ ms) :
    Halves pub (s.move (hsMachine pub ok) x
      (⟨{ (s.get x).state with timer := t }, (s.get x).resets⟩, ms) c) x :=
  halves_move rfl fun _ _ hfk hfb =>
    h.1.same h.2 rfl rfl rfl rfl (fun hk => (hfk rfl hk).imp id And.left)
      (fun hb => .inl ((hfb hb).resolve_right fun ⟨k, hk⟩ => hms k hk))

theorem KeyInv.move (h : KeyInv pub s) (hm : Move pub ok s l x r ms c)
    (hf : TakesFresh pub s l) : KeyInv pub (s.move (hsMachine pub ok) x (r, ms) c) := by
  have hx : Halves pub (s.move (hsMachine pub ok) x (r, ms) c) x := by
    cases hm with
    | @deliver i priv p hs ms hi hp hr =>
      by_cases hreset : (s.get p.src.other).state.phase = .established ∧ p.msg = .hello
      · rw [hreset.2] at hr
        refine halves_reset (h.halves _) h.tags hreset.1 hr ?_
        show _ + (s.get p.src.other).state.resetBy p.msg = _
        rw [Hs.resetBy, if_pos hreset]
      · have hres : (s.get p.src.other).resets + (s.get p.src.other).state.resetBy p.msg =
            (s.get p.src.other).resets := by rw [Hs.resetBy, if_neg hreset, Nat.add_zero]
        refine halves_recv (h.halves _) hr hres hreset (fun hph k hk => ?_) fun hph k hk => ?_
        · obtain ⟨h1, h2, h3⟩ := (hf p hi).1 hph k hk
          rw [Side.other_other]
          exact ⟨⟨p, hp, rfl, h1, h2, k, hk, h3⟩, h3⟩
        · rw [Side.other_other]
          exact ⟨p, hp, rfl, (hf p hi).2 hph k hk, k, hk⟩
    | junk hr =>
      exact halves_recv (h.halves _) hr rfl (by simp) (by simp) (by simp)
    | expire ha => exact halves_timer (h.halves _) (by simp)
    | @retransmit x m q hq =>
      refine halves_timer (h.halves _) fun k hk => h.timer x k ?_
      rw [Timer.mem_pending, hq, ← List.mem_singleton.1 hk]
      exact .inr List.mem_cons_self
  refine ⟨hm.quiet h.quiet, h.tags.move ?_, fun y k hk => ?_, fun y => ?_⟩
  · cases hm with
    | deliver => exact Nat.le_add_right _ _
    | _ => exact Nat.le_refl _
  · rcases Side.eq_or_eq_other x y with rfl | rfl
    · rw [Net.get_move_self] at hk
      rcases hm.pending hk with hk | hk
      · exact h.timer _ k hk
      · rcases hk with hk | ⟨_, hk⟩ | hk <;> cases hk
    · rw [Net.get_move_other] at hk
      exact h.timer _ k hk
  · rcases Side.eq_or_eq_other x y with rfl | rfl
    · exact hx
    · exact hx.symm

theorem keyInv_inductive (pub : Bytes → Bytes) (ok : Side → Bytes → Bytes → Bool) :
    ((lts pub ok).guard (TakesFresh pub)).Inductive (KeyInv pub) where
  init := forall_eq.2 (keyInv_start pub)
  step s l s' h hs := by
    obtain ⟨x, r, ms, c, hm, rfl⟩ := move_of_step h.quiet hs.1
    exact h.move hm hs.2

/-- Two established sides hold each other's current key, in every run that takes
only fresh keys and echo replies. -/
theorem established_holds (h : ((lts pub ok).guard (TakesFresh pub)).Reachable s)
    (he : ∀ x, (s.get x).state.phase = .established) (x : Side) :
    (s.get x).state.Holds pub (s.get x.other).state :=
  (((keyInv_inductive pub ok).reachable h).halves x).1.established (he x) (he x.other)

end HsNet

end ShadowTalk.Sml
