import ShadowTalk.Sml.KeyAgreement
import ShadowTalk.Sml.PeerNet

/-!
# The shared key of two established peers

* `key_agreed_of_takesFresh`: in every run in which a peer takes a public key or
  an echo reply only if neither side was reset since it was sent (and the key is
  the sender's current one), two established peers have the same key.
* `key_not_agreed`: without that, leftovers of the first handshake let a peer
  finish the second one alone, with another key than the other side's.
-/
namespace ShadowTalk.Sml.PeerNet
open ShadowTalk.Core

/-- The static keys that the sides have configured are each other's, and the
agreement is Diffie-Hellman. -/
structure Paired (env : Env) (conf : Side → Configuration) : Prop where
  static : ∀ x, spubOf env conf x = env.hexStrToBytes (conf x.other).publicKey
  agree : ∀ ea eb,
    env.agree (env.hexStrToBytes (conf .a).privateKey) ea
        (env.hexStrToBytes (conf .b).publicKey) (env.ephemeralPub eb) =
      env.agree (env.hexStrToBytes (conf .b).privateKey) eb
        (env.hexStrToBytes (conf .a).publicKey) (env.ephemeralPub ea)

/-- Neither side was reset since `p` was sent. -/
def Fresh (s : PeerNet) (p : Packet Datagram (Tag Datagram)) : Prop :=
  p.tag.srcResets = (s.get p.src).resets ∧ p.tag.dstResets = (s.get p.src.other).resets

/-- The public key that a peer takes in the key exchange is fresh, was sent in
the sender's key exchange and is its current one; the echo reply that a peer
takes while it waits for one is fresh. -/
def TakesFresh (s : PeerNet) : PeerLabel → Prop
  | .deliver i _ => ∀ p ∈ s.net[i]?,
    ((s.get p.src.other).state.datagramHandler = .publicKeyExchange → p.msg.type = .publicKey →
      s.Fresh p ∧ p.tag.srcPhase = .publicKeyExchange ∧
        (s.get p.src).state.dh.epub = some p.msg.payload) ∧
    ((s.get p.src.other).state.datagramHandler = .echo → p.msg.type = .echoBack → s.Fresh p)
  | _ => True

instance (s : PeerNet) (p : Packet Datagram (Tag Datagram)) : Decidable (s.Fresh p) :=
  inferInstanceAs (Decidable (_ ∧ _))

instance (s : PeerNet) (l : PeerLabel) : Decidable (TakesFresh s l) :=
  match l with
  | .deliver _ _ => inferInstanceAs (Decidable (∀ _ ∈ _, _ ∧ _))
  | .consume _ _ => .isTrue trivial
  | .act _ _ => .isTrue trivial

variable {env : Env} {conf : Side → Configuration} {s : PeerNet}

/-- `TakesFresh` is what the handshakes need. -/
theorem takesFresh_view {l : PeerLabel} {k : HsLabel} (h : NetOk env conf s)
    (hl : viewLabel l = some k) (hf : TakesFresh s l) :
    HsNet.TakesFresh env.ephemeralPub (view s) k := by
  cases l with
  | deliver i priv =>
    cases hl
    intro q hq
    rw [show (view s).net = s.net.map fun p => ⟨p.src, Msg.of p.msg, viewTag p.tag⟩ from rfl,
      List.getElem?_map, Option.map_eq_some_iff] at hq
    obtain ⟨p, hp, rfl⟩ := hq
    obtain ⟨h1, h2⟩ := hf p hp
    simp only [HsNet.Fresh, view_get]
    refine ⟨fun hph k hk => ?_, fun hph c hc => ?_⟩
    · obtain ⟨ht, rfl⟩ := msg_publicKey hk
      obtain ⟨h3, h4, h5⟩ := h1 hph ht
      refine ⟨h3, h4, ?_⟩
      rw [(h.peer p.src).inv.epub, Option.map_eq_some_iff] at h5
      obtain ⟨e, he, hk⟩ := h5
      exact ⟨e, he, hk.symm⟩
    · exact h2 hph (msg_echoBack hc).1
  | consume i priv => cases hl; trivial
  | act x l => cases l <;> cases hl <;> trivial

/-- What an established peer has computed. -/
theorem PeerOk.key {x : Side} {p : Peer} (h : PeerOk env conf x p)
    (hp : p.datagramHandler = .established) : ∃ ea qb v, p.dh.epriv = some ea ∧
      p.dh.peerEpub = some qb ∧ p.key = some v ∧
      env.agree (env.hexStrToBytes (conf x).privateKey) ea (spubOf env conf x) qb = some v := by
  have hb := h.inv.establishedBits hp
  obtain ⟨sa, ea, pb, qb, v, -, hsa, hea, hpb, hqb, hv, hkey, -⟩ := h.inv.keyed (by rw [hb])
  refine ⟨ea, qb, v, hea, hqb, hkey, ?_⟩
  rw [h.inv.spriv, Option.some.injEq] at hsa
  rw [h.knows.dhSpub (by rw [hb]), Option.some.injEq] at hpb
  rw [hsa, hpb]
  exact hv

/-- Two established peers have the same key, in every run that takes only fresh
keys and echo replies. -/
theorem key_agreed_of_takesFresh (hc : Paired env conf)
    (h : ((lts env conf).guard TakesFresh).Reachable s)
    (he : ∀ x, (s.get x).state.datagramHandler = .established) :
    ∃ v, ∀ x, (s.get x).state.key = some v := by
  have hok : NetOk env conf s := (netOk_inductive env conf).of_guard.reachable h
  have hh := HsNet.established_holds
    (view_reachable (fun s l k hn hl hf => takesFresh_view hn hl hf) h) fun x => by
      rw [view_get]; exact he x
  -- each side has received the public value of the other's ephemeral key
  have other : ∀ x e q, (s.get x.other).state.dh.epriv = some e →
      (s.get x).state.dh.peerEpub = some q → q = env.ephemeralPub e := fun x e q hea hqb => by
    obtain ⟨k, hk, e', he', rfl⟩ := hh x
    rw [view_get] at hk he'
    rw [Option.some.inj (hqb.symm.trans hk), Option.some.inj (hea.symm.trans he')]
  obtain ⟨ea, qa, va, hea, hqa, hka, hva⟩ := (hok.peer .a).key (he .a)
  obtain ⟨eb, qb, vb, heb, hqb, hkb, hvb⟩ := (hok.peer .b).key (he .b)
  rw [other .a eb qa heb hqa, hc.static] at hva
  rw [other .b ea qb hea hqb, hc.static] at hvb
  have hv : va = vb := Option.some.inj (hva.symm.trans ((hc.agree ea eb).trans hvb))
  refine ⟨va, fun x => ?_⟩
  cases x with
  | a => exact hka
  | b => rw [hv]; exact hkb

/-! ## Two peers of the small group -/

theorem smallShared_comm (x y : Bytes) : smallShared x (smallPub y) = smallShared y (smallPub x) := by
  have leNat_pub : ∀ z, leNat (smallPub z) = 5 ^ leNat z % 23 := fun z => by
    have hlt : 5 ^ leNat z % 23 < 23 := Nat.mod_lt _ (by omega)
    simp only [smallPub, leNat, List.foldr_cons, List.foldr_nil, Nat.mul_zero, Nat.add_zero,
      UInt8.toNat_ofNat']
    exact Nat.mod_eq_of_lt (by omega)
  unfold smallShared
  rw [leNat_pub, leNat_pub, ← Nat.pow_mod, ← Nat.pow_mod, ← Nat.pow_mul, ← Nat.pow_mul,
    Nat.mul_comm]

theorem paired_small : Paired smallEnv smallConf where
  static x := by cases x <;> decide +kernel
  agree ea eb := by
    have hstatic : smallShared (smallEnv.hexStrToBytes smallConfA.privateKey)
          (smallEnv.hexStrToBytes smallConfB.publicKey) =
        smallShared (smallEnv.hexStrToBytes smallConfB.privateKey)
          (smallEnv.hexStrToBytes smallConfA.publicKey) := by decide +kernel
    exact congrArg some (congrArg₂ (· ++ ·) hstatic (smallShared_comm ea eb))

theorem key_agreed_handshakeTrace : ∃ s : PeerNet,
    (∀ x, (s.get x).state.datagramHandler = .established) ∧
      ∃ v, ∀ x, (s.get x).state.key = some v := by
  have hrun : ∃ s, ((lts smallEnv smallConf).guard TakesFresh).Reachable s ∧
      (s.get .a).state.datagramHandler = .established ∧
        (s.get .b).state.datagramHandler = .established :=
    LTS.exists_reachable_of_execGuard handshakeTrace rfl (by decide +kernel)
  obtain ⟨s, hr, ha, hb⟩ := hrun
  have he : ∀ x, (s.get x).state.datagramHandler = .established := fun x => by
    cases x with
    | a => exact ha
    | b => exact hb
  exact ⟨s, he, key_agreed_of_takesFresh paired_small hr he⟩

/-- Counterexample: the first hello of `b` arrives at `a` once more and resets
it; an old acknowledgement, the old key of `b` and its old echo reply then bring
`a` back to `established`, with a key of its own. -/
theorem key_not_agreed : ∃ s : PeerNet, (lts smallEnv smallConf).Reachable s ∧
    (∀ x, (s.get x).state.datagramHandler = .established) ∧
      (s.get .a).state.key ≠ (s.get .b).state.key := by
  have hrun : ∃ s, (lts smallEnv smallConf).Reachable s ∧
      (s.get .a).state.datagramHandler = .established ∧
        (s.get .b).state.datagramHandler = .established ∧
          (s.get .a).state.key ≠ (s.get .b).state.key :=
    LTS.exists_reachable_of_exec (handshakeTrace ++
      [.deliver 1 [], .deliver 2 [11], .deliver 5 [], .deliver 2 [], .deliver 10 []]) rfl
      (by decide +kernel)
  obtain ⟨s, hr, ha, hb, hk⟩ := hrun
  refine ⟨s, hr, fun x => ?_, hk⟩
  cases x with
  | a => exact ha
  | b => exact hb

end ShadowTalk.Sml.PeerNet
