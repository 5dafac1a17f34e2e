import ShadowTalk.Sml.Deadlock
import ShadowTalk.Sml.PeerNet

/-!
# Restart of a peer

The peer object of `b` is discarded and a new one created, and everything under
way is lost. From then on timers fire and every datagram arrives once.

* `view_resume`, `resume_of_view`: these runs are the runs of the two handshakes.
* `restart_recovers_iff`: both peers can get established again exactly if the
  state of `a` is `Resumable`.
* `restart_deadlock`: a peer that waits for an echo reply does not recover.
-/
namespace ShadowTalk.Sml
open ShadowTalk.Core

/-- A peer that can give a restarted peer what it needs: it is established and
takes a hello for a reset; or it says hello and its hello waits for being sent
again; or it exchanges keys and both its hello and its key do. -/
def Peer.Resumable (p : Peer) : Prop :=
  p.datagramHandler = .established ∨
    p.datagramHandler = .hello ∧ (∃ d ∈ p.timer.pending, d.type = .hello) ∨
    p.datagramHandler = .publicKeyExchange ∧ (∃ d ∈ p.timer.pending, d.type = .hello) ∧
      ∃ d ∈ p.timer.pending, d.type = .publicKey

namespace PeerNet

def isTimer : PeerAct → Bool
  | .expire | .retransmit => true
  | .stream _ | .junk _ _ => false

section
variable (env : Env) (conf : Side → Configuration)

/-- A new peer object for `b`; its hello is all that is under way.
mirrors client/sml/udp_layer.cpp:39-50 -/
def restart (s : PeerNet) : PeerNet where
  party := s.party.set .b ⟨(Peer.new env (conf .b)).flush, 0⟩
  net := [⟨.b, .createHello (conf .b).id, ⟨0, (s.get .a).resets, .hello, none⟩⟩]

/-- Timers fire and every datagram arrives once. -/
def resume : LTS PeerNet PeerLabel := Net.reliable isTimer (peerMachine env conf)

/-- Both peers can get established. -/
def Recovers (s : PeerNet) : Prop :=
  ∃ ls s', (resume env conf).Run s ls s' ∧ ∀ x, (s'.get x).state.datagramHandler = .established

/-- Agreements of honest public values succeed and are long enough for a key. -/
def Agreeing : Prop :=
  ∀ x ea eb, Peer.agreeOk env (conf x) (spubOf env conf x) ea (env.ephemeralPub eb) = true

end

variable {env : Env} {conf : Side → Configuration} {s s' : PeerNet}

theorem view_restart (s : PeerNet) : view (restart env conf s) = HsNet.restart (view s) := rfl

theorem netOk_restart (h : NetOk env conf s) : NetOk env conf (restart env conf s) where
  peer x := by
    cases x with
    | a => exact h.peer .a
    | b => exact (netOk_start env conf).peer .b
  out x := by
    cases x with
    | a => exact h.out .a
    | b => rfl
  hello p hp := by
    rw [List.mem_singleton.1 hp]
    exact fun _ => rfl

theorem NetOk.resume {l : PeerLabel} (h : NetOk env conf s)
    (hs : (resume env conf).step s l s') : NetOk env conf s' := by
  rcases Net.reliable_cases hs with ⟨i, priv, p, rfl, hi, rfl⟩ | ⟨x, k, r, rfl, -, hr, rfl⟩
  · have he : NetOk env conf { s with net := s.net.eraseIdx i } :=
      ⟨h.peer, h.out, fun p hp => h.hello p (List.mem_of_mem_eraseIdx hp)⟩
    exact he.arrive (h.hello p (List.mem_of_getElem? hi))
  · obtain ⟨q, hq, rfl⟩ := act_ok (h.peer x) hr
    exact h.move hq

/-- The handshakes take the steps that the pair takes. -/
theorem view_resume {l : PeerLabel} (h : NetOk env conf s) (hs : (resume env conf).step s l s') :
    ∃ k, (HsNet.resume env.ephemeralPub fun x => Peer.agreeOk env (conf x) (spubOf env conf x)).step
      (view s) k (view s') := by
  obtain ⟨hl, hst⟩ := Net.reliable_step.1 hs
  have step : ∀ k, viewLabel l = some k → k.isReliable HsNet.isTimer = true →
      (∀ x d priv, l = .act x (.junk d priv) → Peer.isJunk d = true) →
      ∃ k, (HsNet.resume env.ephemeralPub fun x =>
        Peer.agreeOk env (conf x) (spubOf env conf x)).step (view s) k (view s') :=
    fun k hk hrel hj => ⟨k, Net.reliable_step.2 ⟨hrel, by rw [view_step h hk hj, hst]; rfl⟩⟩
  cases l with
  | deliver i priv => cases hl
  | consume i priv => exact step _ rfl rfl (by simp)
  | act x a =>
    cases a with
    | expire => exact step _ rfl rfl (by simp)
    | retransmit => exact step _ rfl rfl (by simp)
    | _ => cases hl

/-- The pair takes the steps that the handshakes take. -/
theorem resume_of_view {k : HsLabel} {t : HsNet} (h : NetOk env conf s)
    (hs : (HsNet.resume env.ephemeralPub fun x =>
      Peer.agreeOk env (conf x) (spubOf env conf x)).step (view s) k t) :
    ∃ l s', (resume env conf).step s l s' ∧ view s' = t := by
  obtain ⟨hk, hst⟩ := Net.reliable_step.1 hs
  have step : ∀ l, viewLabel l = some k → l.isReliable isTimer = true →
      (∀ x d priv, l = .act x (.junk d priv) → Peer.isJunk d = true) →
      ∃ l s', (resume env conf).step s l s' ∧ view s' = t := fun l hl hrel hj => by
    rw [view_step h hl hj] at hst
    obtain ⟨s', hs', rfl⟩ := Option.map_eq_some_iff.1 hst
    exact ⟨l, s', Net.reliable_step.2 ⟨hrel, hs'⟩, rfl⟩
  cases k with
  | deliver i priv => cases hk
  | consume i priv => exact step (.consume i priv) rfl rfl (by simp)
  | act x a =>
    cases a with
    | expire => exact step (.act x .expire) rfl rfl (by simp)
    | retransmit => exact step (.act x .retransmit) rfl rfl (by simp)
    | junk priv => cases hk

theorem recovers_view (h : NetOk env conf s) : Recovers env conf s ↔
    HsNet.Recovers env.ephemeralPub (fun x => Peer.agreeOk env (conf x) (spubOf env conf x))
      (view s) := by
  constructor
  · intro hrec
    obtain ⟨ls, s', hr, he⟩ := hrec
    induction hr with
    | nil s => exact ⟨[], view s, .nil _, fun x => by rw [view_get]; exact he x⟩
    | cons hs _ ih =>
      obtain ⟨k, hk⟩ := view_resume h hs
      exact HsNet.Recovers.step _ hk (ih (h.resume hs) he)
  · intro hrec
    obtain ⟨ks, t, hr, he⟩ := hrec
    generalize hv : view s = v at hr
    induction hr generalizing s with
    | nil =>
      subst hv
      exact ⟨[], s, .nil s, fun x => by have := he x; rwa [view_get] at this⟩
    | cons hs _ ih =>
      subst hv
      obtain ⟨l, s₁, hl, hv⟩ := resume_of_view h hs
      obtain ⟨ls, s', hr, he'⟩ := ih (h.resume hl) he hv
      exact ⟨l :: ls, s', .cons hl hr, he'⟩

theorem resumable_view (p : Peer) : p.view.Resumable ↔ p.Resumable := by
  have hmem : ∀ q : Msg, q ∈ p.view.timer.pending ↔ ∃ d ∈ p.timer.pending, Msg.of d = q := by
    intro q
    simp only [Peer.view, Timer.mem_pending, Timer.map, Option.map_eq_some_iff, List.mem_map]
    constructor
    · intro hmem
      rcases hmem with ⟨d, hd, rfl⟩ | ⟨d, hd, rfl⟩
      · exact ⟨d, .inl hd, rfl⟩
      · exact ⟨d, .inr hd, rfl⟩
    · rintro ⟨d, hd | hd, rfl⟩
      · exact .inl ⟨d, hd, rfl⟩
      · exact .inr ⟨d, hd, rfl⟩
  have hhello : .hello ∈ p.view.timer.pending ↔ ∃ d ∈ p.timer.pending, d.type = .hello := by
    simp only [hmem, msg_hello]
  have hkey : (∃ k, .publicKey k ∈ p.view.timer.pending) ↔
      ∃ d ∈ p.timer.pending, d.type = .publicKey := by
    simp only [hmem]
    constructor
    · intro hmem
      obtain ⟨k, d, hd, hk⟩ := hmem
      exact ⟨d, hd, (msg_publicKey hk).1⟩
    · intro hmem
      obtain ⟨d, hd, ht⟩ := hmem
      exact ⟨d.payload, d, hd, by rw [Msg.of, ht]⟩
  unfold Hs.Resumable Peer.Resumable
  rw [hhello, hkey]
  rfl

/-- Whether the pair recovers is a matter of the two handshakes. -/
theorem recovers_restart_view (hc : Agreeing env conf) (h : (lts env conf).Reachable s) :
    Recovers env conf (restart env conf s) ↔ (s.get .a).state.view.Resumable := by
  have hok := (netOk_inductive env conf).reachable h
  have hv : (HsNet.lts env.ephemeralPub fun x =>
      Peer.agreeOk env (conf x) (spubOf env conf x)).Reachable (view s) :=
    LTS.Reachable.map view (netOk_inductive env conf) (fun s hs => by
        have hs' : s = start env conf := hs
        rw [hs']
        exact view_start env conf)
      (fun s l s' hok hs => (view_cases hok hs).imp id fun ⟨k, _, hk⟩ => ⟨k, hk⟩) h
  rw [recovers_view (netOk_restart hok), view_restart, HsNet.recovers_iff hc hv, view_get]
  rfl

/-- After a restart of `b` in any reachable state, both peers can get established
again exactly if `a` is established, or says hello and can still send it, or
exchanges keys and can still send both its hello and its key. -/
theorem restart_recovers_iff (hc : Agreeing env conf) (h : (lts env conf).Reachable s) :
    Recovers env conf (restart env conf s) ↔ (s.get .a).state.Resumable :=
  (recovers_restart_view hc h).trans (resumable_view _)

theorem agreeing_small : Agreeing smallEnv smallConf := by
  intro x ea eb
  simp [Peer.agreeOk, smallEnv, smallShared]

theorem restart_recovers_handshakeTrace : ∃ s : PeerNet,
    (s.get .a).state.datagramHandler = .established ∧
      Recovers smallEnv smallConf (restart smallEnv smallConf s) := by
  have hrun : ∃ s, (lts smallEnv smallConf).Reachable s ∧
      (s.get .a).state.datagramHandler = .established :=
    LTS.exists_reachable_of_exec handshakeTrace rfl (by decide +kernel)
  obtain ⟨s, hr, ha⟩ := hrun
  exact ⟨s, ha, (restart_recovers_iff agreeing_small hr).2 (.inl ha)⟩

/-- Counterexample: `a` has sent its echo when `b` restarts. It ignores the
hellos of `b`, which are never acknowledged. -/
theorem restart_deadlock : ∃ s : PeerNet, (lts smallEnv smallConf).Reachable s ∧
    (s.get .a).state.datagramHandler = .echo ∧
      ¬ Recovers smallEnv smallConf (restart smallEnv smallConf s) := by
  have hrun : ∃ s, (lts smallEnv smallConf).Reachable s ∧
      (s.get .a).state.datagramHandler = .echo :=
    LTS.exists_reachable_of_exec [.deliver 0 [], .deliver 1 [], .deliver 2 [7], .deliver 3 [9],
      .deliver 4 [], .deliver 5 [], .deliver 6 [], .deliver 7 []] rfl (by decide +kernel)
  obtain ⟨s, hr, ha⟩ := hrun
  refine ⟨s, hr, ha, fun hrec => ?_⟩
  have hp : (s.get .a).state.view.phase = .echo := ha
  rcases (recovers_restart_view agreeing_small hr).1 hrec with h | ⟨h, -⟩ | ⟨h, -⟩ <;>
    rw [hp] at h <;> cases h

end PeerNet
end ShadowTalk.Sml
