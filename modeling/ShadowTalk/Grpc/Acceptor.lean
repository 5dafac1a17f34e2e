import ShadowTalk.Core.Slots
import ShadowTalk.Grpc.Server

/-!
# One acceptor per method

A handler in `RECEIVED_REQUEST` waits for the next call of its method. A new one
is made when a request arrives, and on every failed completion.

* `acceptors_step`: a step changes the number of acceptors only by a failed
  completion of a handler that is past `RECEIVED_REQUEST`, which adds one.
* `one_acceptor`: as long as there is no such completion, and no longer, every
  method has exactly one acceptor.
-/
namespace ShadowTalk.Grpc
open ShadowTalk.Core

/-- The method and the state of a live handler. -/
def Call.phase (c : Call) : Option (Method × CallStatus) :=
  c.handler.map fun h => (h.method, h.status)

namespace Call

@[simp] theorem phase_delete (c : Call) : c.delete.phase = none := rfl
@[simp] theorem phase_deleteWriter (c : Call) : c.deleteWriter.phase = c.phase := rfl
@[simp] theorem phase_respond (r : Response) (c : Call) : (c.respond r).phase = c.phase := rfl
@[simp] theorem phase_give (r : PeerMessageWriter × List Relayed) (c : Call) :
    (c.give r).phase = c.phase := rfl

@[simp] theorem phase_setStatus (st : CallStatus) (c : Call) :
    (c.setStatus st).phase = c.phase.map fun x => (x.1, st) := by
  cases h : c.handler <;> simp [phase, setStatus, h]

@[simp] theorem phase_openStream (p : Nat) (t : Option Bytes) (c : Call) :
    (c.openStream p t).phase = c.phase := by
  cases h : c.handler <;> simp [phase, openStream, h]

@[simp] theorem phase_setMsg (m : Registry.Message) (c : Call) : (c.setMsg m).phase = c.phase := by
  cases h : c.handler <;> simp [phase, setMsg, h]

@[simp] theorem phase_write (m : Relayed) (c : Call) : (c.write m).phase = c.phase := by
  unfold write
  split <;> rfl

end Call

namespace Server

variable {SHA1 : Bytes → Digest} {s s' : Server} {e : Event} {i : Nat} {h : HandleCall}
  {inp : Input}

def phases (s : Server) : List (Option (Method × CallStatus)) := s.calls.map Call.phase

/-- Handlers that wait for a new request. -/
def acceptors (s : Server) (m : Method) : Nat :=
  s.phases.countP (· = some (m, .receivedRequest))

/-- Calls that are being served. -/
def openCalls (s : Server) (m : Method) : Nat :=
  s.phases.countP fun x => x = some (m, .process) || x = some (m, .finallize)

/-- Handlers that have not deleted themselves. -/
def live (s : Server) (m : Method) : Nat := s.phases.countP (·.map Prod.fst = some m)

theorem phases_modifyCall {f : Call → Call} (hf : ∀ c, (f c).phase = c.phase) (i : Nat) :
    (s.modifyCall i f).phases = s.phases := Slots.map_modify_of_eq hf s.calls i

theorem phases_accept (m : Method) :
    (s.accept m).phases = s.phases ++ [some (m, .receivedRequest)] := by
  simp [phases, accept_calls, Call.requestData, Call.setStatus, Call.new, Call.phase]

theorem phases_relay (i p : Nat) (m : Registry.Message) : (s.relay i p m).phases = s.phases := by
  have hmsg : ∀ m, (s.modifyCall i (Call.setMsg m)).phases = s.phases := fun m =>
    phases_modifyCall (Call.phase_setMsg m) i
  unfold relay
  simp only
  split
  · exact hmsg m
  · rw [phases_modifyCall (Call.phase_write _), phases_modifyCall (Call.phase_setMsg _)]
    exact hmsg m

theorem phases_handleRequest (SHA1 : Bytes → Digest) (s : Server) (i : Nat) (h : HandleCall)
    (inp : Input) : (handleRequest SHA1 s i h inp).1.phases = s.phases := by
  unfold handleRequest
  split
  · exact phases_modifyCall (Call.phase_respond _) i
  · exact phases_modifyCall (Call.phase_respond _) i
  · split
    · split
      · exact phases_modifyCall (Call.phase_respond _) i
      · exact phases_modifyCall (Call.phase_openStream _ _) i
    · exact phases_relay i _ _

theorem phases_setWriter (p : Nat) (w : Option Nat) : (s.setWriter p w).phases = s.phases := rfl

theorem phases_writerProceed (i : Nat) (w : PeerMessageWriter) (ok : Bool) :
    (s.writerProceed i w ok).phases = s.phases := by
  have hdel : (s.modifyCall i Call.deleteWriter).phases = s.phases :=
    phases_modifyCall Call.phase_deleteWriter i
  unfold writerProceed
  split
  · simp only
    split
    · rw [phases_setWriter]
      exact hdel
    · exact hdel
  · exact phases_modifyCall (Call.phase_give _) i

theorem phases_setStatus (st : CallStatus) (i : Nat) :
    (s.modifyCall i (Call.setStatus st)).phases = s.phases.modify i (Option.map fun x => (x.1, st)) :=
  Slots.map_modify (Call.phase_setStatus st) s.calls i

theorem phases_requestData (i : Nat) :
    (s.modifyCall i Call.requestData).phases =
      s.phases.modify i (Option.map fun x => (x.1, .receivedRequest)) := phases_setStatus _ i

theorem phases_delete (i : Nat) :
    (s.modifyCall i Call.delete).phases = s.phases.modify i fun _ => none :=
  Slots.map_modify Call.phase_delete s.calls i

theorem phase_of_handler (hh : s.handler? i = some h) :
    s.phases[i]? = some (some (h.method, h.status)) := by
  obtain ⟨c, hc, hch⟩ := view_eq_some.1 hh
  simp [phases, hc, Call.phase, hch]

/-! ## What an event does to the phases -/

theorem step_cases (hs : step SHA1 s e = some s') :
    (∃ i ok inp h, e = .call i ok inp ∧ s.handler? i = some h ∧ s' = proceed SHA1 s i h ok inp) ∨
      ∃ i ok w, e = .writer i ok ∧ s.writer? i = some w ∧ w.status = .running ∧
        s' = s.writerProceed i w ok := by
  cases e with
  | call i ok inp =>
    obtain ⟨h, hh, rfl⟩ := Option.map_eq_some_iff.1 hs
    exact .inl ⟨i, ok, inp, h, rfl, hh, rfl⟩
  | writer i ok =>
    obtain ⟨w, hw, hs⟩ := Option.bind_eq_some_iff.1 hs
    split at hs
    · rename_i hr
      exact .inr ⟨i, ok, w, rfl, hw, hr, (Option.some.inj hs).symm⟩
    · cases hs

/-- The state that `Proceed(ok)` takes a handler to; `none` if it deletes itself. -/
inductive Ends : CallStatus → Bool → Option CallStatus → Prop
  | fails (st : CallStatus) : Ends st false none
  | creates : Ends .create true (some .receivedRequest)
  | receives {st : CallStatus} :
      st = .finallize ∨ st = .process → Ends .receivedRequest true (some st)
  | reads {st : CallStatus} : st = .finallize ∨ st = .process → Ends .process true (some st)
  | finishes : Ends .finallize true none

/-- A new acceptor is made for a received request and for a failed completion. -/
def makes (st : CallStatus) (ok : Bool) : Bool := !ok || st = .receivedRequest

/-- Counting handlers by their phases: `Proceed` takes the handler out, puts it back
with its new state, and may add an acceptor. -/
theorem count_proceed (SHA1 : Bytes → Digest) (q : Option (Method × CallStatus) → Bool)
    (hh : s.handler? i = some h) (ok : Bool) (inp : Input) :
    ∃ st, Ends h.status ok st ∧
      (proceed SHA1 s i h ok inp).phases.countP q + (q (some (h.method, h.status))).toNat =
        s.phases.countP q +
          (makes h.status ok && q (some (h.method, CallStatus.receivedRequest))).toNat +
          (q (st.map fun st => (h.method, st))).toNat := by
  have hi := phase_of_handler hh
  have hi' : (s.phases ++ [some (h.method, CallStatus.receivedRequest)])[i]? =
      some (some (h.method, h.status)) := Slots.getElem?_append_of_some hi
  have hone : ∀ x, [x].countP q = (q x).toNat := fun x => by cases hq : q x <;> simp [hq]
  unfold proceed makes
  cases ok with
  | false =>
    refine ⟨none, .fails _, ?_⟩
    simp only [Bool.not_false, if_true, Bool.true_or, Bool.true_and]
    rw [phases_delete, phases_accept, Slots.countP_modify q _ hi', List.countP_append, hone]
    rfl
  | true =>
    simp only [Bool.not_true, Bool.false_eq_true, if_false, Bool.false_or]
    cases hst : h.status with
    | create =>
      refine ⟨_, .creates, ?_⟩
      rw [hst] at hi
      simp only [reduceCtorEq, decide_false, Bool.false_and, Bool.toNat_false, Nat.add_zero]
      rw [phases_requestData, Slots.countP_modify q _ hi]
      rfl
    | receivedRequest =>
      refine ⟨some (if (handleRequest SHA1 (s.accept h.method) i h inp).2 then .finallize
        else .process), .receives (by split <;> simp), ?_⟩
      rw [hst] at hi'
      simp only [decide_true, Bool.true_and]
      rw [phases_setStatus, phases_handleRequest, phases_accept, Slots.countP_modify q _ hi',
        List.countP_append, hone]
      rfl
    | process =>
      rw [hst] at hi
      simp only [reduceCtorEq, decide_false, Bool.false_and, Bool.toNat_false, Nat.add_zero]
      split
      · refine ⟨_, .reads (.inl rfl), ?_⟩
        rw [phases_setStatus, phases_handleRequest, Slots.countP_modify q _ hi]
        rfl
      · refine ⟨_, .reads (.inr rfl), ?_⟩
        rw [phases_handleRequest]
        rfl
    | finallize =>
      refine ⟨none, .finishes, ?_⟩
      rw [hst] at hi
      simp only [reduceCtorEq, decide_false, Bool.false_and, Bool.toNat_false, Nat.add_zero]
      rw [phases_delete, Slots.countP_modify q _ hi]
      rfl

/-- A failed completion is delivered to a handler of `m` that is past
`RECEIVED_REQUEST`. -/
def lateFailure (s : Server) (m : Method) : Event → Bool
  | .call i ok _ =>
    match s.handler? i with
    | some h => !ok && h.method = m && h.status ≠ .receivedRequest
    | none => false
  | .writer _ _ => false

/-- No handler is left in `CREATE`. -/
def NoneCreated (s : Server) : Prop := ∀ m, s.phases.countP (· = some (m, .create)) = 0

theorem noneCreated_inductive : (lts SHA1).Inductive NoneCreated where
  init s h := by subst h; intro m; cases m <;> decide
  step s e s' hc hs := by
    intro m
    obtain ⟨i, ok, inp, h, rfl, hh, rfl⟩ | ⟨i, ok, w, rfl, hw, -, rfl⟩ := step_cases hs
    · obtain ⟨st, he, hn⟩ := count_proceed SHA1 (· = some (m, .create)) hh ok inp
      have hnone : decide ((st.map fun st => (h.method, st)) = some (m, .create)) = false := by
        generalize h.status = st₀ at he
        cases he with
        | fails => simp
        | creates => simp
        | receives h' => rcases h' with rfl | rfl <;> simp
        | reads h' => rcases h' with rfl | rfl <;> simp
        | finishes => simp
      have hnew : decide (some (h.method, CallStatus.receivedRequest) = some (m, .create)) = false := by
        simp
      rw [hc m, hnone, hnew, Bool.and_false, Bool.toNat_false] at hn
      omega
    · rw [phases_writerProceed]
      exact hc m

theorem acceptors_step (hs : step SHA1 s e = some s') (hc : NoneCreated s)
    (m : Method) : s'.acceptors m = s.acceptors m + (s.lateFailure m e).toNat := by
  obtain ⟨i, ok, inp, h, rfl, hh, rfl⟩ | ⟨i, ok, w, rfl, hw, -, rfl⟩ := step_cases hs
  · obtain ⟨st, he, hn⟩ := count_proceed SHA1 (· = some (m, .receivedRequest)) hh ok inp
    have hcr : h.status ≠ .create := fun hst => by
      have hmem := List.mem_of_getElem? (phase_of_handler hh)
      have := List.countP_eq_zero.1 (hc h.method) _ hmem
      simp [hst] at this
    unfold acceptors
    simp only [lateFailure, hh]
    generalize h.status = st₀ at *
    by_cases hm : h.method = m
    · subst hm
      cases he with
      | fails => cases st₀ <;> simp_all [makes]
      | creates => exact absurd rfl hcr
      | receives h' => rcases h' with rfl | rfl <;> simp_all [makes]
      | reads h' => rcases h' with rfl | rfl <;> simp_all [makes]
      | finishes => simp_all [makes]
    · have hne : ∀ x : Option CallStatus, (decide ((x.map fun st => (h.method, st)) =
          some (m, .receivedRequest))) = false := by
        intro x
        cases x <;> simp [hm]
      rw [hne] at hn
      simpa [hm] using hn
  · rw [acceptors, phases_writerProceed]
    rfl

/-- Live handlers are those that wait for a request and those that serve a call. -/
theorem live_eq (hc : NoneCreated s) (m : Method) : s.live m = s.openCalls m + s.acceptors m := by
  have hne := hc m
  unfold live openCalls acceptors
  generalize s.phases = l at *
  induction l with
  | nil => rfl
  | cons x l ih =>
    simp only [List.countP_cons, Nat.add_eq_zero_iff] at hne ⊢
    rw [ih hne.1]
    cases x with
    | none => simp
    | some y =>
      obtain ⟨m', st⟩ := y
      by_cases hm : m' = m
      · subst hm
        cases st with
        | create => simp at hne
        | receivedRequest => simp; omega
        | process => simp; omega
        | finallize => simp; omega
      · simp [hm]

/-! ## Exactly one -/

/-- Each method has one acceptor, and no more handlers than open calls and that one. -/
structure OneAcceptor (s : Server) : Prop where
  one : ∀ m, s.acceptors m = 1
  bounded : ∀ m, s.live m = s.openCalls m + 1

/-- No completion fails that is delivered to a handler past `RECEIVED_REQUEST`. -/
def NoLateFailure (s : Server) (e : Event) : Prop := ∀ m, s.lateFailure m e = false

instance (s : Server) (e : Event) : Decidable (NoLateFailure s e) :=
  decidable_of_iff (s.lateFailure .login e = false ∧ s.lateFailure .listPeers e = false ∧
    s.lateFailure .switchMessages e = false)
    ⟨fun h m => by cases m; exacts [h.1, h.2.1, h.2.2], fun h => ⟨h _, h _, h _⟩⟩

theorem one_acceptor (SHA1 : Bytes → Digest) : (lts SHA1).Exact NoLateFailure OneAcceptor := by
  have hinv : ((lts SHA1).guard NoLateFailure).Inductive fun s =>
      NoneCreated s ∧ ∀ m, s.acceptors m = 1 := by
    refine noneCreated_inductive.of_guard.and ?_ ?_
    · rintro s rfl m
      cases m <;> decide
    · intro s e s' hc _ ho hs m
      rw [acceptors_step hs.1 hc m, ho m, hs.2 m]
      rfl
  refine hinv.exact (fun s hi => ⟨hi.2, fun m => ?_⟩) fun s e s' hi hs hp m => ?_
  · rw [live_eq hi.1 m, hi.2 m]
  · have hstep := acceptors_step hs hi.1 m
    rw [hp.one m, hi.2 m] at hstep
    cases hl : s.lateFailure m e with
    | false => rfl
    | true => rw [hl, Bool.toNat_true] at hstep; omega

/-- The handler that waits for the next stream fails and is replaced. -/
theorem one_acceptor_oneStream :
    ∃ s : Server, s.handler? 4 = none ∧ s.openCalls .switchMessages = 1 ∧
      s.acceptors .switchMessages = 1 := by
  have hrun : ∃ s, ((lts .sample).guard NoLateFailure).Reachable s ∧
      s.handler? 4 = none ∧ s.openCalls .switchMessages = 1 :=
    LTS.exists_reachable_of_execGuard (oneStream ++ [.call 4 false .nothing]) rfl
      (by decide +kernel)
  obtain ⟨s, hr, hfailed, hs⟩ := hrun
  exact ⟨s, hfailed, hs, ((one_acceptor .sample).sound s hr).one _⟩

/-- The stream ends: its handler is replaced although the request it came with was
replaced already. -/
theorem two_acceptors : ∃ s, (lts .sample).Reachable s ∧
    s.acceptors .switchMessages = 2 ∧ s.openCalls .switchMessages = 0 :=
  LTS.exists_reachable_of_exec (oneStream ++ [.call 2 false .nothing]) rfl (by decide +kernel)

end Server
end ShadowTalk.Grpc
