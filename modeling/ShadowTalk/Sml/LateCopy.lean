import ShadowTalk.Sml.Reassembly

/-!
# A cut, in any order and with repetitions

The segments of a cut of `S` reach a fresh stream, each at least once. The receive
queue holds what came and is not delivered yet; the segment at `recv_offset_` is the
first one that has not come (`Draining`).

* `complete_iff_not_lateCopy`: all of `S` is delivered exactly if no segment is
  repeated after it was delivered and before the last one came.
* `not_complete_repeated`: such a copy stays in front of the queue for good.
-/
namespace ShadowTalk.Sml.Stream
open ShadowTalk.Core
open ShadowTalk.Sml.StreamNet (feedAll)

/-- The segments of a cut, of which the first one starts at `o`. -/
def cutDatagrams (id : UInt32) : Nat → List Bytes → List Datagram
  | _, [] => []
  | o, p :: ps => ⟨.data, id, .ofNat o, .ofNat p.length, p⟩ :: cutDatagrams id (o + p.length) ps

variable {id : UInt32} {s : Stream} {d : Datagram} {S : Bytes} {C ds ps : List Datagram}

/-! ## Tilings -/

/-- `C` covers `S` with slices that do not overlap. -/
structure Tiling (S : Bytes) (C : List Datagram) : Prop where
  type : ∀ d ∈ C, d.type = .data
  slice : ∀ d ∈ C, TrueSlice S d
  pos : ∀ d ∈ C, 0 < d.length.toNat
  le : ∀ d ∈ C, segEnd d ≤ S.length
  first : S.length = 0 ∨ ∃ x ∈ C, x.offset = 0
  next : ∀ d ∈ C, segEnd d = S.length ∨ ∃ x ∈ C, x.offset.toNat = segEnd d
  inside : ∀ d ∈ C, ∀ x ∈ C, d.offset ≤ x.offset → x.offset.toNat < segEnd d → x = d

/-- The segments of the part of a cut that is behind `A`. -/
theorem mem_cutDatagrams {A : Bytes} {cut : List Bytes} (hne : ∀ p ∈ cut, p ≠ [])
    (hlen : (A ++ cut.flatten).length < 2 ^ 32) (hd : d ∈ cutDatagrams id A.length cut) :
    d.type = .data ∧ TrueSlice (A ++ cut.flatten) d ∧ 0 < d.length.toNat ∧
      A.length ≤ d.offset.toNat ∧ segEnd d ≤ (A ++ cut.flatten).length ∧
      (segEnd d = (A ++ cut.flatten).length ∨
        ∃ x ∈ cutDatagrams id A.length cut, x.offset.toNat = segEnd d) := by
  induction cut generalizing A with
  | nil => cases hd
  | cons p cut ih =>
    have hcut : A ++ (p :: cut).flatten = (A ++ p) ++ cut.flatten := by simp
    have hAp : (A ++ p).length = A.length + p.length := List.length_append
    rw [hcut] at hlen ⊢
    have hle : A.length + p.length ≤ ((A ++ p) ++ cut.flatten).length := by
      rw [List.length_append, hAp]
      omega
    unfold cutDatagrams at hd ⊢
    rw [← hAp] at hd ⊢
    rcases List.mem_cons.1 hd with rfl | hd
    · have ho : (UInt32.ofNat A.length).toNat = A.length :=
        UInt32.toNat_ofNat_of_lt' (by show _ < 2 ^ 32; omega)
      have hn : (UInt32.ofNat p.length).toNat = p.length :=
        UInt32.toNat_ofNat_of_lt' (by show _ < 2 ^ 32; omega)
      have hp : 0 < p.length := List.length_pos_of_ne_nil (hne p List.mem_cons_self)
      refine ⟨rfl, ⟨?_, ?_⟩, ?_, ?_, ?_, ?_⟩
      · show p = slice _ (UInt32.ofNat A.length).toNat (UInt32.ofNat p.length).toNat
        rw [ho, hn, List.append_assoc]
        exact ((slice_append_right A _ 0 _).trans (slice_left_of rfl _)).symm
      · exact hn.symm
      · exact hn.symm ▸ hp
      · exact ho.ge
      · show (UInt32.ofNat A.length).toNat + (UInt32.ofNat p.length).toNat ≤ _
        rw [ho, hn]
        exact hle
      · show (UInt32.ofNat A.length).toNat + (UInt32.ofNat p.length).toNat = _ ∨
          ∃ x ∈ _, _ = (UInt32.ofNat A.length).toNat + (UInt32.ofNat p.length).toNat
        rw [ho, hn]
        cases cut with
        | nil => exact .inl (by simp)
        | cons q cut =>
          refine .inr ⟨_, List.mem_cons_of_mem _ List.mem_cons_self, ?_⟩
          show (UInt32.ofNat (A ++ p).length).toNat = _
          rw [hAp]
          exact UInt32.toNat_ofNat_of_lt' (by show _ < 2 ^ 32; omega)
    · obtain ⟨h1, h2, h3, h4, h5, h6⟩ := ih (fun q hq => hne q (List.mem_cons_of_mem _ hq)) hlen hd
      refine ⟨h1, h2, h3, by omega, h5, h6.imp_right ?_⟩
      intro hmem
      obtain ⟨x, hx, he⟩ := hmem
      exact ⟨x, List.mem_cons_of_mem _ hx, he⟩

/-- No segment starts inside another one. -/
theorem cutDatagrams_inside {A : Bytes} {cut : List Bytes} (hne : ∀ p ∈ cut, p ≠ [])
    (hlen : (A ++ cut.flatten).length < 2 ^ 32) {x : Datagram}
    (hd : d ∈ cutDatagrams id A.length cut) (hx : x ∈ cutDatagrams id A.length cut)
    (hle : d.offset ≤ x.offset) (hlt : x.offset.toNat < segEnd d) : x = d := by
  induction cut generalizing A with
  | nil => cases hd
  | cons p cut ih =>
    have hcut : A ++ (p :: cut).flatten = (A ++ p) ++ cut.flatten := by simp
    have hAp : (A ++ p).length = A.length + p.length := List.length_append
    have hne' : ∀ q ∈ cut, q ≠ [] := fun q hq => hne q (List.mem_cons_of_mem _ hq)
    have hp : 0 < p.length := List.length_pos_of_ne_nil (hne p List.mem_cons_self)
    rw [hcut] at hlen
    have hle' : A.length + p.length ≤ ((A ++ p) ++ cut.flatten).length := by
      rw [List.length_append, hAp]
      omega
    have ho : (UInt32.ofNat A.length).toNat = A.length :=
      UInt32.toNat_ofNat_of_lt' (by show _ < 2 ^ 32; omega)
    have hn : (UInt32.ofNat p.length).toNat = p.length :=
      UInt32.toNat_ofNat_of_lt' (by show _ < 2 ^ 32; omega)
    unfold cutDatagrams at hd hx
    rw [← hAp] at hd hx
    rw [UInt32.le_iff_toNat_le] at hle
    rcases List.mem_cons.1 hd with rfl | hd <;> rcases List.mem_cons.1 hx with rfl | hx
    · rfl
    · -- the others start behind the first one
      obtain ⟨-, -, -, hge, -⟩ := mem_cutDatagrams hne' hlen hx
      change x.offset.toNat < (UInt32.ofNat A.length).toNat + (UInt32.ofNat p.length).toNat at hlt
      omega
    · obtain ⟨-, -, -, hge, -⟩ := mem_cutDatagrams hne' hlen hd
      change d.offset.toNat ≤ (UInt32.ofNat A.length).toNat at hle
      omega
    · exact ih hne' hlen hd hx

theorem tiling_cut (id : UInt32) {cut : List Bytes} (hne : ∀ p ∈ cut, p ≠ [])
    (hlen : cut.flatten.length < 2 ^ 32) : Tiling cut.flatten (cutDatagrams id 0 cut) where
  type d hd := (mem_cutDatagrams (A := []) hne hlen hd).1
  slice d hd := (mem_cutDatagrams (A := []) hne hlen hd).2.1
  pos d hd := (mem_cutDatagrams (A := []) hne hlen hd).2.2.1
  le d hd := (mem_cutDatagrams (A := []) hne hlen hd).2.2.2.2.1
  first := by
    cases cut with
    | nil => exact .inl rfl
    | cons p cut => exact .inr ⟨_, List.mem_cons_self, rfl⟩
  next d hd := (mem_cutDatagrams (A := []) hne hlen hd).2.2.2.2.2
  inside d hd x hx := cutDatagrams_inside (A := []) hne hlen hd hx

/-! ## Late copies -/

/-- A copy of a segment comes after this segment and everything before it have come, and
before everything has. -/
def LateCopy (C ds : List Datagram) : Prop :=
  ∃ pre d post, ds = pre ++ d :: post ∧ (∀ x ∈ C, x.offset ≤ d.offset → x ∈ pre) ∧
    ∃ x ∈ C, x ∉ pre

theorem lateCopy_snoc : LateCopy C (ps ++ [d]) ↔
    LateCopy C ps ∨ (∀ x ∈ C, x.offset ≤ d.offset → x ∈ ps) ∧ ∃ x ∈ C, x ∉ ps := by
  constructor
  · intro hlate
    obtain ⟨pre, y, post, heq, hbefore, hmiss⟩ := hlate
    rcases List.eq_nil_or_concat post with rfl | ⟨post, z, rfl⟩
    · obtain ⟨rfl, hy⟩ := List.append_inj' heq rfl
      cases hy
      exact .inr ⟨hbefore, hmiss⟩
    · have heq' : ps ++ [d] = (pre ++ y :: post) ++ [z] := by rw [heq]; simp
      exact .inl ⟨pre, y, post, (List.append_inj' heq' rfl).1, hbefore, hmiss⟩
  · intro hlate
    rcases hlate with ⟨pre, y, post, rfl, hbefore, hmiss⟩ | ⟨hbefore, hmiss⟩
    · exact ⟨pre, y, post ++ [d], by simp, hbefore, hmiss⟩
    · exact ⟨ps, d, [], rfl, hbefore, hmiss⟩

theorem lateCopy_iff_index : LateCopy C ds ↔
    ∃ i : Fin ds.length, (∀ x ∈ C, x.offset ≤ ds[i].offset → x ∈ ds.take i) ∧
      ∃ x ∈ C, x ∉ ds.take i := by
  constructor
  · intro hlate
    obtain ⟨pre, d, post, rfl, hbefore, hmiss⟩ := hlate
    refine ⟨⟨pre.length, by simp⟩, ?_⟩
    simpa using ⟨hbefore, hmiss⟩
  · intro hlate
    obtain ⟨i, hbefore, hmiss⟩ := hlate
    exact ⟨ds.take i, ds[i], ds.drop (i + 1), by simp, hbefore, hmiss⟩

instance decidableLateCopy (C ds : List Datagram) : Decidable (LateCopy C ds) :=
  decidable_of_iff' _ lateCopy_iff_index

/-! ## The drain loop on segments -/

/-- The drain loop is at offset `o`, `l` is left of the queue, and `ps` has come: what
starts before `o` has come, and what has come starts before `o` or is in `l`. -/
structure Draining (S : Bytes) (C ps : List Datagram) (o : UInt32) (l : List (UInt32 × Datagram)) :
    Prop where
  sorted : l.Pairwise fun a b => a.1 < b.1
  held : ∀ e ∈ l, e.1 = e.2.offset ∧ e.2 ∈ ps
  above : ∀ e ∈ l, o ≤ e.1
  boundary : o.toNat = S.length ∨ ∃ x ∈ C, x.offset = o
  come : ∀ x ∈ C, x.offset < o → x ∈ ps
  kept : ∀ x ∈ ps, x.offset < o ∨ ∃ y, (x.offset, y) ∈ l

/-- A datagram of the tiling is erased. -/
theorem Draining.next (T : Tiling S C) (hS : S.length < 2 ^ 32) (hps : ps ⊆ C) {o : UInt32}
    {e : UInt32 × Datagram} {es : List (UInt32 × Datagram)} (h : Draining S C ps o (e :: es))
    (ho : e.1 = o) : Draining S C ps (o + e.2.length) es := by
  obtain ⟨hoff, hin⟩ := h.held e List.mem_cons_self
  have hC := hps hin
  have hoff' : e.2.offset = o := hoff.symm.trans ho
  obtain ⟨hlt, hsorted⟩ := List.pairwise_cons.1 h.sorted
  have hend : (o + e.2.length).toNat = segEnd e.2 := by
    have hle := T.le _ hC
    unfold segEnd at hle ⊢
    rw [hoff'] at hle ⊢
    rw [UInt32.toNat_add, Nat.mod_eq_of_lt (by omega)]
  have hgt : o < o + e.2.length := by
    rw [UInt32.lt_iff_toNat_lt, hend, segEnd, hoff']
    have := T.pos _ hC
    omega
  have honly : ∀ x ∈ C, o ≤ x.offset → x.offset < o + e.2.length → x = e.2 := by
    intro x hx hle hxlt
    rw [UInt32.lt_iff_toNat_lt, hend] at hxlt
    exact T.inside _ hC x hx (hoff' ▸ hle) hxlt
  refine ⟨hsorted, fun x hx => h.held x (List.mem_cons_of_mem _ hx), ?_, ?_, ?_, ?_⟩
  · -- what is left starts behind `e`, and nothing starts inside of it
    intro x hx
    obtain ⟨hxo, hxin⟩ := h.held x (List.mem_cons_of_mem _ hx)
    have hox : o < x.1 := ho ▸ hlt x hx
    refine not_lt.1 fun hxlt => ne_of_gt hox ?_
    rw [hxo] at hox hxlt ⊢
    rw [honly x.2 (hps hxin) (le_of_lt hox) hxlt, hoff']
  · rw [hend]
    refine (T.next _ hC).imp_right ?_
    intro hmem
    obtain ⟨x, hx, hxe⟩ := hmem
    exact ⟨x, hx, UInt32.toNat_inj.1 (hxe.trans hend.symm)⟩
  · intro x hx hxlt
    by_cases hxo : x.offset < o
    · exact h.come x hx hxo
    · exact honly x hx (not_lt.1 hxo) hxlt ▸ hin
  · intro x hx
    rcases h.kept x hx with hxo | ⟨y, hy⟩
    · exact .inl (lt_trans hxo hgt)
    · rcases List.mem_cons.1 hy with rfl | hy
      · exact .inl (ho ▸ hgt)
      · exact .inr ⟨y, hy⟩

theorem Draining.drainLoop (T : Tiling S C) (hS : S.length < 2 ^ 32) (hps : ps ⊆ C)
    (h : Draining S C ps s.recvOffset s.recvDatagramQueue.entries) :
    Draining S C ps (drainLoop s).1.1 (drainLoop s).2.entries :=
  OMap.drain_induct (f := drainStep) (fun st l => Draining S C ps st.1 l)
    (fun st e es st' hst hf => by
      obtain ⟨hk, rfl⟩ := drainStep_eq_some hf
      exact hst.next T hS hps hk)
    h

/-- A datagram that does not start below `recv_offset_` is filed. -/
theorem Draining.set (h : Draining S C ps s.recvOffset s.recvDatagramQueue.entries)
    (hd : s.recvOffset ≤ d.offset) : Draining S C (ps ++ [d]) s.recvOffset
      (s.recvDatagramQueue.set d.offset d).entries where
  sorted := (s.recvDatagramQueue.set d.offset d).sorted
  held e he := by
    rcases OMap.mem_set.1 he with ⟨he, -⟩ | rfl
    · exact ⟨(h.held e he).1, List.mem_append_left _ (h.held e he).2⟩
    · exact ⟨rfl, by simp⟩
  above e he := by
    rcases OMap.mem_set.1 he with ⟨he, -⟩ | rfl
    · exact h.above e he
    · exact hd
  boundary := h.boundary
  come x hx hlt := List.mem_append_left _ (h.come x hx hlt)
  kept x hx := by
    by_cases hk : x.offset = d.offset
    · exact .inr ⟨d, OMap.mem_set.2 (.inr (by rw [hk]))⟩
    · rcases List.mem_append.1 hx with hx | hx
      · refine (h.kept x hx).imp_right ?_
        intro hmem
        obtain ⟨y, hy⟩ := hmem
        exact ⟨y, OMap.mem_set.2 (.inl ⟨hy, hk⟩)⟩
      · exact absurd (by rw [List.mem_singleton.1 hx]) hk

/-! ## Runs -/

/-- How a stream stands that was fed with `ps`. -/
inductive Status (S : Bytes) (C ps : List Datagram) (s : Stream) : Prop
  /-- the segment at `recv_offset_` has not come -/
  | filling (h : Draining S C ps s.recvOffset s.recvDatagramQueue.entries)
      (lt : s.recvOffset.toNat < S.length)
      (above : ∀ e ∈ s.recvDatagramQueue.entries, s.recvOffset < e.1) (late : ¬ LateCopy C ps)
  /-- everything is delivered -/
  | done (eq : s.recvOffset.toNat = S.length) (held : Filed (· ∈ C) s.recvDatagramQueue)
      (come : C ⊆ ps) (late : ¬ LateCopy C ps)
  /-- a late copy is in front of the queue -/
  | wedged (lt : s.recvOffset.toNat < S.length) (blocked : Blocked s) (late : LateCopy C ps)

theorem Tiling.lt (T : Tiling S C) (hd : d ∈ C) : d.offset.toNat < S.length := by
  have hle := T.le d hd
  have hpos := T.pos d hd
  unfold segEnd at hle
  omega

/-- The first segment that has not come. -/
theorem Draining.missing (h : Draining S C ps s.recvOffset s.recvDatagramQueue.entries)
    (lt : s.recvOffset.toNat < S.length)
    (above : ∀ e ∈ s.recvDatagramQueue.entries, s.recvOffset < e.1) :
    ∃ x ∈ C, x.offset = s.recvOffset ∧ x ∉ ps := by
  rcases h.boundary with heq | ⟨x, hx, hxo⟩
  · omega
  · refine ⟨x, hx, hxo, fun hin => ?_⟩
    rcases h.kept x hin with hlt | ⟨y, hy⟩
    · exact absurd hxo (ne_of_lt hlt)
    · exact absurd hxo (ne_of_gt (above _ hy))

/-- What a segment does that is not below `recv_offset_`. -/
theorem Draining.feed (T : Tiling S C) (hS : S.length < 2 ^ 32) (hps : ps ++ [d] ⊆ C)
    (h : Draining S C ps s.recvOffset s.recvDatagramQueue.entries)
    (hd : s.recvOffset ≤ d.offset) (hle : (s.feed d).1.recvOffset.toNat ≤ S.length)
    (late : ¬ LateCopy C (ps ++ [d])) : Status S C (ps ++ [d]) (s.feed d).1 := by
  have hC : d ∈ C := hps (by simp)
  obtain ⟨hoff, hqueue, -⟩ := feed_data_eq_drainLoop (s := s) (T.type d hC)
  have hloop := Draining.drainLoop (s := { s with
    recvDatagramQueue := s.recvDatagramQueue.set d.offset d }) T hS hps (h.set hd)
  have hstop := fun e => drainLoop_stop (e := e) (s := { s with
    recvDatagramQueue := s.recvDatagramQueue.set d.offset d })
  rw [← hoff, ← hqueue] at hloop
  rw [← hoff, ← hqueue] at hstop
  by_cases heq : (s.feed d).1.recvOffset.toNat = S.length
  · refine .done heq (fun e he => ⟨(hloop.held e he).1, hps (hloop.held e he).2⟩) ?_ late
    intro x hx
    refine hloop.come x hx (UInt32.lt_iff_toNat_lt.2 ?_)
    rw [heq]
    exact T.lt hx
  · refine .filling hloop (by omega) (fun e he => ?_) late
    refine lt_of_le_of_ne (hloop.above e he) fun heq' => ?_
    -- an entry at `recv_offset_` is the first one, and the loop did not stop there
    cases hf : (s.feed d).1.recvDatagramQueue.front? with
    | none => rw [OMap.front?_eq_none.1 hf] at he; cases he
    | some x =>
      rcases OMap.front?_le hf he with rfl | hlt
      · exact hstop e hf heq'.symm
      · exact absurd (hloop.above x (OMap.front?_mem hf)) (not_le.2 (heq' ▸ hlt))

theorem Status.feed (T : Tiling S C) (hS : S.length < 2 ^ 32) (hps : ps ++ [d] ⊆ C)
    (h : Status S C ps s) (hle : (s.feed d).1.recvOffset.toNat ≤ S.length) :
    Status S C (ps ++ [d]) (s.feed d).1 := by
  have hC : d ∈ C := hps (by simp)
  have htype := T.type d hC
  cases h with
  | filling h lt above late =>
    obtain ⟨x, hx, hxo, hxps⟩ := h.missing lt above
    by_cases hd : d.offset < s.recvOffset
    · -- `d` and everything before it have come, but not the segment at `recv_offset_`
      have hb : Blocked { s with recvDatagramQueue := s.recvDatagramQueue.set d.offset d } :=
        ⟨(d.offset, d), OMap.mem_set.2 (.inr rfl), hd⟩
      rw [feed_data htype, hb.drainReceived]
      exact .wedged lt hb (lateCopy_snoc.2 (.inr
        ⟨fun y hy hle => h.come y hy (lt_of_le_of_lt hle hd), x, hx, hxps⟩))
    · refine h.feed T hS hps (not_lt.1 hd) hle fun hlate => ?_
      rcases lateCopy_snoc.1 hlate with hlate | ⟨hbefore, -⟩
      · exact late hlate
      · exact hxps (hbefore x hx (hxo ▸ not_lt.1 hd))
  | done eq held come late =>
    have hset : Filed (· ∈ C) (s.recvDatagramQueue.set d.offset d) := held.set hC
    have hno := drainReceived_of_ne
      (s := { s with recvDatagramQueue := s.recvDatagramQueue.set d.offset d }) (fun e he heq => by
        obtain ⟨hk, hin⟩ := hset e (OMap.front?_mem he)
        have hlt := T.lt hin
        change e.1 = s.recvOffset at heq
        rw [← hk, heq, eq] at hlt
        exact lt_irrefl _ hlt)
    rw [feed_data htype, hno]
    refine .done eq hset (fun x hx => List.mem_append_left _ (come hx)) fun hlate => ?_
    rcases lateCopy_snoc.1 hlate with hlate | ⟨-, x, hx, hxps⟩
    · exact late hlate
    · exact hxps (come hx)
  | wedged lt blocked late =>
    have hb := blocked.set d
    rw [feed_data htype, hb.drainReceived]
    exact .wedged lt hb (lateCopy_snoc.2 (.inl late))

theorem Tiling.slices_feedAll (T : Tiling S C) (id : UInt32) (hS : S.length < 2 ^ 32) (hds : ds ⊆ C) :
    Slices S (feedAll (.new id) ds) :=
  Stream.slices_feedAll id hS fun d hd => ⟨T.type d (hds hd), T.slice d (hds hd)⟩

theorem status_start (T : Tiling S C) : Status S C [] (.new id) := by
  have hlate : ¬ LateCopy C [] := by
    intro hlate
    obtain ⟨pre, d, post, heq, -⟩ := hlate
    exact absurd heq.symm (by simp)
  have hnil : ∀ e ∈ (new id).recvDatagramQueue.entries, False := fun e he => by cases he
  by_cases h0 : S.length = 0
  · refine .done h0.symm (filed_empty _) (fun x hx => ?_) hlate
    have := T.lt hx
    omega
  · refine .filling ⟨.nil, fun e he => (hnil e he).elim, fun e he => (hnil e he).elim, ?_, ?_, ?_⟩
      (Nat.pos_of_ne_zero h0) (fun e he => (hnil e he).elim) hlate
    · exact .inr (T.first.resolve_left h0)
    · intro x _ hlt
      exact absurd hlt (UInt32.not_lt_zero)
    · intro x hx
      cases hx

theorem status_feedAll (T : Tiling S C) (id : UInt32) (hS : S.length < 2 ^ 32) (hds : ds ⊆ C) :
    Status S C ds (feedAll (.new id) ds).1 := by
  induction ds using List.reverseRecOn with
  | nil => exact status_start T
  | append_singleton ds d ih =>
    have hle := (T.slices_feedAll id hS hds).le
    rw [feedAll_snoc] at hle ⊢
    exact (ih fun x hx => hds (List.mem_append_left _ hx)).feed T hS hds hle

/-- All of `S` is delivered, and `recv_offset_` is at its end. -/
def Complete (S : Bytes) (r : Stream × List StreamEff) : Prop :=
  (received r.2).flatten = S ∧ r.1.recvOffset.toNat = S.length

instance decidableComplete (S : Bytes) (r : Stream × List StreamEff) : Decidable (Complete S r) :=
  inferInstanceAs (Decidable (_ ∧ _))

/-- Fed with the segments of a cut, each at least once, in any order, a fresh stream
delivers all of it exactly if there is no late copy among them. -/
theorem complete_iff_not_lateCopy {cut : List Bytes} (hne : ∀ p ∈ cut, p ≠ [])
    (hlen : cut.flatten.length < 2 ^ 32) (hds : ∀ d, d ∈ ds ↔ d ∈ cutDatagrams id 0 cut) :
    Complete cut.flatten (feedAll (.new id) ds) ↔ ¬ LateCopy (cutDatagrams id 0 cut) ds := by
  have T := tiling_cut id hne hlen
  have hsub : ds ⊆ cutDatagrams id 0 cut := fun d hd => (hds d).1 hd
  have hdel := (T.slices_feedAll id hlen hsub).delivered
  cases status_feedAll T id hlen hsub with
  | filling h lt above late =>
    obtain ⟨x, hx, -, hmiss⟩ := h.missing lt above
    exact absurd ((hds x).2 hx) hmiss
  | done eq held come late =>
    refine iff_of_true ⟨?_, eq⟩ late
    rw [hdel, eq, List.take_length]
  | wedged lt blocked late =>
    exact iff_of_false (fun h => absurd h.2 (ne_of_lt lt)) (not_not.2 late)

/-- Three segments, the last one first; two of them come twice. -/
theorem complete_reordered : Complete [1, 2, 3]
    (feedAll (.new 0) [⟨.data, 0, 2, 1, [3]⟩, ⟨.data, 0, 1, 1, [2]⟩, ⟨.data, 0, 2, 1, [3]⟩,
      ⟨.data, 0, 0, 1, [1]⟩, ⟨.data, 0, 0, 1, [1]⟩]) := by
  have hds : ∀ d, d ∈ [(⟨.data, 0, 2, 1, [3]⟩ : Datagram), ⟨.data, 0, 1, 1, [2]⟩,
      ⟨.data, 0, 2, 1, [3]⟩, ⟨.data, 0, 0, 1, [1]⟩, ⟨.data, 0, 0, 1, [1]⟩] ↔
      d ∈ cutDatagrams 0 0 [[1], [2], [3]] := by
    intro d
    simp only [cutDatagrams, List.mem_cons, List.not_mem_nil, or_false]
    tauto
  have h := complete_iff_not_lateCopy (by decide) (by decide) hds
  exact h.2 (by decide)

/-- Counterexample: the first of two segments comes again before the second comes. -/
theorem not_complete_repeated : ¬ Complete [1, 2]
    (feedAll (.new 0) [⟨.data, 0, 0, 1, [1]⟩, ⟨.data, 0, 0, 1, [1]⟩, ⟨.data, 0, 1, 1, [2]⟩]) := by
  decide

end ShadowTalk.Sml.Stream
