import ShadowTalk.Sml.StreamNet
import Mathlib.Data.List.Induction

/-!
# What a stream makes of a sequence of datagrams

`feedAll` feeds a fresh stream with whatever arrives: true slices of one byte
string, datagrams whose header does not fit their payload, or the segments of one
cut, in any order and any number of times.

* `delivers_upto`: from true slices of `S` it delivers `S` up to `recv_offset_`,
  and acknowledges just that.
* `counts_iff_fitting`: `recv_offset_` always counts the delivered bytes exactly if in every
  datagram that a drain loop comes to `length_` is the size of the payload.
-/
namespace ShadowTalk.Sml.Stream
open ShadowTalk.Core
open ShadowTalk.Sml.StreamNet (feedAll)

variable {id : UInt32} {s : Stream} {d : Datagram} {ds : List Datagram} {S : Bytes}

theorem feedAll_append (s : Stream) (ds es : List Datagram) :
    feedAll s (ds ++ es) =
      ((feedAll (feedAll s ds).1 es).1, (feedAll s ds).2 ++ (feedAll (feedAll s ds).1 es).2) := by
  induction ds generalizing s with
  | nil => rfl
  | cons d ds ih => simp only [List.cons_append, feedAll, ih, List.append_assoc]

theorem feedAll_snoc (s : Stream) (ds : List Datagram) (d : Datagram) :
    feedAll s (ds ++ [d]) =
      (((feedAll s ds).1.feed d).1, (feedAll s ds).2 ++ ((feedAll s ds).1.feed d).2) := by
  rw [feedAll_append, feedAll, feedAll, List.append_nil]

theorem Filed.feed {P : Datagram → Prop} (h : Filed P s.recvDatagramQueue) (hd : P d) :
    Filed P (s.feed d).1.recvDatagramQueue := by
  unfold Stream.feed
  split
  · exact (h.set hd).drainReceived
  · exact (h.set hd).drainReceived
  · refine Filed.drainReceived ?_
    rw [sendOneDatagram_recvQueue]
    exact h
  · exact h

theorem filed_feedAll (id : UInt32) {P : Datagram → Prop} (hd : ∀ d ∈ ds, P d) :
    Filed P (feedAll (.new id) ds).1.recvDatagramQueue := by
  induction ds using List.reverseRecOn with
  | nil => exact filed_empty P
  | append_singleton ds d ih =>
    rw [feedAll_snoc]
    exact (ih fun x hx => hd x (List.mem_append_left _ hx)).feed (hd d (by simp))

/-! ## True slices -/

/-- What a data datagram leaves of the receiving side, and what it delivers. -/
theorem feed_data_eq_drainLoop (h : d.type = .data) :
    let r := drainLoop { s with recvDatagramQueue := s.recvDatagramQueue.set d.offset d }
    (s.feed d).1.recvOffset = r.1.1 ∧ (s.feed d).1.recvDatagramQueue = r.2 ∧
      received (s.feed d).2 = received r.1.2 := by
  intro r
  obtain ⟨h1, h2⟩ := drainReceived_eq_drainLoop
    { s with recvDatagramQueue := s.recvDatagramQueue.set d.offset d }
  rw [feed_data h, h1, h2]
  exact ⟨rfl, rfl, rfl⟩

/-- A data datagram is answered by the acknowledgement of what is received then, or not
at all. -/
theorem feed_data_sends (h : d.type = .data) {x : Datagram} (hx : x ∈ sends (s.feed d).2) :
    x = (s.feed d).1.ack := by
  rw [feed_data h] at hx ⊢
  exact eq_ack_of_mem_drainReceived hx

/-- `S` up to `recv_offset_` is delivered. -/
structure Slices (S : Bytes) (r : Stream × List StreamEff) : Prop where
  le : r.1.recvOffset.toNat ≤ S.length
  delivered : (received r.2).flatten = S.take r.1.recvOffset.toNat

theorem slices_feedAll (id : UInt32) (hS : S.length < 2 ^ 32)
    (hd : ∀ d ∈ ds, d.type = .data ∧ TrueSlice S d) : Slices S (feedAll (.new id) ds) := by
  induction ds using List.reverseRecOn with
  | nil => exact ⟨Nat.zero_le _, rfl⟩
  | append_singleton ds d ih =>
    have hds : ∀ x ∈ ds, x.type = .data ∧ TrueSlice S x := fun x hx => hd x (List.mem_append_left _ hx)
    obtain ⟨htype, hslice⟩ := hd d (by simp)
    obtain ⟨hoff, -, hrec⟩ := feed_data_eq_drainLoop (s := (feedAll (.new id) ds).1) htype
    have hset := (filed_feedAll id fun x hx => (hds x hx).2).set hslice
    obtain ⟨hdel, hle⟩ := drainLoop_delivers
      (s := { (feedAll (.new id) ds).1 with
        recvDatagramQueue := (feedAll (.new id) ds).1.recvDatagramQueue.set d.offset d })
      hS hset (ih hds).le
    rw [feedAll_snoc]
    refine ⟨?_, ?_⟩
    · show UInt32.toNat (feed _ d).1.recvOffset ≤ _
      rw [hoff]
      exact hle
    · show (received (_ ++ _)).flatten = S.take (UInt32.toNat (feed _ d).1.recvOffset)
      rw [received_append, List.flatten_append, (ih hds).delivered, hrec, hoff]
      exact hdel

/-- Fed with true slices of `S`, in any order and with any overlaps and gaps, a fresh
stream has delivered `S` up to `recv_offset_` after every feed, and sends nothing but
acknowledgements of it. -/
theorem delivers_upto (id : UInt32) (hS : S.length < 2 ^ 32)
    (hd : ∀ d ∈ ds, d.type = .data ∧ TrueSlice S d) :
    (∀ ps, ps <+: ds → (received (feedAll (.new id) ps).2).flatten =
        S.take (feedAll (.new id) ps).1.recvOffset.toNat ∧
      (feedAll (.new id) ps).1.recvOffset.toNat ≤ S.length) ∧
    ∀ ps d, ps ++ [d] <+: ds → ∀ x ∈ sends ((feedAll (.new id) ps).1.feed d).2,
      x = (feedAll (.new id) (ps ++ [d])).1.ack := by
  refine ⟨fun ps hps => ?_, fun ps d hps x hx => ?_⟩
  · have h := slices_feedAll id hS fun x hx => hd x (hps.subset hx)
    exact ⟨h.delivered, h.le⟩
  · rw [feedAll_snoc]
    exact feed_data_sends (hd d (hps.subset (by simp))).1 hx

/-- Two overlapping slices, the later one first. -/
theorem delivers_upto_overlap :
    (received (feedAll (.new 0) [⟨.data, 0, 1, 2, [2, 3]⟩, ⟨.data, 0, 0, 2, [1, 2]⟩]).2).flatten =
      [1, 2] := by
  have hd : ∀ d ∈ [(⟨.data, 0, 1, 2, [2, 3]⟩ : Datagram), ⟨.data, 0, 0, 2, [1, 2]⟩],
      d.type = .data ∧ TrueSlice [1, 2, 3] d := by
    intro d hd
    simp only [List.mem_cons, List.not_mem_nil, or_false] at hd
    rcases hd with rfl | rfl
    · exact ⟨rfl, rfl, rfl⟩
    · exact ⟨rfl, rfl, rfl⟩
  exact ((delivers_upto 0 (by decide) hd).1 _ (List.prefix_refl _)).1

/-! ## Lengths -/

/-- The receive queue that the drain loop runs over when `d` is fed; it does not run for
datagrams of other types. -/
def toDrain (s : Stream) (d : Datagram) : List (UInt32 × Datagram) :=
  match d.type with
  | .abort | .data => (s.recvDatagramQueue.set d.offset d).entries
  | .dataAck => s.recvDatagramQueue.entries
  | _ => []

/-- `recv_offset_`, and what this feed has put out, after each turn of the drain loop. -/
def turns (s : Stream) (d : Datagram) : List (UInt32 × List StreamEff) :=
  OMap.drainStates drainStep (s.recvOffset, []) (toDrain s d)

/-- The drain loop, started at an offset, comes to `x`: the datagrams in front of `x` are
queued where the one before them ends by its `length_`, and so is `x`. -/
inductive InLine : UInt32 → List (UInt32 × Datagram) → Datagram → Prop
  | head {o : UInt32} {x : Datagram} {l : List (UInt32 × Datagram)} : InLine o ((o, x) :: l) x
  | tail {o : UInt32} {x y : Datagram} {l : List (UInt32 × Datagram)} :
    InLine (o + y.length) l x → InLine o ((o, y) :: l) x

/-- `length_` is the size of the payload, modulo 2^32. -/
def Fits (d : Datagram) : Prop := d.length = .ofNat d.payload.length

/-- All datagrams that the loop comes to when `d` is fed fit. -/
def FeedsFitting (s : Stream) (d : Datagram) : Prop :=
  ∀ x, InLine s.recvOffset (toDrain s d) x → Fits x

/-- The receive offset is the number of bytes that have been put out, modulo 2^32. -/
def CountsPut (o : UInt32) (es : List StreamEff) : Prop := o = .ofNat (received es).flatten.length

instance decidableCountsPut (o : UInt32) (es : List StreamEff) : Decidable (CountsPut o es) :=
  inferInstanceAs (Decidable (_ = _))

/-- After all feeds the receive offset is the number of delivered bytes, modulo 2^32. -/
def Counts (r : Stream × List StreamEff) : Prop := CountsPut r.1.recvOffset r.2

instance decidableCounts (r : Stream × List StreamEff) : Decidable (Counts r) :=
  decidableCountsPut _ _

/-- The receive offset is the number of bytes put out at all times: after every feed, and
within a feed whenever a payload has been put out. -/
structure CountsAlways (id : UInt32) (ds : List Datagram) : Prop where
  fed : ∀ ps, ps <+: ds → Counts (feedAll (.new id) ps)
  put : ∀ ps d, ps ++ [d] <+: ds → ∀ st ∈ turns (feedAll (.new id) ps).1 d,
    CountsPut st.1 ((feedAll (.new id) ps).2 ++ st.2)

theorem inLine_cons {o : UInt32} {e : UInt32 × Datagram} {l : List (UInt32 × Datagram)}
    {x : Datagram} : InLine o (e :: l) x ↔ e.1 = o ∧ (x = e.2 ∨ InLine (o + e.2.length) l x) := by
  constructor
  · intro h
    cases h with
    | head => exact ⟨rfl, .inl rfl⟩
    | tail h => exact ⟨rfl, .inr h⟩
  · rintro ⟨rfl, rfl | h⟩
    · exact .head
    · exact .tail h

theorem InLine.mem {o : UInt32} {l : List (UInt32 × Datagram)} {x : Datagram}
    (h : InLine o l x) : ∃ e ∈ l, e.2 = x := by
  induction h with
  | head => exact ⟨_, List.mem_cons_self, rfl⟩
  | tail _ ih =>
    obtain ⟨e, he, hx⟩ := ih
    exact ⟨e, List.mem_cons_of_mem _ he, hx⟩

theorem feed_drainList (s : Stream) (d : Datagram) :
    (s.feed d).1.recvOffset =
        (OMap.drainList drainStep (s.recvOffset, []) (toDrain s d)).1.1 ∧
      received (s.feed d).2 =
        received (OMap.drainList drainStep (s.recvOffset, []) (toDrain s d)).1.2 := by
  cases htype : d.type with
  | abort | data =>
    simp only [feed, toDrain, htype]
    obtain ⟨h1, h2⟩ := drainReceived_eq_drainLoop
      { s with recvDatagramQueue := s.recvDatagramQueue.set d.offset d }
    rw [h1, h2]
    exact ⟨rfl, rfl⟩
  | dataAck =>
    simp only [feed, toDrain, htype, received_append, sendOneDatagram_received, List.nil_append]
    obtain ⟨h1, h2⟩ := drainReceived_eq_drainLoop (sendOneDatagram { s with sendOffset := d.offset }).1
    rw [h1, h2, drainLoop, OMap.drain, sendOneDatagram_recvQueue, sendOneDatagram_recvOffset]
    exact ⟨rfl, rfl⟩
  | _ => simp [feed, toDrain, htype, OMap.drainList]

/-- `feed` ends with the last turn, or the loop does not turn. -/
theorem feed_turns (s : Stream) (d : Datagram) :
    (s.feed d).1.recvOffset = ((turns s d).getLastD (s.recvOffset, [])).1 ∧
      received (s.feed d).2 = received ((turns s d).getLastD (s.recvOffset, [])).2 := by
  rw [turns, ← OMap.drainList_eq_getLastD]
  exact feed_drainList s d

/-- One turn keeps the count exactly if the datagram it takes fits. -/
theorem countsPut_turn {o : UInt32} {es : List StreamEff} (h : CountsPut o es) (x : Datagram) :
    CountsPut (o + x.length) (es ++ [.recvData x.payload]) ↔ Fits x := by
  unfold CountsPut at *
  rw [received_append, received_recv, List.flatten_append, List.flatten_singleton,
    List.length_append, UInt32.ofNat_add, ← h]
  exact UInt32.add_right_inj _

/-- All turns keep the count exactly if all datagrams that the loop comes to fit. -/
theorem countsPut_drainStates {o : UInt32} {pre es : List StreamEff}
    (h : CountsPut o (pre ++ es)) (l : List (UInt32 × Datagram)) :
    (∀ st ∈ OMap.drainStates drainStep (o, es) l, CountsPut st.1 (pre ++ st.2)) ↔
      ∀ x, InLine o l x → Fits x := by
  induction l generalizing o es with
  | nil => exact iff_of_true (List.forall_mem_nil _) fun x hx => nomatch hx
  | cons e l ih =>
    by_cases hk : e.1 = o
    · have hturn := countsPut_turn h e.2
      rw [List.append_assoc] at hturn
      have hstates : OMap.drainStates drainStep (o, es) (e :: l) =
          (o + e.2.length, es ++ [.recvData e.2.payload]) ::
            OMap.drainStates drainStep (o + e.2.length, es ++ [.recvData e.2.payload]) l := by
        simp only [OMap.drainStates, drainStep, if_pos hk]
      simp only [hstates, List.forall_mem_cons, inLine_cons, hk, true_and, forall_eq_or_imp,
        hturn]
      exact and_congr_right fun hfit => ih (hturn.2 hfit)
    · simp [OMap.drainStates, drainStep, inLine_cons, hk]

theorem counts_snoc (h : Counts (feedAll s ds))
    (ht : ∀ st ∈ turns (feedAll s ds).1 d, CountsPut st.1 ((feedAll s ds).2 ++ st.2)) :
    Counts (feedAll s (ds ++ [d])) := by
  obtain ⟨h1, h2⟩ := feed_turns (feedAll s ds).1 d
  have hlast : ∀ st, (turns (feedAll s ds).1 d).getLastD ((feedAll s ds).1.recvOffset, []) = st →
      CountsPut st.1 ((feedAll s ds).2 ++ st.2) := by
    rintro st rfl
    rcases List.eq_nil_or_concat (turns (feedAll s ds).1 d) with hnil | ⟨l, st, hl⟩
    · rw [hnil]
      simpa [Counts] using h
    · rw [hl, List.concat_eq_append, List.getLastD_concat]
      exact ht st (by rw [hl]; simp)
  have hput := hlast _ rfl
  unfold Counts CountsPut at *
  rw [feedAll_snoc]
  show (feed _ d).1.recvOffset = .ofNat (received (_ ++ _)).flatten.length
  rw [h1, received_append, h2, ← received_append]
  exact hput

theorem turns_fit (h : Counts (feedAll s ds)) :
    (∀ st ∈ turns (feedAll s ds).1 d, CountsPut st.1 ((feedAll s ds).2 ++ st.2)) ↔
      FeedsFitting (feedAll s ds).1 d :=
  countsPut_drainStates (by simpa [Counts] using h) _

theorem countsAlways_of_fitting
    (h : ∀ ps d, ps ++ [d] <+: ds → FeedsFitting (feedAll (.new id) ps).1 d) :
    CountsAlways id ds := by
  have hfed : ∀ ps, ps <+: ds → Counts (feedAll (.new id) ps) := by
    intro ps hps
    induction ps using List.reverseRecOn with
    | nil => rfl
    | append_singleton ps d ih =>
      have hcounts := ih ((List.prefix_append ps [d]).trans hps)
      exact counts_snoc hcounts ((turns_fit hcounts).2 (h ps d hps))
  refine ⟨hfed, fun ps d hps => ?_⟩
  exact (turns_fit (hfed ps ((List.prefix_append ps [d]).trans hps))).2 (h ps d hps)

/-! ### Between the feeds -/

/-- The datagrams that the loop comes to from offset `o` on, in order. -/
def chain : UInt32 → List (UInt32 × Datagram) → List Datagram
  | _, [] => []
  | o, e :: es => if e.1 = o then e.2 :: chain (o + e.2.length) es else []

/-- What the headers add up to, modulo 2^32. -/
def lengthSum : List Datagram → UInt32
  | [] => 0
  | d :: ds => d.length + lengthSum ds

/-- What the drain loop takes when `d` is fed. -/
def taken (s : Stream) (d : Datagram) : List Datagram := chain s.recvOffset (toDrain s d)

/-- The headers of what `d` makes the drain loop take add up to the sizes of the payloads:
what one lacks another one may have too much. -/
def Balanced (s : Stream) (d : Datagram) : Prop :=
  lengthSum (taken s d) = .ofNat ((taken s d).map Datagram.payload).flatten.length

theorem drainList_chain (o : UInt32) (es : List StreamEff) (l : List (UInt32 × Datagram)) :
    (OMap.drainList drainStep (o, es) l).1.1 = o + lengthSum (chain o l) ∧
      received (OMap.drainList drainStep (o, es) l).1.2 =
        received es ++ (chain o l).map Datagram.payload := by
  induction l generalizing o es with
  | nil => simp [OMap.drainList, chain, lengthSum]
  | cons e l ih =>
    by_cases hk : e.1 = o
    · obtain ⟨h1, h2⟩ := ih (o + e.2.length) (es ++ [.recvData e.2.payload])
      simp only [OMap.drainList, drainStep, chain, if_pos hk, h1, h2]
      simp [lengthSum, UInt32.add_assoc]
    · simp [OMap.drainList, drainStep, chain, lengthSum, if_neg hk]

theorem counts_snoc_iff (h : Counts (feedAll s ds)) :
    Counts (feedAll s (ds ++ [d])) ↔ Balanced (feedAll s ds).1 d := by
  obtain ⟨h1, h2⟩ := feed_drainList (feedAll s ds).1 d
  obtain ⟨h3, h4⟩ := drainList_chain (feedAll s ds).1.recvOffset [] (toDrain (feedAll s ds).1 d)
  rw [h3] at h1
  rw [h4, received_nil, List.nil_append] at h2
  unfold Counts CountsPut Balanced taken at *
  rw [feedAll_snoc]
  show (feed _ d).1.recvOffset = .ofNat (received (_ ++ _)).flatten.length ↔ _
  rw [h1, received_append, h2, List.flatten_append, List.length_append, UInt32.ofNat_add, h]
  exact UInt32.add_right_inj _

/-- `recv_offset_` is at all times the number of bytes put out, modulo 2^32, exactly if in
every datagram that a drain loop comes to `length_` is the size of the payload. Looked at
between the feeds only, it is so exactly if for every feed the headers of what the loop takes
add up to the sizes of the payloads. -/
theorem counts_iff_fitting (id : UInt32) (ds : List Datagram) :
    (CountsAlways id ds ↔
      ∀ ps d, ps ++ [d] <+: ds → FeedsFitting (feedAll (.new id) ps).1 d) ∧
    ((∀ ps, ps <+: ds → Counts (feedAll (.new id) ps)) ↔
      ∀ ps d, ps ++ [d] <+: ds → Balanced (feedAll (.new id) ps).1 d) := by
  refine ⟨⟨fun h ps d hps => ?_, countsAlways_of_fitting⟩, fun h ps d hps => ?_,
    fun h ps hps => ?_⟩
  · have hcounts := h.fed ps ((List.prefix_append ps [d]).trans hps)
    exact (turns_fit hcounts).1 (h.put ps d hps)
  · exact (counts_snoc_iff (h ps ((List.prefix_append ps [d]).trans hps))).1 (h _ hps)
  · induction ps using List.reverseRecOn with
    | nil => rfl
    | append_singleton ps d ih =>
      exact (counts_snoc_iff (ih ((List.prefix_append ps [d]).trans hps))).2 (h ps d hps)

/-- Counterexample: a datagram of one byte whose header says two. -/
theorem counts_forged : ¬ Counts (feedAll (.new 0) [⟨.data, 0, 0, 2, [1]⟩]) := by decide

/-- The header says how many bytes the payload has. -/
def Sized (d : Datagram) : Prop := d.payload.length = d.length.toNat

theorem Sized.fits (h : Sized d) : Fits d := by
  rw [Fits, h, UInt32.ofNat_toNat]

/-- With headers that say how many bytes the payloads have, the offset always counts. -/
theorem countsAlways_of_sized (hd : ∀ d ∈ ds, Sized d) : CountsAlways id ds := by
  refine countsAlways_of_fitting fun ps d hps x hx => ?_
  have hq := filed_feedAll id (P := Sized) fun x hx =>
    hd x (((List.prefix_append ps [d]).trans hps).subset hx)
  obtain ⟨e, he, rfl⟩ := hx.mem
  unfold toDrain at he
  split at he
  · exact (hq.set (hd d (hps.subset (by simp))) e he).2.fits
  · exact (hq.set (hd d (hps.subset (by simp))) e he).2.fits
  · exact (hq e he).2.fits
  · cases he

end ShadowTalk.Sml.Stream
