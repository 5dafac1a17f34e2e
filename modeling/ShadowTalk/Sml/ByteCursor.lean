import ShadowTalk.Core.LTS
import ShadowTalk.Core.Slots
import ShadowTalk.Sml.ByteOps
import ShadowTalk.Sml.Growth

/-!
# Where the cursor of a `byte_string` is

A program that makes `byte_string`s and calls their operations in any order,
errors caught. The cursor stays inside the data exactly as long as every `seek`
stores a position inside the data and no longer string is assigned a string that
ends before its cursor: `seek` checks what it has stored already, and only from
above, and `operator=` leaves the cursor where it is.

* `Op.run_valid`: every operation but a seek to elsewhere keeps a string valid and
  copies inside its buffer.
* `cursor_exact`: the exact condition, along a run.
* `cursor_lost`: a seek beyond the end that throws.
-/
namespace ShadowTalk.Sml
open ShadowTalk.Core

namespace ByteString

variable {b : ByteString}

theorem toInt_of_nonneg {x : Int} (h0 : 0 ≤ x) (h : x < 2 ^ 31) : toInt x = x := by
  have := toInt_of_lt (n := x.toNat) (by omega)
  rwa [Int.toNat_of_nonneg h0] at this

theorem toSize_of_nonneg {x : Int} (h0 : 0 ≤ x) (h : x < 2 ^ 64) : (toSize x : Int) = x := by
  unfold toSize
  omega

/-! ## The operations on a valid string -/

theorem Valid.dataLen_lt (h : Valid b) : b.dataLen < 2 ^ 31 := by
  have := h.dataLen_le
  have := h.size
  have := h.small
  omega

theorem Valid.canRead (h : Valid b) : (b.canRead : Int) = b.dataLen - b.offset := by
  have := h.offset_le
  have := h.dataLen_lt
  have := h.pos
  exact toSize_of_nonneg (by omega) (by omega)

theorem Valid.canWrite (h : Valid b) : (b.canWrite : Int) = b.bufSize - b.offset := by
  have := h.offset_le
  have := h.dataLen_le
  have := h.size
  have := h.small
  have := h.pos
  exact toSize_of_nonneg (by omega) (by omega)

theorem Valid.holdsAt (h : Valid b) {n : Nat} (hn : b.offset + n ≤ b.bufSize) :
    b.holdsAt n = true := by
  have := h.pos
  simp only [ByteString.holdsAt, Bool.or_eq_true, Bool.and_eq_true, decide_eq_true_eq]
  exact .inr ⟨this, hn⟩

/-- A valid string with its cursor at another place in the data. -/
theorem Valid.setOffset (h : Valid b) {o : Int} (h0 : 0 ≤ o) (hle : o ≤ b.dataLen) :
    Valid { b with offset := o } :=
  ⟨h0, hle, h.dataLen_le, h.size, h.aligned, h.small⟩

theorem Valid.read (h : Valid b) (n : Nat) : Valid (b.read n).2 ∧ b.readInside n = true := by
  have hcan := h.canRead
  have hlt := h.dataLen_lt
  have hpos := h.pos
  have hle := h.dataLen_le
  unfold ByteString.read readInside readCount
  by_cases h0 : n = 0
  · simp only [h0, if_true]
    exact ⟨h, rfl⟩
  · simp only [h0, if_false]
    generalize hm : (if n ≤ b.canRead then n else b.canRead) = m
    have hmle : m ≤ b.canRead := by
      rw [← hm]
      split <;> omega
    have hoff : toInt (b.offset + m) = b.offset + m := toInt_of_nonneg (by omega) (by omega)
    rw [hoff]
    exact ⟨h.setOffset (by omega) (by omega), h.holdsAt (by omega)⟩

/-- A string with room for what is written at its cursor. -/
theorem Valid.overwrite (h : Valid b) {w : Bytes} (hw : b.offset + w.length ≤ b.bufSize) :
    Valid (mightUpdateDataLen { b with
      buf := overwrite b.buf b.offset.toNat w
      offset := toInt (b.offset + w.length) }) := by
  have hpos := h.pos
  have hoff := h.offset_le
  have hle := h.dataLen_le
  have hsize := h.size
  have hsmall := h.small
  have hint : toInt (b.offset + w.length) = b.offset + w.length :=
    toInt_of_nonneg (by omega) (by omega)
  have hlen : (ByteString.overwrite b.buf b.offset.toNat w).length = b.buf.length := by
    rw [length_overwrite (by omega)]
    omega
  unfold mightUpdateDataLen
  simp only [hint]
  refine ⟨?_, ?_, ?_, ?_, ?_, ?_⟩
  · show 0 ≤ b.offset + w.length
    omega
  · show b.offset + w.length ≤ if b.offset + w.length > b.dataLen then _ else _
    split <;> omega
  · show (if b.offset + w.length > b.dataLen then _ else _) ≤ b.bufSize
    split <;> omega
  · show b.bufSize = _
    simp only [hlen, hsize]
  · simp only [hlen, h.aligned]
  · simp only [hlen, hsmall]

/-- `write` throws, or it grows the buffer and copies what fits. -/
theorem Valid.write_cases (h : Valid b) (w : Bytes) :
    b.writeInside w = true ∧ ((∃ x, b.write w = .error x) ∨
      ∃ n b', b.write w = .ok (n, b') ∧ Valid b' ∧ b'.offset = b.offset + n ∧
        b'.bufSize ≤ max b.bufSize (2 ^ 30)) := by
  unfold ByteString.write writeInside
  by_cases h0 : w.length = 0
  · simp only [h0, if_true]
    refine ⟨rfl, .inr ⟨0, b, rfl, h, ?_, Int.le_max_left _ _⟩⟩
    rw [Int.natCast_zero, Int.add_zero]
  · simp only [h0, if_false, decide_false, Bool.false_or]
    rcases guranteeSpace_cases h (toSize (b.offset + w.length)) with
      ⟨b', he, hv, -, ho, -, -, hmax⟩ | ⟨he, -⟩
    · simp only [he, ok_bind]
      generalize hn : (if w.length ≤ b'.canWrite then w.length else b'.canWrite) = n
      have hcan := hv.canWrite
      have hpos := hv.pos
      have hsize := hv.size
      have hsmall := hv.small
      have hmin : n ≤ w.length ∧ n ≤ b'.canWrite := by
        rw [← hn]
        split <;> omega
      have hlen : (w.take n).length = n := by
        rw [List.length_take]
        omega
      have hov := hv.overwrite (w := w.take n) (by omega)
      rw [hlen] at hov
      refine ⟨hv.holdsAt (by omega), .inr ⟨n, _, rfl, hov, ?_, hmax⟩⟩
      show toInt (b'.offset + n) = b.offset + n
      rw [toInt_of_nonneg (by omega) (by omega), ho]
    · simp only [he, error_bind]
      exact ⟨trivial, .inl ⟨_, rfl⟩⟩

theorem Valid.write (h : Valid b) (w : Bytes) :
    Valid (b.writeOp w).1 ∧ b.writeInside w = true := by
  obtain ⟨hin, hw⟩ := h.write_cases w
  refine ⟨?_, hin⟩
  unfold writeOp
  rcases hw with ⟨x, he⟩ | ⟨n, b', he, hv, -⟩
  · rw [he]
    exact h
  · rw [he]
    exact hv

/-- A seek that stores a position inside the data. -/
def SeeksInside (b : ByteString) : Op → Prop
  | .seek whence offset => ∀ o, b.seekTarget offset whence = some o → 0 ≤ o ∧ o ≤ b.dataLen
  | _ => True

theorem Valid.seek (h : Valid b) {whence : Whence} {offset : Int}
    (hs : b.SeeksInside (.seek whence offset)) :
    Valid (b.seek whence offset).1 ∧ (b.seek whence offset).2 ≠ .seekOutOfRange := by
  unfold ByteString.seek
  cases ht : b.seekTarget offset whence with
  | none => exact ⟨h, by simp⟩
  | some o =>
    obtain ⟨h0, hle⟩ := hs o ht
    have hgt : ¬ o > b.dataLen := not_lt.2 hle
    simp only [hgt, if_false]
    exact ⟨h.setOffset h0 hle, by simp⟩

theorem writeOp_ne (b : ByteString) (w : Bytes) : (b.writeOp w).2 ≠ .seekOutOfRange := by
  unfold writeOp
  split <;> simp

theorem putOp_ne (b : ByteString) (w : Bytes) : (b.putOp w).2 ≠ .seekOutOfRange := by
  unfold putOp
  simp only
  split <;> simp

theorem getOp_ne (b : ByteString) (n : Nat) : (b.getOp n).2 ≠ .seekOutOfRange := by
  unfold getOp
  simp only
  split <;> simp

theorem Op.run_valid (h : Valid b) {op : Op} (hs : b.SeeksInside op) :
    Valid (op.run b).1 ∧ op.inside b = true ∧ (op.run b).2 ≠ .seekOutOfRange := by
  cases op with
  | write w => exact ⟨(h.write w).1, (h.write w).2, writeOp_ne b w⟩
  | read n => exact ⟨(h.read n).1, (h.read n).2, by simp [Op.run]⟩
  | seek whence offset => exact ⟨(h.seek hs).1, rfl, (h.seek hs).2⟩
  | append w =>
    have hint : toInt b.dataLen = b.dataLen :=
      toInt_of_nonneg (le_trans h.pos h.offset_le) h.dataLen_lt
    have hend := h.setOffset (le_trans h.pos h.offset_le) (le_refl b.dataLen)
    rw [inside_append hint, Op.run, append_eq hint]
    exact ⟨(hend.write w).1, (hend.write w).2, writeOp_ne _ w⟩
  | put w => exact ⟨(h.write w).1, (h.write w).2, putOp_ne b w⟩
  | get n => exact ⟨(h.read n).1, (h.read n).2, getOp_ne b n⟩
  | getRest => exact ⟨(h.read _).1, (h.read _).2, getOp_ne b _⟩

/-! ## Constructors and assignment -/

/-- `w` is copied to the start of a buffer that has room for it. -/
theorem Valid.fill {w : Bytes} (h : Valid b) (hw : w.length ≤ b.buf.length)
    (ho : b.offset ≤ w.length) :
    Valid { b with dataLen := w.length, buf := ByteString.overwrite b.buf 0 w } := by
  have hlen : (ByteString.overwrite b.buf 0 w).length = b.buf.length := by
    rw [length_overwrite (Nat.zero_le _)]
    omega
  have hsize := h.size
  refine ⟨h.pos, ho, ?_, ?_, ?_, ?_⟩
  · show (w.length : Int) ≤ b.bufSize
    omega
  · simp only [hlen, hsize]
  · simp only [hlen, h.aligned]
  · simp only [hlen, h.small]

/-- The sizes that the constructors are given: not negative, and below 2^29. -/
def Ctor.Small : Ctor → Prop
  | .default => True
  | .ofSize n => 0 ≤ n ∧ n < 2 ^ 29
  | .ofStdString val => val.length < 2 ^ 29
  | .ofBuf buf => buf.length < 2 ^ 29

instance : DecidablePred Ctor.Small
  | .default => .isTrue trivial
  | .ofSize n => inferInstanceAs (Decidable (0 ≤ n ∧ n < 2 ^ 29))
  | .ofStdString val => Nat.decLt val.length (2 ^ 29)
  | .ofBuf buf => Nat.decLt buf.length (2 ^ 29)

theorem ofSize_valid {n : Nat} (hn : n < 2 ^ 29) :
    ∃ b, ofSize n = .ok b ∧ Valid b ∧ b.buf.length = aligned n ∧ b.offset = 0 := by
  have hal := aligned_le n
  obtain ⟨b, he, hv, hlen, -, ho, -⟩ :=
    changeBufferSizeTo_valid empty_valid n (Int.natCast_nonneg n) (by omega)
  refine ⟨b, ?_, hv, hlen, ho⟩
  rw [ofSize, toSize_of_lt (by omega), he]

theorem Ctor.make_valid {c : Ctor} (hc : c.Small) : ∃ b, c.make = .ok b ∧ Valid b := by
  cases c with
  | default => exact ⟨empty, rfl, empty_valid⟩
  | ofSize n =>
    obtain ⟨h0, hlt⟩ := hc
    obtain ⟨b, he, hv, -⟩ := ofSize_valid (n := n.toNat) (by omega)
    rw [Int.toNat_of_nonneg h0] at he
    exact ⟨b, he, hv⟩
  | ofStdString val =>
    have hlt : val.length < 2 ^ 29 := hc
    obtain ⟨b, he, hv, hlen, ho⟩ := ofSize_valid hlt
    have hle := le_aligned val.length
    have hfill := hv.fill (w := val) (by omega) (by omega)
    refine ⟨_, ?_, hfill⟩
    have hint : toInt val.length = val.length := toInt_of_lt (by omega)
    rw [ByteString.ofSize] at he
    rw [make, ByteString.ofStdString, hint, he, ok_bind]
    simp [ByteString.overwrite]
  | ofBuf buf =>
    have hlt : buf.length < 2 ^ 29 := hc
    obtain ⟨b, he, hv, hlen, ho⟩ := ofSize_valid hlt
    have hle := le_aligned buf.length
    have hfill := hv.fill (w := buf) (by omega) (by omega)
    refine ⟨_, ?_, hfill⟩
    have hint : toInt buf.length = buf.length := toInt_of_lt (by omega)
    have hsize : toSize buf.length = buf.length := toSize_of_lt (by omega)
    rw [make, ByteString.ofBuf]
    simp only [hint, he, ok_bind, hsize, List.take_length]

variable {val : ByteString}

/-- What the buffer of another string is copied into. -/
theorem Valid.resize (h : Valid val) (b : ByteString) :
    ∃ buf, b.changeBufferSizeTo (toSize val.bufSize) = .ok { b with buf := buf, bufSize := buf.length } ∧
      buf.length = val.buf.length := by
  have hal : ByteString.aligned val.buf.length = val.buf.length := aligned_of_mod h.aligned
  obtain ⟨buf, he, hlen, -⟩ := changeBufferSizeTo_eq b val.buf.length (by
    rw [hal]
    exact h.small)
  rw [hal] at hlen
  refine ⟨buf, ?_, hlen⟩
  rw [h.toSize_bufSize, he, hal, hlen]

theorem Valid.length_take (h : Valid val) :
    ((val.buf.take (toSize val.dataLen)).length : Int) = val.dataLen := by
  obtain ⟨n, hn, hle⟩ := h.exists_dataLen
  rw [h.toSize_dataLen, hn, Int.toNat_natCast, List.length_take]
  omega

/-- The cursor is the old one, also behind the new end. -/
theorem assign_eq (hv : Valid val) (b : ByteString) :
    ∃ buf, b.assign val = .ok { b with
      dataLen := val.dataLen
      bufSize := buf.length
      buf := buf } ∧ buf.length = val.buf.length ∧
      buf.take (toSize val.dataLen) = val.buf.take (toSize val.dataLen) := by
  obtain ⟨buf, he, hlen⟩ := hv.resize b
  generalize hw : val.buf.take (toSize val.dataLen) = w
  have hwlen : (w.length : Int) = val.dataLen := hw ▸ hv.length_take
  have hle := hv.dataLen_le
  have hsize := hv.size
  have hov : (ByteString.overwrite buf 0 w).length = buf.length := by
    rw [length_overwrite (Nat.zero_le _)]
    omega
  refine ⟨ByteString.overwrite buf 0 w, ?_, by rw [hov, hlen], ?_⟩
  · rw [assign, he, ok_bind, hov, hw]
  · have hdata : toSize val.dataLen = w.length := by
      rw [hv.toSize_dataLen]
      omega
    rw [hdata]
    exact List.take_left' rfl

theorem Valid.assign (h : Valid b) (hv : Valid val) (ho : b.offset ≤ val.dataLen) :
    ∃ b', b.assign val = .ok b' ∧ Valid b' := by
  obtain ⟨buf, he, hlen, -⟩ := assign_eq hv b
  have hle := hv.dataLen_le
  have hsize := hv.size
  refine ⟨_, he, h.pos, ho, ?_, rfl, ?_, ?_⟩
  · show val.dataLen ≤ (buf.length : Int)
    omega
  · show buf.length % 16 = 0
    rw [hlen]
    exact hv.aligned
  · show buf.length < 2 ^ 31
    rw [hlen]
    exact hv.small

/-- The copy constructor is an assignment to an empty string. -/
theorem copy_eq (val : ByteString) : val.copy = empty.assign val := rfl

theorem Valid.copy (hv : Valid val) : ∃ b', val.copy = .ok b' ∧ Valid b' := by
  rw [copy_eq]
  exact empty_valid.assign hv (le_trans hv.pos hv.offset_le)

end ByteString

/-! ## The program -/

/-- The `byte_string`s made so far. `outside`: some operation has copied bytes that are
not in its buffer. `spoiled`: some seek has thrown and changed its object. -/
structure Pool where
  objs : List ByteString
  outside : Bool
  spoiled : Bool
  deriving DecidableEq, Repr

namespace Pool
open ByteString

/-- The operations; `i` and `j` are the numbers of the objects. -/
inductive PoolOp where
  | make (c : Ctor)
  | copy (j : Nat)
  | op (i : Nat) (op : Op)
  | appendOf (i j : Nat)
  | assign (i j : Nat)
  deriving DecidableEq, Repr

def start : Pool := ⟨[], false, false⟩

/-- A constructor that throws makes no object. -/
def add (s : Pool) : Except Exc ByteString → Pool
  | .ok b => { s with objs := s.objs ++ [b] }
  | .error _ => s

/-- An operation on the object `i`, which is `b`. -/
def apply (s : Pool) (i : Nat) (b : ByteString) (op : Op) : Pool :=
  let r := op.run b
  { objs := s.objs.modify i fun _ => r.1
    outside := s.outside || !op.inside b
    spoiled := s.spoiled || (r.2 == .seekOutOfRange && r.1 != b) }

/-- An operation that throws leaves what its object has become. An object is not
appended or assigned to itself. -/
def step (s : Pool) : PoolOp → Option Pool
  | .make c => if c.Small then some (s.add c.make) else none
  | .copy j => s.objs[j]?.map fun val => s.add val.copy
  | .op i op => s.objs[i]?.map fun b => s.apply i b op
  | .appendOf i j =>
    if i = j then none
    else
      s.objs[i]?.bind fun b => s.objs[j]?.map fun val =>
        s.apply i b (.append (val.buf.take (toSize val.dataLen)))
  | .assign i j =>
    if i = j then none
    else
      s.objs[i]?.bind fun b => s.objs[j]?.map fun val =>
        match b.assign val with
        | .ok b => { s with objs := s.objs.modify i fun _ => b }
        | .error _ => s

def lts : LTS Pool PoolOp := .ofFn (· = start) step

/-- The cursor of every object is inside its data, the data inside its buffer, the
counts are the differences, nothing outside a buffer has been copied, and no seek
that threw has changed its object. -/
structure Sound (s : Pool) : Prop where
  cursor : ∀ b ∈ s.objs, 0 ≤ b.offset ∧ b.offset ≤ b.dataLen ∧ b.dataLen ≤ b.bufSize
  counts : ∀ b ∈ s.objs, (b.canRead : Int) = b.dataLen - b.offset ∧
    (b.canWrite : Int) = b.bufSize - b.offset
  inside : s.outside = false
  intact : s.spoiled = false

/-- A seek stores a position inside the data, and what is assigned does not end before
the cursor. -/
def KeepsCursor (s : Pool) : PoolOp → Prop
  | .op i op => ∀ b, s.objs[i]? = some b → b.SeeksInside op
  | .assign i j => ∀ b val, s.objs[i]? = some b → s.objs[j]? = some val → b.offset ≤ val.dataLen
  | _ => True

/-- Every object is valid, and nothing has gone wrong. -/
structure Inv (s : Pool) : Prop where
  valid : ∀ b ∈ s.objs, Valid b
  inside : s.outside = false
  intact : s.spoiled = false

variable {s s' : Pool} {b val : ByteString}

theorem Inv.sound (h : Inv s) : Sound s where
  cursor b hb := ⟨(h.valid b hb).pos, (h.valid b hb).offset_le, (h.valid b hb).dataLen_le⟩
  counts b hb := ⟨(h.valid b hb).canRead, (h.valid b hb).canWrite⟩
  inside := h.inside
  intact := h.intact

theorem Inv.add (h : Inv s) (hb : Valid b) : Inv (s.add (.ok b)) where
  valid x hx := by
    rcases List.mem_append.1 hx with hx | hx
    · exact h.valid x hx
    · rw [List.mem_singleton.1 hx]
      exact hb
  inside := h.inside
  intact := h.intact

theorem Inv.modify (h : Inv s) {i : Nat} (hi : s.objs[i]? = some b) (hv : Valid val) :
    Inv { s with objs := s.objs.modify i fun _ => val } :=
  ⟨Slots.forall_mem_modify h.valid hi hv, h.inside, h.intact⟩

theorem Inv.apply (h : Inv s) {i : Nat} {op : Op} (hi : s.objs[i]? = some b)
    (hs : b.SeeksInside op) : Inv (s.apply i b op) := by
  obtain ⟨hv, hin, hne⟩ := Op.run_valid (h.valid b (List.mem_of_getElem? hi)) hs
  refine ⟨Slots.forall_mem_modify h.valid hi hv, ?_, ?_⟩
  · simp [Pool.apply, h.inside, hin]
  · simp [Pool.apply, h.intact, hne]

/-- Every step that keeps the cursor inside keeps the invariant. -/
theorem Inv.step {l : PoolOp} (h : Inv s) (hc : KeepsCursor s l) (hs : step s l = some s') :
    Inv s' := by
  have valid : ∀ {j : Nat} {x : ByteString}, s.objs[j]? = some x → Valid x := fun hj =>
    h.valid _ (List.mem_of_getElem? hj)
  cases l with
  | make c =>
    simp only [Pool.step, Option.ite_none_right_eq_some, Option.some.injEq] at hs
    obtain ⟨hsmall, rfl⟩ := hs
    obtain ⟨b, he, hv⟩ := Ctor.make_valid hsmall
    rw [he]
    exact h.add hv
  | copy j =>
    obtain ⟨val, hj, rfl⟩ := Option.map_eq_some_iff.1 hs
    obtain ⟨b, he, hv⟩ := (valid hj).copy
    rw [he]
    exact h.add hv
  | op i op =>
    obtain ⟨b, hi, rfl⟩ := Option.map_eq_some_iff.1 hs
    exact h.apply hi (hc b hi)
  | appendOf i j =>
    simp only [Pool.step, Option.ite_none_left_eq_some, Option.bind_eq_some_iff,
      Option.map_eq_some_iff] at hs
    obtain ⟨-, b, hi, val, -, rfl⟩ := hs
    exact h.apply hi trivial
  | assign i j =>
    simp only [Pool.step, Option.ite_none_left_eq_some, Option.bind_eq_some_iff,
      Option.map_eq_some_iff] at hs
    obtain ⟨-, b, hi, val, hj, rfl⟩ := hs
    obtain ⟨b', he, hv⟩ := (valid hi).assign (valid hj) (hc b val hi hj)
    rw [he]
    exact h.modify hi hv

theorem inv_inductive : (lts.guard KeepsCursor).Inductive Inv where
  init := forall_eq.2 ⟨List.forall_mem_nil _, rfl, rfl⟩
  step _ _ _ h hs := h.step hs.2 hs.1

theorem keepsCursor_exact : lts.Exact KeepsCursor Sound := by
  refine inv_inductive.exact (fun s h => h.sound) fun s l s' h hst hsound => ?_
  have hs : step s l = some s' := hst
  cases l with
  | make c => trivial
  | copy j => trivial
  | appendOf i j => trivial
  | op i op =>
    intro b hi
    obtain ⟨x, hx, rfl⟩ := Option.map_eq_some_iff.1 hs
    obtain rfl : b = x := Option.some.inj (hi.symm.trans hx)
    cases op with
    | seek whence offset =>
      intro o ho
      have hrun : ((b.seek whence offset).1).offset = o ∧
          ((b.seek whence offset).1).dataLen = b.dataLen := by
        unfold seek
        simp only [ho]
        split <;> exact ⟨rfl, rfl⟩
      have hmem := hsound.cursor _ (Slots.mem_modify_const hi (b.seek whence offset).1)
      rw [hrun.1, hrun.2] at hmem
      exact ⟨hmem.1, hmem.2.1⟩
    | _ => trivial
  | assign i j =>
    intro b val hi hj
    simp only [step, Option.ite_none_left_eq_some, Option.bind_eq_some_iff,
      Option.map_eq_some_iff] at hs
    obtain ⟨-, x, hx, y, hy, rfl⟩ := hs
    obtain rfl : b = x := Option.some.inj (hi.symm.trans hx)
    obtain rfl : val = y := Option.some.inj (hj.symm.trans hy)
    obtain ⟨buf, he, -⟩ := assign_eq (h.valid val (List.mem_of_getElem? hj)) b
    rw [he] at hsound
    exact (hsound.cursor _ (Slots.mem_modify_const hi _)).2.1

/-- In every run all is well as long as each step keeps the cursor inside, and no longer
after the first one that does not. -/
theorem cursor_exact (h : (lts.guard KeepsCursor).Reachable s) :
    Sound s ∧ ∀ l s', lts.step s l s' → Sound s' → KeepsCursor s l :=
  ⟨keepsCursor_exact.sound s h, fun l s' => keepsCursor_exact.sharp s l s' h⟩

/-- Two bytes, and a seek to the second one. -/
theorem cursor_exact_seek : ∃ s : Pool, s.objs.map ByteString.offset = [1] ∧ Sound s := by
  have hrun : ∃ s, (lts.guard KeepsCursor).Reachable s ∧
      s.objs.map ByteString.offset = [1] := by
    refine ⟨_, ⟨start, [.make (.ofStdString [1, 2]), .op 0 (.seek .seekSet 1)], rfl,
      .cons ⟨rfl, trivial⟩ (.cons ⟨rfl, fun b hb o ho => ?_⟩ (.nil _))⟩, rfl⟩
    obtain rfl := Option.some.inj hb
    obtain rfl := Option.some.inj ho
    decide
  obtain ⟨s, hr, hoff⟩ := hrun
  exact ⟨s, hoff, (cursor_exact hr).1⟩

/-- Counterexample: a seek to position 1 of an empty string throws and leaves the cursor
there. -/
theorem cursor_lost : ∃ s, lts.Reachable s ∧ ¬ Sound s := by
  obtain ⟨s, hr, hs⟩ : ∃ s, lts.Reachable s ∧ s.spoiled = true :=
    LTS.exists_reachable_of_exec [.make .default, .op 0 (.seek .seekSet 1)] rfl (by decide)
  refine ⟨s, hr, fun h => ?_⟩
  rw [h.intact] at hs
  cases hs

end Pool
end ShadowTalk.Sml
