import ShadowTalk.Sml.ByteWriter

/-!
# `byte_string`, its public operations

The constructors, `seek`, `append`, assignment and the stream operators, each with
the object it leaves, also where it throws.

* `Op.run`: one operation on an object; `Op.inside`: whether the bytes it copies
  lie in the buffer.
* `appendOf`, `assign`: the operations on two objects. An object that is appended
  to itself would read its own freed buffer; that is not modelled.

Limitations: a buffer of fewer than 2^31 bytes can be allocated. The assertion of
`can_write` is not modelled; it holds unless a constructor is given a size above
2^31 - 16.
-/
namespace ShadowTalk.Sml
open ShadowTalk.Core

namespace ByteString

/-! ## Constructors and assignment -/

/-- `byte_string(int)`.
mirrors client/sml/byte_string.cpp:5-8 -/
def ofSize (initBufSize : Int) : Except Exc ByteString :=
  empty.changeBufferSizeTo (toSize initBufSize)

/-- `byte_string(const void *, int)`; `buf` are the bytes at the pointer.
mirrors client/sml/byte_string.cpp:23-27 -/
def ofBuf (buf : Bytes) : Except Exc ByteString := do
  let len := toInt buf.length
  let b ← ofSize len
  .ok { b with dataLen := len, buf := overwrite b.buf 0 (buf.take (toSize len)) }

/-- `byte_string(const byte_string &)`.
mirrors client/sml/byte_string.cpp:17-21 -/
def copy (val : ByteString) : Except Exc ByteString := do
  let b ← ofSize val.bufSize
  .ok { b with dataLen := val.dataLen, buf := overwrite b.buf 0 (val.buf.take (toSize val.dataLen)) }

/-- `operator=`; the cursor stays where it is.
mirrors client/sml/byte_string.cpp:120-125 -/
def assign (b val : ByteString) : Except Exc ByteString := do
  let b ← b.changeBufferSizeTo (toSize val.bufSize)
  .ok { b with dataLen := val.dataLen, buf := overwrite b.buf 0 (val.buf.take (toSize val.dataLen)) }

/-- The constructors that take no other `byte_string`. -/
inductive Ctor where
  | default
  | ofSize (initBufSize : Int)
  | ofStdString (val : Bytes)
  | ofBuf (buf : Bytes)
  deriving DecidableEq, Repr

def Ctor.make : Ctor → Except Exc ByteString
  | .default => .ok empty
  | .ofSize n => ByteString.ofSize n
  | .ofStdString val => ByteString.ofStdString val
  | .ofBuf buf => ByteString.ofBuf buf

/-! ## Seeking -/

/-- `whence_type`, an `enum class` over `uint8_t`.
mirrors client/sml/byte_string.h:15-19 -/
inductive Whence where
  | seekSet
  | seekCur
  | seekEnd
  | unknown (k : Fin 253)
  deriving DecidableEq, Repr

/-- What an operation returns, or throws: `self` is the object itself, `bytes` are
the count that `read` returns and what it copies. -/
inductive Result where
  | count (n : Nat)
  | bytes (n : Nat) (buf : Bytes)
  | value (val : Bytes)
  | self
  | threw (x : Exc)
  | seekOutOfRange
  deriving DecidableEq, Repr

/-- What `seek` stores in `offset_`, an `int`. -/
def seekTarget (b : ByteString) (offset : Int) : Whence → Option Int
  | .seekCur => some (toInt (b.offset + offset))
  | .seekEnd => some (toInt (b.dataLen + offset))
  | .seekSet => some (toInt offset)
  | .unknown _ => none

/-- `offset_` is stored before it is checked.
mirrors client/sml/byte_string.cpp:74-93 -/
def seek (b : ByteString) (whence : Whence) (offset : Int) : ByteString × Result :=
  match b.seekTarget offset whence with
  | none => (b, .count (toSize (-1)))
  | some o =>
    let b := { b with offset := o }
    if b.offset > b.dataLen then (b, .seekOutOfRange) else (b, .count (toSize b.offset))

/-! ## Operations on one object -/

inductive Op where
  | write (buf : Bytes)
  | read (n : Nat)
  | seek (whence : Whence) (offset : Int)
  | append (buf : Bytes)
  | put (val : Bytes)
  | get (n : Nat)
  | getRest
  deriving DecidableEq, Repr

/-- The count that `read` returns.
mirrors client/sml/byte_string.cpp:64-72 -/
def readCount (b : ByteString) (n : Nat) : Nat :=
  if n = 0 then 0 else if n ≤ b.canRead then n else b.canRead

/-- `write` throws before it has changed anything. -/
def writeOp (b : ByteString) (buf : Bytes) : ByteString × Result :=
  match b.write buf with
  | .ok (n, b) => (b, .count n)
  | .error x => (b, .threw x)

/-- mirrors client/sml/byte_string.cpp:95-98 -/
def append (b : ByteString) (buf : Bytes) : ByteString × Result :=
  match b.seek .seekEnd 0 with
  | (b, .seekOutOfRange) => (b, .seekOutOfRange)
  | (b, _) => b.writeOp buf

/-- `<<`, with the object that it leaves.
mirrors client/sml/byte_string.h:67-73, client/sml/byte_string.cpp:204-210 -/
def putOp (b : ByteString) (val : Bytes) : ByteString × Result :=
  ((b.writeOp val).1, match b.put val with | .ok _ => .self | .error x => .threw x)

/-- `>>`, with the object that it leaves: what was left to read has been read when
it throws.
mirrors client/sml/byte_string.h:75-81 -/
def getOp (b : ByteString) (n : Nat) : ByteString × Result :=
  ((b.read n).2, match b.readN n with | .ok r => .value r.1 | .error x => .threw x)

/-- The object after an operation, and its result. `getRest` is `>>` of a
`std::string`. -/
def Op.run : Op → ByteString → ByteString × Result
  | .write buf, b => b.writeOp buf
  | .read n, b => ((b.read n).2, .bytes (b.readCount n) (b.read n).1)
  | .seek whence offset, b => b.seek whence offset
  | .append buf, b => b.append buf
  | .put val, b => b.putOp val
  | .get n, b => b.getOp n
  | .getRest, b => b.getOp b.canRead

/-- `append(const byte_string &)`, and `operator+`.
mirrors client/sml/byte_string.cpp:100-102, 156-159 -/
def appendOf (b val : ByteString) : ByteString × Result :=
  b.append (val.buf.take (toSize val.dataLen))

/-! ## What is copied -/

/-- The `n` bytes from the cursor on lie in the buffer. -/
def holdsAt (b : ByteString) (n : Nat) : Bool :=
  n = 0 || (0 ≤ b.offset && b.offset + n ≤ b.bufSize)

/-- The bytes that `read` copies lie in the buffer. -/
def readInside (b : ByteString) (n : Nat) : Bool := b.holdsAt (b.readCount n)

/-- The bytes that `write` overwrites lie in the buffer, once it has grown. -/
def writeInside (b : ByteString) (buf : Bytes) : Bool :=
  buf.length = 0 ||
    match b.guranteeSpace (toSize (b.offset + buf.length)) with
    | .error _ => true
    | .ok b => b.holdsAt (if buf.length ≤ b.canWrite then buf.length else b.canWrite)

def Op.inside : Op → ByteString → Bool
  | .write buf, b => b.writeInside buf
  | .read n, b => b.readInside n
  | .seek _ _, _ => true
  | .append buf, b => (b.seek .seekEnd 0).1.writeInside buf
  | .put val, b => b.writeInside val
  | .get n, b => b.readInside n
  | .getRest, b => b.readInside b.canRead

/-! ## Appending -/

variable {b : ByteString}

theorem seek_end (h : toInt b.dataLen = b.dataLen) :
    b.seek .seekEnd 0 = ({ b with offset := b.dataLen }, .count (toSize b.dataLen)) := by
  simp only [seek, seekTarget, Int.add_zero, h]
  rw [if_neg (lt_irrefl b.dataLen)]

theorem append_eq (h : toInt b.dataLen = b.dataLen) (buf : Bytes) :
    b.append buf = { b with offset := b.dataLen }.writeOp buf := by
  rw [append, seek_end h]

theorem inside_append (h : toInt b.dataLen = b.dataLen) (buf : Bytes) :
    (Op.append buf).inside b = { b with offset := b.dataLen }.writeInside buf := by
  rw [Op.inside, seek_end h]

end ByteString
end ShadowTalk.Sml
