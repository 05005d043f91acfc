import LStore.Base.ByteCopy
import LStore.Base.Fuel
import LStore.Gop.Status
import LStore.Segment.Iovec

/-!
# Copying between segments

`lio_segment_copy_gop_func` splits the caller's buffer into two halves and writes one
block from the one half while it reads the next block into the other. The segments are
flat: a size and a byte at every offset.
-/

namespace LStore.Segment

open ByteCopy Base.Fuel Gop

/-- A flat segment, or a file; what is stored behind its size is no byte of it. -/
structure Flat where
  size : Int
  data : Int → Byte

def Flat.byteAt (f : Flat) (x : Int) : Option Byte :=
  if 0 ≤ x ∧ x < f.size then some (f.data x) else none

/-- Write `n` bytes of the memory at `b`. -/
def Flat.write (f : Flat) (pos n : Int) (mem : Int → Byte) (b : Int) : Flat :=
  { size := if 0 < n then max f.size (pos + n) else f.size
    data := copyBytes mem b f.data pos n }

/-- A truncation to a negative size only reserves space, another one cuts off what is behind
the size. -/
def Flat.truncate (f : Flat) (newSize : Int) : Flat :=
  if newSize < 0 then f else { f with size := newSize }

/-- Whether a transfer fills the caller's buffer or drains it. -/
inductive Dir where
  | fill
  | drain
deriving DecidableEq, Repr

/-- One transfer: `len` bytes at `pos` of the segment or file, at `buf` of the caller's
buffer. -/
structure Transfer where
  dir : Dir
  pos : Int
  len : Int
  buf : Int
deriving DecidableEq, Repr

/-- `lio_segment_copy_gop_t`: the numbers of a request. A copy uses both offsets, an upload
only the second and a download only the first. -/
structure SegmentCopy where
  srcOffset : Int
  destOffset : Int
  len : Int
  bufsize : Int
  truncate : Int
deriving DecidableEq, Repr

/-- `math_gcd`. -/
def mathGcd (a b : Int) : Int :=
  if _ : a = 0 then b else mathGcd (b % a) a
termination_by a.natAbs
decreasing_by
  have hpos := Int.emod_nonneg b ‹a ≠ 0›
  have hlt := Int.emod_lt_abs b ‹a ≠ 0›
  rw [Int.abs_eq_natAbs] at hlt
  omega

/-- `math_lcm`. -/
def mathLcm (a b : Int) : Int := a * b / mathGcd a b

/-- The length of the next block: a negative remainder stands for an unknown one. -/
def blockLen (nbytes bufsize : Int) : Int :=
  if nbytes < 0 then bufsize else if nbytes > bufsize then bufsize else nbytes

/-- The size of one half of the buffer: whole blocks when both offsets are zero and the
blocks of both segments fit. -/
def copyBufsize (sc : SegmentCopy) (blockSize : Int) : Int :=
  let tlen := sc.bufsize / 2
  if blockSize > tlen ∨ sc.srcOffset ≠ 0 ∨ sc.destOffset ≠ 0 then sc.bufsize / 2
  else tlen / blockSize * blockSize

/-- The variables of a transfer through the caller's buffer, with the buffer, the destination
and the transfers made so far. -/
structure CopyState where
  rbuf : Int
  wbuf : Int
  rpos : Int
  wpos : Int
  rlen : Int
  wlen : Int
  nbytes : Int
  turn : Nat
  mem : Int → Byte
  dest : Flat
  log : List Transfer

namespace CopyState

/-- Swap the buffers: what was read is written next. -/
def swap (s : CopyState) : CopyState :=
  { s with rbuf := s.wbuf, wbuf := s.rbuf, rlen := s.wlen, wlen := s.rlen }

/-- Read `n` bytes of the source into the read buffer. -/
def fill (src : Flat) (pos n : Int) (s : CopyState) : CopyState :=
  { s with
    mem := copyBytes src.data pos s.mem s.rbuf n
    log := s.log ++ [⟨.fill, pos, n, s.rbuf⟩] }

/-- Write `n` bytes of the write buffer to the destination. -/
def drain (n : Int) (s : CopyState) : CopyState :=
  { s with
    dest := s.dest.write s.wpos n s.mem s.wbuf
    wpos := s.wpos + n
    log := s.log ++ [⟨.drain, s.wpos, n, s.wbuf⟩] }

/-- A read and a write that are under way together, in the order in which they take effect. -/
def both (writeFirst : Bool) (src : Flat) (pos n m : Int) (s : CopyState) : CopyState :=
  if writeFirst then (s.drain m).fill src pos n else (s.fill src pos n).drain m

end CopyState

/-- What the rest of the program decides: the result of each wait, and which operation of a
turn takes effect first. -/
structure CopyEnv where
  ok : Nat → Bool
  writeFirst : Nat → Bool

/-- The end of a copy. -/
structure CopyResult where
  status : OpStatus
  dest : Flat
  log : List Transfer

variable (env : CopyEnv) (src : Flat)

/-- One turn of the loop: the block that was read is written while the next one is read. -/
def copyTurn (bufsize : Int) (s : CopyState) : Except Fault (CopyState ⊕ (Bool × CopyState)) :=
  let s := s.swap
  let rlen := blockLen s.nbytes bufsize
  let s₁ : CopyState :=
    if 0 < rlen then
      { s.both (env.writeFirst s.turn) src s.rpos rlen s.wlen with
        rpos := s.rpos + rlen, nbytes := s.nbytes - rlen }
    else s.drain s.wlen
  let s₂ : CopyState := { s₁ with rlen, turn := s.turn + 1 }
  if env.ok (s.turn + 1) = false then .ok (.inr (false, s₂))
  else if 0 < rlen then .ok (.inl s₂)
  else .ok (.inr (true, s₂))

/-- The variables after the initial read. -/
def copyStart (sc : SegmentCopy) (bufsize : Int) (mem : Int → Byte) (dest : Flat) : CopyState :=
  let left := src.size - sc.srcOffset
  -- the first length is taken before the caller's limit is
  let rlen := blockLen left bufsize
  let nbytes := if sc.len ≠ -1 ∧ sc.len < left then sc.len else left
  let s : CopyState :=
    { rbuf := 0, wbuf := bufsize
      rpos := sc.srcOffset + rlen, wpos := sc.destOffset
      rlen, wlen := 0, nbytes := nbytes - rlen, turn := 0, mem
      dest := dest.truncate (-(sc.destOffset + nbytes)), log := [] }
  s.fill src sc.srcOffset rlen

/-- `lio_segment_copy_gop_func`. -/
def lioSegmentCopyGopFunc (sc : SegmentCopy) (srcBlock destBlock : Int) (dest : Flat)
    (mem : Int → Byte) (fuel : Nat) : Except Fault CopyResult := do
  let bufsize := copyBufsize sc (mathLcm srcBlock destBlock)
  let s := copyStart src sc bufsize mem dest
  if env.ok 0 = false then return ⟨gopFailureStatus, s.dest, s.log⟩
  let (ok, s) ← loop (copyTurn env src bufsize) fuel s
  if ok = false then return ⟨gopFailureStatus, s.dest, s.log⟩
  let dest := if sc.truncate = 1 then s.dest.truncate s.wpos else s.dest
  return ⟨{ gopSuccessStatus with errorCode := s.rpos }, dest, s.log⟩

end LStore.Segment
