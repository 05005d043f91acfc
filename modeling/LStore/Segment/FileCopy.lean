import LStore.Segment.Copy

/-!
# Upload and download

`segment_put_gop_func` stores a file in a segment and `segment_get_gop_func` writes a part of
a segment to a file. Both move blocks through the two halves of the caller's buffer as a copy
does. The first block is longer, so that the others start on a block boundary of the segment.
-/

namespace LStore.Segment

open Base.Fuel Gop

/-- The lengths of a transfer: one half of the buffer, the first block and the others. -/
structure BlockPlan where
  bufsize : Int
  initialLen : Int
  baseLen : Int
deriving DecidableEq, Repr

def blockPlan (bufsize offset blockSize : Int) : BlockPlan :=
  let tlen := bufsize / 2 / blockSize - 1
  let pplen := blockSize - offset % blockSize
  if tlen ≤ 0 then ⟨bufsize / 2, bufsize / 2, bufsize / 2⟩
  else ⟨tlen * blockSize + blockSize, tlen * blockSize + pplen, tlen * blockSize⟩

/-- The variables of a transfer with a file: the position of the file, and whether a read or
a write of data failed. -/
structure FileState extends CopyState where
  fpos : Int
  failed : Bool

/-- The end of an upload or download. -/
structure FileResult where
  status : OpStatus
  dest : Flat
  log : List Transfer
  failed : Bool

def FileState.result (s : FileState) (status : OpStatus) : FileResult :=
  ⟨status, s.dest, s.log, s.failed⟩

/-- What a download meets: the results of the segment reads, of the file writes (a write that
fails reports a count), and the order in which a read and a write take effect. -/
structure GetEnv where
  readOk : Nat → Bool
  written : Nat → Option Int
  writeFirst : Nat → Bool

/-- The value of `tbx_dio_write`: all bytes, or fewer. -/
def dioWritten (outcome : Option Int) (nbytes : Int) : Int :=
  match outcome with
  | none => nbytes
  | some got => min got (nbytes - 1)

variable (env : GetEnv) (src : Flat)

/-- One turn of the loop: the next block is read while the last one goes to the file. -/
def getTurn (baseLen : Int) (s : FileState) : Except Fault (FileState ⊕ FileResult) :=
  let c := s.toCopyState.swap
  let rlen := blockLen c.nbytes baseLen
  let got := dioWritten (env.written c.turn) c.wlen
  let c₁ : CopyState :=
    if 0 < rlen then
      { c.both (env.writeFirst c.turn) src c.rpos rlen got with
        rpos := c.rpos + rlen, nbytes := c.nbytes - rlen }
    else c.drain got
  let shortWrite := c.wlen ≠ got
  let badRead := 0 < rlen ∧ env.readOk (c.turn + 1) = false
  let s₁ : FileState :=
    { c₁ with
      rlen, turn := c.turn + 1, fpos := s.fpos + got
      failed := s.failed || decide shortWrite || decide badRead }
  if shortWrite then
    -- the operation waited for and freed here is the read of this turn; without one it was
    -- freed before
    if 0 < rlen then .ok (.inr (s₁.result gopFailureStatus)) else .error .overrun
  else if badRead then .ok (.inr (s₁.result gopFailureStatus))
  else if 0 < rlen then .ok (.inl s₁)
  else .ok (.inr (s₁.result gopSuccessStatus))

/-- The variables after the initial read. -/
def getStart (sc : SegmentCopy) (plan : BlockPlan) (mem : Int → Byte) (file : Flat) : FileState :=
  let left := src.size - sc.srcOffset
  let nbytes := if 0 < sc.len ∧ left > sc.len then sc.len else left
  let rlen := blockLen nbytes plan.initialLen
  let c : CopyState :=
    { rbuf := 0, wbuf := plan.bufsize
      rpos := sc.srcOffset + rlen, wpos := 0
      rlen, wlen := 0, nbytes := nbytes - rlen, turn := 0, mem, dest := file, log := [] }
  { c.fill src sc.srcOffset rlen with fpos := 0, failed := !env.readOk 0 }

/-- `segment_get_gop_func`. The file is seen from the position of the descriptor on. -/
def segmentGetGopFunc (sc : SegmentCopy) (blockSize : Int) (file : Flat) (mem : Int → Byte)
    (fuel : Nat) : Except Fault FileResult :=
  let plan := blockPlan sc.bufsize sc.srcOffset blockSize
  let s := getStart env src sc plan mem file
  if env.readOk 0 = false then .ok (s.result gopFailureStatus)
  else loop (getTurn env src plan.baseLen) fuel s

/-- What an upload meets: the results of the file reads and of the segment writes, and the
order in which a read and a write take effect. -/
structure PutEnv where
  readOk : Nat → Bool
  writeOk : Nat → Bool
  writeFirst : Nat → Bool

variable (env : PutEnv) (file : Flat)

/-- The value of `tbx_dio_read` when it does not fail: fewer bytes than asked only at the end
of the file. -/
def dioRead (fpos nbytes : Int) : Int := min nbytes (file.size - fpos)

/-- One turn of the loop: the last block goes to the segment while the next one is read. -/
def putTurn (baseLen : Int) (s : FileState) : Except Fault (FileState ⊕ (OpStatus × FileState)) :=
  let c := s.toCopyState.swap
  let asked := blockLen c.nbytes baseLen
  if 0 < asked ∧ env.readOk (c.turn + 1) = false then
    .ok (.inr (gopFailureStatus, { c.drain c.wlen with fpos := s.fpos, failed := true }))
  else
    let got := dioRead file s.fpos asked
    let s₁ : FileState :=
      if 0 < asked then
        { c.both (env.writeFirst c.turn) file s.fpos got c.wlen with
          rpos := c.rpos + got, nbytes := if c.nbytes > 0 then c.nbytes - got else c.nbytes
          rlen := got, fpos := s.fpos + got
          turn := c.turn + 1, failed := s.failed || !env.writeOk c.turn }
      else
        { c.drain c.wlen with
          rlen := asked, fpos := s.fpos
          turn := c.turn + 1, failed := s.failed || !env.writeOk c.turn }
    if env.writeOk c.turn = false then .ok (.inr (gopFailureStatus, s₁))
    else if 0 < s₁.rlen ∧ s₁.nbytes ≠ 0 then .ok (.inl s₁)
    else .ok (.inr (gopSuccessStatus, s₁))

/-- The variables after the initial read. -/
def putStart (sc : SegmentCopy) (plan : BlockPlan) (mem : Int → Byte) (dest : Flat) : FileState :=
  let asked := blockLen sc.len plan.initialLen
  let got := dioRead file 0 asked
  let c : CopyState :=
    { rbuf := 0, wbuf := plan.bufsize
      rpos := asked, wpos := sc.destOffset
      rlen := got, wlen := 0, turn := 0, mem
      nbytes := if sc.len > 0 then sc.len - asked else sc.len
      dest := if 0 < sc.len ∧ sc.truncate = 1 then dest.truncate (-(sc.destOffset + sc.len)) else dest
      log := [] }
  { c.fill file 0 got with fpos := got, failed := !env.readOk 0 }

/-- `segment_put_gop_func`. The file is seen from the position of the descriptor on. -/
def segmentPutGopFunc (sc : SegmentCopy) (blockSize : Int) (dest : Flat) (mem : Int → Byte)
    (fuel : Nat) : Except Fault FileResult := do
  let plan := blockPlan sc.bufsize sc.destOffset blockSize
  let s := putStart env file sc plan mem dest
  if env.readOk 0 = false then return s.result gopFailureStatus
  let (status, s) ← loop (putTurn env file plan.baseLen) fuel s
  if status.opStatus = .success ∧ sc.truncate = 1 then
    return { s.result status with dest := s.dest.truncate s.wpos }
  return s.result status

end LStore.Segment
