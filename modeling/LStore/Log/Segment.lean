import LStore.Base.ByteCopy
import LStore.Log.Mapping
import Mathlib.Algebra.Order.Ring.Int

/-!
# Log segments

A log segment of `src/lio/segment/log.c` stacks a log over a base segment. The
table segment holds the records of the log in order, the data segment their
bytes, and the mapping says which offsets are read from the data segment.

## Implementation notes

The child segments are byte stores whose operations succeed. The table segment
is the list of its records; `sizeofSlogRange` is the size of one record, three
64-bit fields. Operations return `none` when a loop of the mapping does not end.
-/

namespace LStore.Log

open ByteCopy

abbrev Byte := UInt8

/-- A vector entry of a request. -/
structure ExIovec where
  offset : Nat
  len : Nat
deriving DecidableEq, Repr

/-- The bytes a vector moves. -/
def nbytes (iov : List ExIovec) : Nat := (iov.map ExIovec.len).sum

/-- A child segment: its bytes and the size it reports. -/
structure Child where
  bytes : Int → Byte
  size : Int

/-- `segment_write` of one vector entry on a child. -/
def Child.write (c : Child) (offset len : Int) (buffer : Int → Byte) (bpos : Int) : Child where
  bytes := copyBytes buffer bpos c.bytes offset len
  size := max c.size (offset + len)

/-- `lio_segment_truncate` of a child to nothing. -/
def Child.empty : Child where
  bytes := fun _ => 0
  size := 0

def sizeofSlogRange : Int := 24

/-- The private state of a log segment together with its children. -/
structure Seglog where
  mapping : Mapping
  fileSize : Int
  logSize : Int
  dataSize : Int
  tableSeg : List SlogRange
  dataSeg : Child
  baseSeg : Child

/-- Store records in the table at a byte offset. -/
def writeTable (table : List SlogRange) (offset : Int) (records : List SlogRange) :
    List SlogRange :=
  let i := (offset / sizeofSlogRange).toNat
  table.take i ++ records ++ table.drop (i + records.length)

/-- `slog_make`: a log over `base` with the given empty table and data. -/
def slogMake (data base : Child) : Seglog where
  mapping := []
  fileSize := base.size
  logSize := 0
  dataSize := 0
  tableSeg := []
  dataSeg := data
  baseSeg := base

/-- `_slog_truncate_range`. -/
def slogTruncateRange (s : Seglog) (r : SlogRange) : Option Seglog :=
  (truncateMapping r.hi s.fileSize s.mapping).map fun m =>
    { s with mapping := m, fileSize := r.hi + 1 }

/-- `_slog_insert_range`. A range with `lo = -1` is a truncate record. -/
def slogInsertRange (s : Seglog) (r : SlogRange) : Option Seglog :=
  if r.lo = -1 then
    slogTruncateRange s r
  else
    (insertMapping r s.mapping).map fun m =>
      { s with mapping := m, fileSize := if s.fileSize ≤ r.hi then r.hi + 1 else s.fileSize }

/-- The range of a table record: the stored length becomes the last offset. -/
def recordRange (r : SlogRange) : SlogRange := { r with hi := r.lo + r.hi - 1 }

/-- The table records of a write whose data starts at `dataOffset`. -/
def writeRecords : Int → List ExIovec → List SlogRange
  | _, [] => []
  | dataOffset, v :: rest =>
    { lo := v.offset, hi := v.len, dataOffset := dataOffset } ::
      writeRecords (dataOffset + v.len) rest

/-- First critical section of `seglog_write_func`: reserve table and data space. -/
def reserveWrite (s : Seglog) (iov : List ExIovec) : Seglog :=
  { s with
    logSize := s.logSize + iov.length * sizeofSlogRange
    dataSize := s.dataSize + nbytes iov }

/-- The data and table writes between the two critical sections. -/
def storeWrite (s : Seglog) (tableOffset dataOffset : Int) (iov : List ExIovec)
    (buffer : Int → Byte) (boff : Int) : Seglog :=
  { s with
    dataSeg := s.dataSeg.write dataOffset (nbytes iov) buffer boff
    tableSeg := writeTable s.tableSeg tableOffset (writeRecords dataOffset iov) }

/-- Second critical section of `seglog_write_func`: update the mapping. -/
def completeWrite (s : Seglog) (records : List SlogRange) : Option Seglog :=
  records.foldlM (fun s r => slogInsertRange s (recordRange r)) s

/-- `seglog_write_func`, all child operations succeeding. -/
def seglogWriteFunc (s : Seglog) (iov : List ExIovec) (buffer : Int → Byte) (boff : Int) :
    Option Seglog :=
  completeWrite (storeWrite (reserveWrite s iov) s.logSize s.dataSize iov buffer boff)
    (writeRecords s.dataSize iov)

/-- `seglog_truncate_func`, all child operations succeeding. The test before the
last insertion is the source's, comment and condition disagreeing there. -/
def seglogTruncateFunc (s : Seglog) (newSize : Int) : Option Seglog :=
  if newSize < s.fileSize then
    let r : SlogRange := { lo := -1, hi := newSize - 1, dataOffset := -1 }
    let s := { s with
      tableSeg := writeTable s.tableSeg s.logSize [r]
      logSize := s.logSize + sizeofSlogRange }
    -- "Grow op so tweak the r", reached by the shrink
    slogInsertRange s { r with hi := r.lo + r.hi - 1 }
  else if s.fileSize < newSize then
    let r : SlogRange :=
      { lo := s.fileSize - 1, hi := newSize - s.fileSize, dataOffset := s.dataSize }
    let s := { s with
      tableSeg := writeTable s.tableSeg s.logSize [r]
      dataSeg := s.dataSeg.write (s.dataSize + r.hi - 1) 1 (fun _ => 0) 0
      logSize := s.logSize + sizeofSlogRange
      dataSize := s.dataSize + (newSize - s.fileSize) }
    slogInsertRange s r
  else
    some s

/-- `seglog_size`. -/
def seglogSize (s : Seglog) : Int := s.fileSize

/-- Progress of `_slog_load` through the table. -/
structure LoadState where
  seg : Seglog
  lastBad : Bool
  errCount : Nat

/-- Records `_slog_load` takes for failed writes. -/
def blankRecord (r : SlogRange) : Prop :=
  (r.lo = 0 ∧ r.hi = 0 ∧ r.dataOffset = 0) ∨ (r.hi = 0 ∧ r.lo ≠ -1)

instance (r : SlogRange) : Decidable (blankRecord r) :=
  inferInstanceAs (Decidable (_ ∨ _))

/-- One record of the load loop. -/
def loadRecord (st : LoadState) (r : SlogRange) : Option LoadState :=
  if blankRecord r then
    some { st with lastBad := true, errCount := st.errCount + 1 }
  else
    (slogInsertRange st.seg (recordRange r)).map fun s =>
      { st with seg := s, lastBad := false }

/-- `_slog_load` on a new segment with the given children: the segment and the
returned status. -/
def slogLoad (table : List SlogRange) (data base : Child) : Option (Seglog × Int) :=
  let s : Seglog :=
    { mapping := []
      fileSize := base.size
      logSize := table.length * sizeofSlogRange
      dataSize := data.size
      tableSeg := table
      dataSeg := data
      baseSeg := base }
  (table.foldlM loadRecord { seg := s, lastBad := false, errCount := 0 }).map fun st =>
    (st.seg, if st.errCount = 0 ∨ (st.errCount = 1 ∧ st.lastBad) then 0 else 1)

/-- The child a read operation goes to. -/
inductive Source where
  | base
  | data
deriving DecidableEq, Repr

/-- A child read: where from, how much, and where in the buffer. -/
structure ReadOp where
  source : Source
  offset : Int
  len : Int
  bpos : Int
deriving DecidableEq, Repr

/-- The variables of the task loop of `seglog_read_func`. -/
structure ReadCursor where
  pos : Int
  bpos : Int
  prevEnd : Int
  ops : List ReadOp

/-- Queue a read and step over it. -/
def ReadCursor.push (c : ReadCursor) (source : Source) (offset len : Int) : ReadCursor where
  pos := c.pos + len
  bpos := c.bpos + len
  prevEnd := c.prevEnd
  ops := c.ops ++ [{ source := source, offset := offset, len := len, bpos := c.bpos }]

/-- `prev_end` on the first range of an entry. -/
def firstPrevEnd (lo : Int) (c : ReadCursor) (ir : SlogRange) : ReadCursor :=
  if c.prevEnd = -1 then
    { c with prevEnd := if lo < ir.lo then lo else ir.lo - 1 }
  else
    c

/-- A hole before the range is read from the base. -/
def readHole (c : ReadCursor) (ir : SlogRange) : ReadCursor :=
  if c.prevEnd ≠ ir.lo - 1 then c.push .base c.pos (ir.lo - c.pos) else c

/-- The part of the range inside the entry is read from the data segment. -/
def readLogged (lo hi : Int) (c : ReadCursor) (ir : SlogRange) : ReadCursor :=
  if ir.lo < lo then
    if hi < ir.hi then
      c.push .data (ir.dataOffset + (lo - ir.lo)) (hi - c.pos + 1)
    else
      c.push .data (ir.dataOffset + (lo - ir.lo)) (ir.hi - c.pos + 1)
  else if ir.hi ≤ hi then
    c.push .data ir.dataOffset (ir.hi - c.pos + 1)
  else
    c.push .data ir.dataOffset (hi - c.pos + 1)

/-- One pass of the range loop. -/
def readRange (lo hi : Int) (c : ReadCursor) (ir : SlogRange) : ReadCursor :=
  { readLogged lo hi (readHole (firstPrevEnd lo c ir) ir) ir with prevEnd := ir.hi }

/-- What follows the range loop: the whole entry, or its end, from the base. -/
def readRest (lo hi : Int) (c : ReadCursor) : ReadCursor :=
  if c.prevEnd = -1 then
    c.push .base lo (hi - lo + 1)
  else if c.prevEnd < hi then
    c.push .base c.pos (hi - (c.prevEnd + 1) + 1)
  else
    c

/-- The tasks of one vector entry, and the buffer position after it. -/
def readEntry (m : Mapping) (bpos : Int) (v : ExIovec) : List ReadOp × Int :=
  let lo : Int := v.offset
  let hi : Int := lo + v.len - 1
  let c := (tbxIslSearch lo hi m).foldl (readRange lo hi)
    { pos := lo, bpos := bpos, prevEnd := -1, ops := [] }
  ((readRest lo hi c).ops, (readRest lo hi c).bpos)

/-- The task list of `seglog_read_func`. -/
def readTasks (m : Mapping) : Int → List ExIovec → List ReadOp
  | _, [] => []
  | bpos, v :: rest => (readEntry m bpos v).1 ++ readTasks m (readEntry m bpos v).2 rest

/-- The copy a read operation performs. -/
def ReadOp.toCopy (s : Seglog) (op : ReadOp) : Copy Byte where
  src := match op.source with
    | .base => s.baseSeg.bytes
    | .data => s.dataSeg.bytes
  start := op.offset
  dest := op.bpos
  len := op.len

/-- `seglog_read_func`: the buffer after the queued tasks ran. -/
def seglogReadFunc (s : Seglog) (iov : List ExIovec) (boff : Int) (buffer : Int → Byte) :
    Int → Byte :=
  runCopies ((readTasks s.mapping boff iov).map (ReadOp.toCopy s)) buffer

/-- The byte a one-byte read returns. -/
def readByte (s : Seglog) (o : Nat) : Byte :=
  seglogReadFunc s [{ offset := o, len := 1 }] 0 (fun _ => 0) 0

end LStore.Log
