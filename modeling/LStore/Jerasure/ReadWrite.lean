import LStore.Jerasure.Stripe
import LStore.Toolbox.TransferBuffer

/-!
# Vectored reads and writes of an erasure segment

`segjerase_read_func` and `segjerase_write_func` turn each range of a request into one
operation on the child segment. The pieces of memory behind an operation are entries of
arrays (`iov`, `magic`, `parity`) that are filled from the start again whenever the parity
buffer is full and the operations under way have finished. A stripe that does not lie in
one piece of the caller's buffer goes through a buffer of its own.

## Implementation notes

Memory is addressed by region and offset (`Loc`). An `IoEntry` is the magic and the chunk
of one device, two consecutive elements of `iov`; the list `iov` holds the elements below
`n_iov`, the list `straddleOffset` those up to `straddle_used`. The child segment is an
array of cells, `n_devs` a stripe. An operation on it takes effect when it is waited for;
`Schedule` is the order in which operations finish. Copies to and from a straddle buffer are
given by position; `tbxTbufCopy_copyIn` and `tbxTbufCopy_copyBack` say that these are the ones
`tbx_tbuf_copy` makes. Error counters and hints are left out.
Counts of stripes and the lengths computed from them are kept in an `int`; an operation whose
length has wrapped around moves the whole cells in it.
-/

namespace LStore.Jerasure

open Segment (Byte ExIovec)
open Toolbox (Tbuf TbufVar tbNextBlock addresses)
open ByteSpan MachineInt

/-- A position in memory: the caller's buffers, a straddle buffer or the parity buffer. -/
inductive Loc
  | user (a : Int)
  | straddle (buf i : Nat)
  | parity (i : Nat)
deriving DecidableEq

/-- Pointer arithmetic inside a region. -/
def Loc.add : Loc → Nat → Loc
  | .user a, i => .user (a + i)
  | .straddle b j, i => .straddle b (j + i)
  | .parity j, i => .parity (j + i)

abbrev Mem := Loc → Byte

variable {n m cs : Nat}

/-- The chunk at a pointer. -/
def chunkAt (mem : Mem) (p : Loc) : Chunk cs := fun i => mem (p.add i)

/-- The single writes that put a chunk at a pointer. -/
def chunkWrites (p : Loc) (c : Chunk cs) : List (Loc × Byte) :=
  (List.finRange cs).map fun i => (p.add i.val, c i)

instance : Inhabited Loc := ⟨.parity 0⟩

/-- The magic and the chunk of one device in `iov`. -/
structure IoEntry where
  magic : Nat
  base : Loc
deriving DecidableEq, Inhabited

/-- `segjerase_rw_t`. -/
structure RwReq where
  iov : List ExIovec
  boff : Nat
  buffer : Tbuf

/-- The order in which the operations under way finish. -/
structure Schedule where
  order : List Nat → List Nat
  perm : ∀ slots, (order slots).Perm slots

/-- The stripes of a range. -/
def nstripes (n cs : Nat) (v : ExIovec) : Nat := (i32 (v.len / ((n * cs : Nat) : Int))).toNat

/-- The first stripe of a range. -/
def firstStripe (n cs : Nat) (v : ExIovec) : Nat := (v.offset / ((n * cs : Nat) : Int)).toNat

/-- `stripe_size_with_magic`. -/
def stripeSizeWithMagic (n m cs : Nat) : Nat := (n + m) * (cs + 4)

/-- The cells of the child's operation on some stripes. -/
def childCells (n m cs count : Nat) : Nat :=
  (i32 (count * stripeSizeWithMagic n m cs : Nat) / ((cs + 4 : Nat) : Int)).toNat

/-- The bytes of parity of some stripes. -/
def parityBytes (m cs count : Nat) : Int := i32 (count * (m * cs) : Nat)

/-- `parity_len`. -/
def parityLen (s : Segjerase n m cs) (iov : List ExIovec) : Int :=
  let all := parityBytes m cs (iov.map (nstripes n cs)).sum
  if s.maxParity < all then
    iov.foldl (fun len v => max len (parityBytes m cs (nstripes n cs v))) s.maxParity
  else all

/-- The pointer to the data of a stripe in one piece of the buffer. -/
def quickBase (size : Nat) (tbv : TbufVar) : Option Loc :=
  match tbv.buffer with
  | [v] => if tbv.nbytes < size then none else some (.user v.iovBase)
  | _ => none

/-- The call of `tbx_tbuf_next` for the stripe at `boff`. -/
def nextStripe (size : Nat) (buffer : Tbuf) (boff : Nat) (tbv : TbufVar) : TbufVar :=
  (tbNextBlock buffer boff { tbv with nbytes := size }).getD { tbv with nbytes := size }

/-- The memory behind position `i` of the caller's buffer. -/
def bufferLoc (buffer : Tbuf) (i : Nat) : Loc := .user ((addresses buffer.iov).getD i 0)

/-- The chunk of each device: the data at `base`, the parity at byte `parity` of its buffer. -/
def stripeBases (n m cs : Nat) (base : Loc) (parity : Nat) (k : Fin (n + m)) : Loc :=
  if k.val < n then base.add (k.val * cs) else .parity (parity + (k.val - n) * cs)

/-- `segjerase_io_t`, with the first cell of the operation. -/
structure ReadInfo where
  offset : Nat
  iovStart : Nat
  nstripes : Nat
  cells : Nat
  straddleStart : Nat
  straddleCount : Nat

/-- The variables of a read. -/
structure ReadState (n m : Nat) where
  iov : List IoEntry
  currStripe : Nat
  parityUsed : Int
  currBytes : Nat
  tbv : TbufVar
  straddleOffset : List Nat
  info : List ReadInfo
  queue : List Nat
  mem : Mem
  magic : Nat → Magic
  ok : Bool
  brute : Option (Finset (Fin (n + m)))

/-- What the child segment replies: the cells, with those of failed devices blank, and the
number of failed devices. -/
structure ChildRead (cs : Nat) where
  cell : Nat → Cell cs
  errorCode : Nat

/-- Prepare one stripe of the buffer at `boff`. -/
def addReadStripe (n m cs : Nat) (buffer : Tbuf) (boff : Nat) (st : ReadState n m) :
    ReadState n m :=
  let tbv := nextStripe (n * cs) buffer boff st.tbv
  let quick := quickBase (n * cs) tbv
  let base := quick.getD (.straddle st.straddleOffset.length 0)
  { st with
    tbv := tbv
    straddleOffset := if quick.isSome then st.straddleOffset else st.straddleOffset ++ [boff]
    iov := st.iov ++ (List.finRange (n + m)).map fun k =>
      ⟨st.currStripe * (n + m) + k.val, stripeBases n m cs base (st.currStripe * (m * cs)) k⟩
    currStripe := st.currStripe + 1 }

def addReadStripes (n m cs : Nat) (buffer : Tbuf) : Nat → Nat → ReadState n m → ReadState n m
  | 0, _, st => st
  | count + 1, boff, st =>
    addReadStripes n m cs buffer count (boff + n * cs) (addReadStripe n m cs buffer boff st)

/-- Construct the operation for a range and submit it. -/
def addRead (n m cs : Nat) (q : RwReq) (v : ExIovec) (st : ReadState n m) : ReadState n m :=
  let st' := addReadStripes n m cs q.buffer (nstripes n cs v) (q.boff + st.currBytes) st
  let start := (st.info.getLast?.map fun i => i.straddleStart + i.straddleCount).getD 0
  { st' with
    info := st.info ++ [⟨firstStripe n cs v * (n + m), st.iov.length, nstripes n cs v,
      childCells n m cs (nstripes n cs v), start,
      st'.straddleOffset.length - st.straddleOffset.length⟩]
    queue := st.queue ++ [st.info.length]
    currBytes := st.currBytes + v.len.toNat
    parityUsed := st.parityUsed + parityBytes m cs (nstripes n cs v) }

/-- The child's read of a slot: a magic and a chunk for every entry. -/
def childRead (child : ChildRead cs) (offset : Nat) (entries : List IoEntry)
    (st : ReadState n m) : ReadState n m :=
  let cells := entries.zipIdx.map fun e => (e.1, child.cell (offset + e.2))
  { st with
    magic := writeAll (cells.map fun e => (e.1.magic, e.2.magic)) st.magic
    mem := writeAll (cells.flatMap fun e => chunkWrites e.1.base e.2.chunk) st.mem }

/-- The stripe whose entries start at `start`. -/
def checkStripe (s : Segjerase n m cs) (errorCode start : Nat) (st : ReadState n m) :
    ReadState n m :=
  let entry : Fin (n + m) → IoEntry := fun k => st.iov.getD (start + k.val) default
  let r := readStripe s errorCode st.brute fun k =>
    ⟨st.magic (entry k).magic, chunkAt st.mem (entry k).base⟩
  { st with
    mem := writeAll
      ((List.finRange (n + m)).flatMap fun k => chunkWrites (entry k).base (r.word k)) st.mem
    ok := st.ok && r.ok
    brute := r.brute }

def checkStripes (s : Segjerase n m cs) (errorCode : Nat) :
    Nat → Nat → ReadState n m → ReadState n m
  | 0, _, st => st
  | count + 1, start, st =>
    checkStripes s errorCode count (start + (n + m)) (checkStripe s errorCode start st)

/-- `tbx_tbuf_copy` of straddle buffer `b` to position `pos` of the caller's buffer. -/
def copyBack (buffer : Tbuf) (size b pos : Nat) (mem : Mem) : Mem :=
  writeAll ((List.range size).map fun i => (bufferLoc buffer (pos + i), mem (.straddle b i))) mem

/-- Copy the straddled stripes of a slot back. -/
def copyStraddles (buffer : Tbuf) (size start count : Nat) (offsets : List Nat) (mem : Mem) : Mem :=
  (List.range count).foldl
    (fun mem k => copyBack buffer size (start + k) (offsets.getD (start + k) 0) mem) mem

/-- A finished operation. -/
def finishRead (s : Segjerase n m cs) (child : ChildRead cs) (buffer : Tbuf)
    (st : ReadState n m) (slot : Nat) : ReadState n m :=
  match st.info[slot]? with
  | none => st
  | some i =>
    let entries := (st.iov.drop i.iovStart).take i.cells
    let st' := checkStripes s child.errorCode i.nstripes i.iovStart
      (childRead child i.offset entries st)
    { st' with
      mem := copyStraddles buffer (n * cs) i.straddleStart i.straddleCount st'.straddleOffset
        st'.mem }

/-- Wait for the operations under way and start over with the arrays. -/
def flushReads (s : Segjerase n m cs) (child : ChildRead cs) (sch : Schedule) (buffer : Tbuf)
    (st : ReadState n m) : ReadState n m :=
  { (sch.order st.queue).foldl (finishRead s child buffer) st with
    parityUsed := 0
    currStripe := 0
    iov := []
    queue := [] }

/-- The loop over the ranges. -/
def readLoop (s : Segjerase n m cs) (child : ChildRead cs) (sch : Schedule) (q : RwReq)
    (parityLen : Int) : List ExIovec → ReadState n m → ReadState n m
  | [], st => flushReads s child sch q.buffer st
  | v :: vs, st =>
    let st := if parityLen < parityBytes m cs (nstripes n cs v) + st.parityUsed then
      flushReads s child sch q.buffer st else st
    readLoop s child sch q parityLen vs (addRead n m cs q v st)

/-- One pass from `tryagain`. -/
def readAttempt (s : Segjerase n m cs) (child : ChildRead cs) (sch : Schedule) (q : RwReq)
    (mem : Mem) (magic : Nat → Magic) : ReadState n m :=
  readLoop s child sch q (parityLen s q.iov) q.iov
    ⟨[], 0, 0, 0, TbufVar.init, [], [], [], mem, magic, true, none⟩

/-- `segjerase_read_func`; the child may reply differently without the blacklist. -/
def segjeraseReadFunc (s : Segjerase n m cs) (child : Nat → ChildRead cs) (sch : Schedule)
    (q : RwReq) (mem : Mem) (magic : Nat → Magic) : Bool × Mem :=
  let st := readAttempt s (child 0) sch q mem magic
  if !st.ok && s.blacklist then
    let st' := readAttempt s (child 1) sch q st.mem st.magic
    (st'.ok, st'.mem)
  else (st.ok, st.mem)

/-- The operation submitted for a range. -/
structure WriteInfo where
  offset : Nat
  iovStart : Nat
  nstripes : Nat
  cells : Nat

/-- The variables of a write, with the cells of the child segment. -/
structure WriteState (n m cs : Nat) where
  iov : List IoEntry
  currStripe : Nat
  parityUsed : Nat
  currBytes : Nat
  tbv : TbufVar
  straddleUsed : Nat
  info : List WriteInfo
  queue : List Nat
  mem : Mem
  magic : Nat → Magic
  store : Nat → Cell cs
  softError : Bool
  hardError : Bool

/-- `tbx_tbuf_copy` of a stripe of the caller's buffer to straddle buffer `b`. -/
def copyIn (buffer : Tbuf) (size b pos : Nat) (mem : Mem) : Mem :=
  writeAll ((List.range size).map fun i => (.straddle b i, mem (bufferLoc buffer (pos + i)))) mem

/-- Encode one stripe of the buffer at `boff`. -/
def addWriteStripe (s : Segjerase n m cs) (buffer : Tbuf) (boff : Nat)
    (st : WriteState n m cs) : WriteState n m cs :=
  let tbv := nextStripe (n * cs) buffer boff st.tbv
  let quick := quickBase (n * cs) tbv
  let base := quick.getD (.straddle st.straddleUsed 0)
  let mem := if quick.isSome then st.mem else copyIn buffer (n * cs) st.straddleUsed boff st.mem
  let ptr := stripeBases n m cs base st.parityUsed
  -- `encode_block` fills the parity chunks
  let word := s.plan.encode fun i => chunkAt mem (ptr (Fin.castAdd m i))
  let mem := writeAll ((List.finRange m).flatMap fun j =>
    chunkWrites (ptr (Fin.natAdd n j)) (word (Fin.natAdd n j))) mem
  { st with
    tbv := tbv
    straddleUsed := if quick.isSome then st.straddleUsed else st.straddleUsed + 1
    iov := st.iov ++ (List.finRange (n + m)).map fun k => ⟨st.currStripe, ptr k⟩
    magic := Function.update st.magic st.currStripe
      (jeCksumCalc fun k : Fin (n + m) => (chunkAt mem (ptr k) : Chunk cs))
    mem := mem
    parityUsed := st.parityUsed + m * cs
    currStripe := st.currStripe + 1 }

def addWriteStripes (s : Segjerase n m cs) (buffer : Tbuf) :
    Nat → Nat → WriteState n m cs → WriteState n m cs
  | 0, _, st => st
  | count + 1, boff, st =>
    addWriteStripes s buffer count (boff + n * cs) (addWriteStripe s buffer boff st)

/-- Construct the operation for a range and submit it. -/
def addWrite (s : Segjerase n m cs) (q : RwReq) (v : ExIovec) (st : WriteState n m cs) :
    WriteState n m cs :=
  let st' := addWriteStripes s q.buffer (nstripes n cs v) (q.boff + st.currBytes) st
  { st' with
    info := st.info ++ [⟨firstStripe n cs v * (n + m), st.iov.length, nstripes n cs v,
      childCells n m cs (nstripes n cs v)⟩]
    queue := st.queue ++ [st.info.length]
    currBytes := st.currBytes + v.len.toNat }

/-- The child's write of entries: the devices that do not fail take their magic and chunk. -/
def childWrite (fails : Nat → Bool) (devs offset : Nat) (entries : List IoEntry) (mem : Mem)
    (magic : Nat → Magic) (store : Nat → Cell cs) : Nat → Cell cs :=
  writeAll ((entries.zipIdx.filter fun e => !fails (e.2 % devs)).map fun e =>
    (offset + e.2, ⟨magic e.1.magic, chunkAt mem e.1.base⟩)) store

/-- A finished operation; `fails` are the devices that failed. -/
def finishWrite (fails : Finset (Fin (n + m))) (st : WriteState n m cs) (slot : Nat) :
    WriteState n m cs :=
  match st.info[slot]? with
  | none => st
  | some i =>
    let entries := (st.iov.drop i.iovStart).take i.cells
    let errorCode := if i.nstripes = 0 then 0 else fails.card
    { st with
      store := childWrite (fun k => decide (∃ j ∈ fails, j.val = k)) (n + m) i.offset entries
        st.mem st.magic st.store
      hardError := st.hardError || decide (m < errorCode)
      softError := st.softError || decide (errorCode ≠ 0 ∧ errorCode ≤ m) }

/-- Wait for the operations under way and start over with the arrays. -/
def flushWrites (fails : Finset (Fin (n + m))) (sch : Schedule) (st : WriteState n m cs) :
    WriteState n m cs :=
  { (sch.order st.queue).foldl (finishWrite fails) st with
    parityUsed := 0
    currStripe := 0
    iov := []
    queue := [] }

/-- The loop over the ranges. -/
def writeLoop (s : Segjerase n m cs) (fails : Finset (Fin (n + m))) (sch : Schedule) (q : RwReq)
    (parityLen : Int) : List ExIovec → WriteState n m cs → WriteState n m cs
  | [], st => flushWrites fails sch st
  | v :: vs, st =>
    let st := if parityLen < parityBytes m cs (nstripes n cs v) + st.parityUsed then
      flushWrites fails sch st else st
    writeLoop s fails sch q parityLen vs (addWrite s q v st)

/-- One pass from `tryagain`. -/
def writeAttempt (s : Segjerase n m cs) (fails : Finset (Fin (n + m))) (sch : Schedule)
    (q : RwReq) (mem : Mem) (magic : Nat → Magic) (store : Nat → Cell cs) : WriteState n m cs :=
  writeLoop s fails sch q (parityLen s q.iov) q.iov
    ⟨[], 0, 0, 0, TbufVar.init, 0, [], [], mem, magic, store, false, false⟩

/-- The outcome of a write. -/
structure WriteResult (cs : Nat) where
  ok : Bool
  store : Nat → Cell cs
  paranoidCheck : Bool
  writeErrors : Bool

/-- `segjerase_write_func`; the devices that fail may differ without the blacklist. -/
def segjeraseWriteFunc (s : Segjerase n m cs) (fails : Nat → Finset (Fin (n + m)))
    (sch : Schedule) (q : RwReq) (mem : Mem) (magic : Nat → Magic) (store : Nat → Cell cs) :
    WriteResult cs :=
  let st := writeAttempt s (fails 0) sch q mem magic store
  let st := if st.hardError && s.blacklist then
    writeAttempt s (fails 1) sch q st.mem st.magic st.store else st
  ⟨!st.hardError, st.store, s.paranoidCheck || st.softError || st.hardError,
    st.softError || st.hardError⟩

end LStore.Jerasure
