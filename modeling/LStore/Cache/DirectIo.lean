import LStore.Base.ByteCopy
import LStore.Cache.RangeLock
import LStore.Segment.Iovec
import LStore.Toolbox.MachineSize

/-!
# Direct I/O

A request that goes around the cache is widened to whole pages. The child transfers them
through a buffer that is stitched together: the first page comes from a page buffer on the
stack if it is partial, the pages in the middle are the caller's own memory, and the last
page comes from a second page buffer if it is partial. A write reads the partial pages
first and puts the caller's bytes into them. A read takes the caller's bytes out of them at
the end.

## Implementation notes

The child is a flat array of bytes. It asks the buffer for all bytes it still has to move,
moves the block it is given, and goes on behind it. The memory of the caller is addressed
by position in the transfer buffer; `tbNextBlockSize_spec` says that the pieces of a block
are these positions, and `tbxTbufCopy_tbufCopy` that `tbx_tbuf_copy` moves the bytes at these
positions. A block that claims more bytes than the buffer has behind its position
leads out of the memory of the caller, and the transfer has no result. The range lock is
left out, and so is the truncation of the child before a write, which only makes it longer.
-/

namespace LStore.Cache.DirectIo

open ByteCopy Toolbox Segment Dio

/-- The buffers of a call: the two pages on its stack and the memory of the caller. -/
inductive Area where
  | loBuf
  | hiBuf
  | tbuf
deriving DecidableEq, Repr

abbrev Memory := Area → Int → Byte

/-- `dio_tbuf_t`; the field `hiBuf` names the page that `hi_buf` points to. -/
structure DioTbuf where
  hiBuf : Area
  tbuf : Tbuf
  loExtra : Int
  hiExtra : Int
  hiPstart : Int
  pageSize : Int
  blen : Int
  tbufBpos : Int

/-- A block of memory that a buffer hands out. -/
structure Block where
  area : Area
  start : Int
  nbytes : Int
deriving DecidableEq, Repr

/-- `tbx_tbuf_next` of the caller's buffer. -/
def tbufBlock (tb : Tbuf) (pos nbytes : Int) : Option Block :=
  (tbNextBlockSize tb pos.toNat { TbufVar.init with nbytes := nbytes.toNat }).bind fun tbv =>
    if pos + tbv.nbytes ≤ tb.totalBytes then some ⟨.tbuf, pos, tbv.nbytes⟩ else none

/-- `c1` of `dio_next_block`: where the bytes of the first page buffer end. -/
def DioTbuf.c1 (d : DioTbuf) : Int := if 0 < d.loExtra then d.pageSize else 0

/-- What `dio_next_block` asks the caller's buffer for at `bpos` when `nbytes` are wanted:
`blen - bpos + 1` as a `size_t`, if that is more. -/
def askFor (blen bpos nbytes : Int) : Int := max ((blen - bpos + 1) % (sizeValues : Int)) nbytes

/-- `dio_next_block`. -/
def dioNextBlock (d : DioTbuf) (pos nbytes : Int) : Option Block :=
  if pos < d.c1 then
    some ⟨.loBuf, pos, min (d.pageSize - pos) nbytes⟩
  else if pos < d.hiPstart ∨ d.hiExtra = 0 then
    let bpos := d.tbufBpos + pos - d.loExtra
    tbufBlock d.tbuf bpos (askFor d.blen bpos nbytes)
  else if pos - d.hiPstart < d.pageSize then
    let bpos := pos - d.hiPstart
    some ⟨d.hiBuf, bpos, min (d.pageSize - bpos) nbytes⟩
  else none

/-- The loop of a transfer: `move` carries out a block at a position of the request. -/
def transfer {σ : Type} (next : Int → Int → Option Block) (move : Int → Block → σ → σ) :
    Nat → Int → Int → σ → Option σ
  | 0, _, nleft, s => if nleft ≤ 0 then some s else none
  | fuel + 1, pos, nleft, s =>
    if nleft ≤ 0 then some s
    else
      (next pos nleft).bind fun b =>
        transfer next move fuel (pos + b.nbytes) (nleft - b.nbytes) (move pos b s)

/-- A block of memory goes to a position behind `off` in the child. -/
def writeMove (mem : Memory) (off pos : Int) (b : Block) (child : Int → Byte) : Int → Byte :=
  copyBytes (mem b.area) b.start child (off + pos) b.nbytes

/-- The bytes at a position behind `off` in the child go to a block of memory. -/
def readMove (child : Int → Byte) (off pos : Int) (b : Block) (mem : Memory) : Memory :=
  Function.update mem b.area (copyBytes child (off + pos) (mem b.area) b.start b.nbytes)

/-- `segment_write` of the child, `len` bytes at `off`. -/
def segmentWrite (next : Int → Int → Option Block) (mem : Memory) (off len : Int)
    (child : Int → Byte) : Option (Int → Byte) :=
  transfer next (writeMove mem off) len.toNat 0 len child

/-- `segment_read` of the child, `len` bytes at `off`. -/
def segmentRead (next : Int → Int → Option Block) (child : Int → Byte) (off len : Int)
    (mem : Memory) : Option Memory :=
  transfer next (readMove child off) len.toNat 0 len mem

/-- `tbx_tbuf_copy` between two buffers of the call. -/
def tbufCopy (mem : Memory) (src : Area) (s : Int) (dst : Area) (d n : Int) : Memory :=
  Function.update mem dst (copyBytes (mem src) s (mem dst) d n)

/-- The merges, which differ in the direction of the copies between a page buffer, from a
position, and the caller's buffer. -/
def dioMerge (copy : Memory → Area → Int → Int → Int → Memory) (d : DioTbuf) (mem : Memory) :
    Memory :=
  let nbytes := d.loExtra + d.blen - d.hiPstart
  let poff := d.blen - nbytes
  if 0 < d.loExtra ∧ d.loExtra + d.blen ≤ d.pageSize then
    copy mem .loBuf d.loExtra d.tbufBpos d.blen
  else
    let mem :=
      if 0 < d.loExtra then copy mem .loBuf d.loExtra d.tbufBpos (d.pageSize - d.loExtra) else mem
    if 0 < d.hiExtra then copy mem d.hiBuf 0 (d.tbufBpos + poff) nbytes else mem

/-- `_dio_read_merge`. -/
def dioReadMerge : DioTbuf → Memory → Memory :=
  dioMerge fun mem page p bpos n => tbufCopy mem page p .tbuf bpos n

/-- `_dio_write_merge`. -/
def dioWriteMerge : DioTbuf → Memory → Memory :=
  dioMerge fun mem page p bpos n => tbufCopy mem .tbuf bpos page p n

/-- The segment with the caller's memory. -/
structure State where
  user : Int → Byte
  child : Int → Byte
  totalSize : Int

/-- The memory of a call: whatever stands in the pages on its stack, and the caller's. -/
def memory (stack : Memory) (user : Int → Byte) : Memory := Function.update stack .tbuf user

/-- `memset` of a page buffer. -/
def clearPage (pageSize : Int) (a : Area) (mem : Memory) : Memory :=
  Function.update mem a (copyBytes (fun _ => 0) 0 (mem a) 0 pageSize)

/-- A page of the child is read into a page buffer. -/
def loadPage (pageSize : Int) (child : Int → Byte) (start : Int) (a : Area) (mem : Memory) :
    Memory :=
  Function.update mem a (copyBytes child start (mem a) 0 pageSize)

/-- The partial pages of a write are preloaded. -/
def prefetch (d : DioTbuf) (child : Int → Byte) (loStart hiStart currSize : Int) (mem : Memory) :
    Memory :=
  if loStart ≠ hiStart then
    let mem :=
      if currSize < loStart then clearPage d.pageSize .loBuf mem
      else if 0 < d.loExtra then loadPage d.pageSize child loStart .loBuf mem
      else mem
    if currSize < hiStart then clearPage d.pageSize .hiBuf mem
    else if 0 < d.hiExtra then loadPage d.pageSize child hiStart .hiBuf mem
    else mem
  else if currSize = 0 then clearPage d.pageSize .loBuf mem
  else if d.loExtra ≠ 0 ∨ d.hiExtra ≠ 0 then loadPage d.pageSize child loStart .loBuf mem
  else mem

/-- The start of the page of a byte. -/
def pageStart (pageSize pos : Int) : Int := pos / pageSize * pageSize

/-- The buffer that `cache_direct_rw_op` sets up. -/
def dioTbuf (pageSize lo hi len bpos : Int) (tbuf : Tbuf) : DioTbuf where
  hiBuf := .hiBuf
  tbuf := tbuf
  loExtra := lo % pageSize
  hiExtra := pageSize - hi % pageSize - 1
  hiPstart := pageStart pageSize hi - pageStart pageSize lo
  pageSize := pageSize
  blen := len
  tbufBpos := bpos

/-- `cache_direct_rw_op`, with what stands in its page buffers at the start. -/
def cacheDirectRwOp (pageSize : Int) (mode : Mode) (lo hi len bpos : Int) (tbuf : Tbuf)
    (stack : Memory) (s : State) : Option State :=
  let loStart := pageStart pageSize lo
  let hiStart := pageStart pageSize hi
  let totalLen := (hi / pageSize - lo / pageSize + 1) * pageSize
  let tdio := dioTbuf pageSize lo hi len bpos tbuf
  match mode with
  | .read =>
    (segmentRead (dioNextBlock tdio) s.child loStart totalLen (memory stack s.user)).map
      fun mem => { s with user := dioReadMerge tdio mem .tbuf }
  | .write =>
    let currSize := if s.totalSize < hi + 1 then hi + 1 else s.totalSize
    -- in one page `hi_buf` is pointed to the buffer of the first page
    let tdio := if loStart ≠ hiStart then tdio else { tdio with hiBuf := .loBuf }
    let mem := prefetch tdio s.child loStart hiStart currSize (memory stack s.user)
    (segmentWrite (dioNextBlock tdio) (dioWriteMerge tdio mem) loStart totalLen s.child).map
      fun child => { s with child := child, totalSize := currSize }

/-- `cache_direct_rw_func`: every call gets `boff`. The stack frames of the calls come in
their order. -/
def cacheDirectRwFunc (pageSize : Int) (mode : Mode) (boff : Int) (tbuf : Tbuf) :
    List ExIovec → (Nat → Memory) → State → Option State
  | [], _, s => some s
  | v :: iov, frames, s =>
    (cacheDirectRwOp pageSize mode v.offset (v.offset + v.len - 1) v.len boff tbuf (frames 0)
      s).bind fun s' =>
        cacheDirectRwFunc pageSize mode boff tbuf iov (fun i => frames (i + 1)) s'

end LStore.Cache.DirectIo
