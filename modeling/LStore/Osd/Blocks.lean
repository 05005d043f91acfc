import LStore.Base.MachineInt
import LStore.Base.Splice
import Mathlib.Data.UInt

/-!
# Blocks of a checksummed depot object

The block routines of `src/ibp-server/osd_fs.c`. An object is a file that starts with a header.
Behind it come the header block and the data blocks, each with the number of bytes used in it and
the checksum of those bytes in front of its data.

## Implementation notes

The running checksum is the list of bytes added to it so far. File operations succeed, and where
a read reaches the end of the file the rest of a scratch buffer counts as zero. Offsets and
lengths are natural numbers; values that the code keeps in an `int` or a `uint32_t` wrap.
-/

namespace LStore.Osd

open Splice
open MachineInt

/-- The values of `OSD_STATE_*`. -/
inductive OsdState where
  | good
  | badHeader
  | badBlock
  deriving DecidableEq, Repr

/-- A type of checksum: the size of its binary digest and the digest of a word. -/
structure Chksum where
  size : Nat
  digest : List UInt8 → List UInt8
  length_digest : ∀ w, (digest w).length = size

/-- The part of an object that stays the same, `osd_fs_chksum_t`. -/
structure Object where
  headerBlocksize : Nat
  blocksize : Nat
  chksum : Chksum
  headerBlocksize_pos : 1 ≤ headerBlocksize
  blocksize_pos : 1 ≤ blocksize

/-- `FS_MAGIC_HEADER`. -/
def magicHeader : Nat := 24

/-- `FS_BUF_SIZE`. -/
def fsBufSize : Nat := 262144

/-- A value stored in a `uint32_t`. -/
def u32 (n : Nat) : Nat := n % 4294967296

namespace Object

variable (o : Object)

/-- The bytes in front of the data of a block. -/
def blockHeader : Nat := 4 + o.chksum.size

/-- `hbs_with_chksum`. -/
def hbsWithChksum : Nat := o.headerBlocksize + o.blockHeader

/-- `bs_with_chksum`. -/
def bsWithChksum : Nat := o.blocksize + o.blockHeader

/-- Where a block starts in the file. -/
def objOffset (block : Nat) : Nat :=
  if block = 0 then magicHeader
  else magicHeader + o.hbsWithChksum + (block - 1) * o.bsWithChksum

/-- Where the data of a block starts in the file. -/
def dataOffset (block : Nat) : Nat := o.objOffset block + o.blockHeader

theorem dataOffset_eq (block : Nat) :
    o.dataOffset block = o.objOffset block + (4 + o.chksum.size) := rfl

/-- The data bytes a block can hold. -/
def blockBytes (block : Nat) : Nat := if block = 0 then o.headerBlocksize else o.blocksize

end Object

/-- The state a routine returns for a bad block. -/
def badState (block : Nat) : OsdState := if block = 0 then .badHeader else .badBlock

/-- A number as little-endian bytes. -/
def leBytes : (width n : Nat) → List UInt8
  | 0, _ => []
  | width + 1, n => UInt8.ofNat (n % 256) :: leBytes width (n / 256)

/-- The number of little-endian bytes; missing bytes are zero. -/
def ofLe : List UInt8 → Nat
  | [] => 0
  | b :: bs => b.toNat + 256 * ofLe bs

/-- `fs_chksum_add`; the size is passed as an `int`. -/
def fsChksumAdd (cs : List UInt8) (size : Nat) (data : List UInt8) : List UInt8 :=
  cs ++ data.take (i32 size).toNat

/-- A scratch buffer of `n` bytes after a read. -/
def padded (n : Nat) (got : List UInt8) : List UInt8 := got ++ List.replicate (n - got.length) 0

/-- The position in a file, the bytes that arrived and the running checksum. -/
structure Cursor where
  pos : Nat
  n : Nat
  cs : List UInt8

/-- Read `size` bytes into the scratch buffer and add them to the checksum. -/
def Cursor.chunk (f : SparseFile UInt8) (size : Nat) (c : Cursor) : Cursor :=
  let got := f.fread c.pos size
  ⟨c.pos + got.length, c.n + got.length, fsChksumAdd c.cs size (padded size got)⟩

/-- The loop over whole buffers. -/
def Cursor.chunks (f : SparseFile UInt8) (bufsize : Nat) : Nat → Cursor → Cursor
  | 0, c => c
  | k + 1, c => Cursor.chunks f bufsize k (c.chunk f bufsize)

/-- `_chksum_buffered_read`. -/
def chksumBufferedRead (f : SparseFile UInt8) (pos len bufsize : Nat) (cs : List UInt8) : Cursor :=
  if len = 0 then ⟨pos, 0, cs⟩
  else
    let c := Cursor.chunks f bufsize (len / bufsize) ⟨pos, 0, cs⟩
    if 0 < len % bufsize then c.chunk f (len % bufsize) else c

/-- What `_fs_read_block_header` returns, with the position behind it. -/
structure BlockHeader where
  bytesUsed : Nat
  digest : List UInt8
  err : Int
  pos : Nat

/-- `_fs_read_block_header` at the start of a block. -/
def fsReadBlockHeader (o : Object) (f : SparseFile UInt8) (block : Nat) : BlockHeader :=
  let used := f.fread (o.objOffset block) 4
  let digest := f.fread (o.objOffset block + used.length) o.chksum.size
  let pos := o.objOffset block + used.length + digest.length
  let err := if o.chksum.size + 4 = used.length + digest.length then 0 else -1
  if o.blockBytes block < ofLe used then ⟨o.blockBytes block, digest, -2, pos⟩
  else ⟨ofLe used, digest, err, pos⟩

/-- `_fs_write_block_header` at the start of a block. -/
def fsWriteBlockHeader (o : Object) (f : SparseFile UInt8) (block used : Nat)
    (digest : List UInt8) : SparseFile UInt8 :=
  (f.fwrite (o.objOffset block) (leBytes 4 used)).fwrite (o.objOffset block + 4) digest

/-- `chksum_merged_write`. -/
def chksumMergedWrite (o : Object) (f : SparseFile UInt8) (block offset len : Nat)
    (data : List UInt8) : OsdState × SparseFile UInt8 :=
  let h := fsReadBlockHeader o f block
  let original := (chksumBufferedRead f h.pos h.bytesUsed fsBufSize []).cs
  if h.err = 0 ∧ 0 < h.bytesUsed ∧ h.digest ≠ o.chksum.digest original then (badState block, f)
  else if h.err = -2 then (badState block, f)
  else
    let f₁ := f.fwrite (o.dataOffset block + offset) (data.take len)
    let used := if h.bytesUsed < offset + len then u32 (offset + len) else h.bytesUsed
    let cs := (chksumBufferedRead f₁ (o.dataOffset block) used fsBufSize []).cs
    (.good, fsWriteBlockHeader o f₁ block used (o.chksum.digest cs))

/-- `chksum_full_write`, for a data block. -/
def chksumFullWrite (o : Object) (f : SparseFile UInt8) (block : Nat) (buffer : List UInt8) :
    OsdState × SparseFile UInt8 :=
  let cs := fsChksumAdd [] o.blocksize buffer
  let f₁ := fsWriteBlockHeader o f block (u32 o.blocksize) (o.chksum.digest cs)
  (.good, f₁.fwrite (o.dataOffset block) (buffer.take o.blocksize))

/-- A buffer of the caller. -/
abbrev Mem := Nat → UInt8

/-- `chksum_direct_read` into a buffer at `bpos`. -/
def chksumDirectRead (o : Object) (f : SparseFile UInt8) (block offset len : Nat) (mem : Mem)
    (bpos : Nat) : OsdState × Mem :=
  let got := f.fread (o.dataOffset block + offset) len
  (if got.length ≠ len then .badBlock else .good, splice mem bpos got)

/-- The checks at the end of `chksum_merged_read`. -/
def mergedVerdict (o : Object) (block : Nat) (h : BlockHeader) (n bs : Nat) (cs : List UInt8) :
    OsdState :=
  if 0 < h.bytesUsed then
    if n ≠ bs ∧ h.err ≠ 0 then badState block
    else if h.digest ≠ o.chksum.digest cs then badState block
    else .good
  else .good

/-- `chksum_merged_read` into a buffer at `bpos`. -/
def chksumMergedRead (o : Object) (f : SparseFile UInt8) (block offset len : Nat) (mem : Mem)
    (bpos : Nat) : OsdState × Mem :=
  let h := fsReadBlockHeader o f block
  let used := h.bytesUsed
  let before := chksumBufferedRead f h.pos (min offset used) fsBufSize []
  if offset < used then
    let len₂ := if used ≤ offset + len then used - offset else len
    let got := f.fread before.pos len₂
    let mem₁ := splice mem bpos got
    let mem₂ := if used ≤ offset + len then
      splice mem₁ (bpos + len₂) (List.replicate (len - len₂) 0) else mem₁
    let cs := fsChksumAdd before.cs len₂ (slice mem₂ bpos len₂)
    let bs := max (offset + len) used
    let after := chksumBufferedRead f (before.pos + got.length) (bs - offset - len) fsBufSize cs
    (mergedVerdict o block h (before.n + got.length + after.n) bs after.cs, mem₂)
  else
    (mergedVerdict o block h before.n (min (o.blockBytes block) used) before.cs,
      splice mem bpos (List.replicate len 0))

/-- `chksum_full_read`, for a data block, into a buffer at `bpos`. -/
def chksumFullRead (o : Object) (f : SparseFile UInt8) (block : Nat) (mem : Mem) (bpos : Nat) :
    OsdState × Mem :=
  let h := fsReadBlockHeader o f block
  let used := h.bytesUsed
  let got := f.fread h.pos used
  let mem₁ := splice (splice mem bpos got) (bpos + used) (List.replicate (o.blocksize - used) 0)
  let cs := fsChksumAdd [] used (slice mem₁ bpos used)
  if got.length ≠ used ∨ h.err ≠ 0 then (badState block, mem₁)
  else if 0 < used ∧ h.digest ≠ o.chksum.digest cs then (badState block, mem₁)
  else (.good, mem₁)

end LStore.Osd
