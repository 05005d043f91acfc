import LStore.Base.MachineInt

/-!
# Range commands of the depot server

What `read_write` and `read_read` parse out of a WRITE, STORE, LOAD, SEND, PUSH or PULL, and the
checks `handle_write`, `handle_read`, `handle_copy` and `same_depot_copy` make on it before data
moves. Offsets and lengths are values of `ibp_off_t`, a signed 64-bit type; the arithmetic on them
wraps. Everything is about byte-array allocations.
-/

namespace LStore.Ibp

open MachineInt

/-- `IOVEC_MAX`. -/
def iovecMax : Nat := 4096

/-- One element of an `ibp_iovec_t`. -/
structure Ele where
  off : Int
  len : Int
  deriving DecidableEq, Repr

/-- The size fields of a byte-array allocation. -/
structure Allocation where
  maxSize : Int
  size : Int
  maxSize_nonneg : 0 ≤ maxSize
  maxSize_lt : maxSize < 9223372036854775808
  size_nonneg : 0 ≤ size
  size_lt : size < 9223372036854775808

/-- The alias fields of an alias allocation; `handle_alias_allocate` compares only their sum,
with the size of the master. -/
structure Alias where
  offset : UInt64
  size : UInt64

/-- What a capability names: an allocation, or an alias together with its master. -/
structure Cap where
  master : Allocation
  aliasOf : Option Alias

/-- `alias_offset` as the handlers set it. -/
def Cap.aliasOffset (c : Cap) : Int :=
  match c.aliasOf with
  | none => 0
  | some v => i64 v.offset.toNat

/-- `alias_len` as the handlers set it. -/
def Cap.aliasLen (c : Cap) : Int :=
  match c.aliasOf with
  | none => c.master.maxSize
  | some v => if v.size = 0 then i64 (c.master.maxSize - i64 v.offset.toNat)
      else i64 v.size.toNat

/-- `alias_end` of `handle_write`, `handle_read` and `handle_copy`. -/
def Cap.aliasEnd (c : Cap) : Int := i64 (c.aliasOffset + c.aliasLen)

/-- The commands read by `read_write`; the checksummed ones carry the same fields. -/
inductive WriteCmd where
  | write (off : Int64) (len : UInt64)
  | store (len : UInt64)
  | vecWrite (iov : List (Int64 × UInt64))
  deriving DecidableEq

/-- The commands of `read_read` that send data back to the client. -/
inductive ReadCmd where
  | load (off : Int64) (len : UInt64)
  | vecRead (iov : List (Int64 × UInt64))
  deriving DecidableEq

/-- The depot-to-depot commands of `read_read`. Of the checksummed ones only `IBP_PULL_CHKSUM`
differs, as the parser tests for `IBP_PULL` alone. -/
inductive CopyCmd where
  | send (off : Int64) (len : UInt64)
  | push (off remoteOffset : Int64) (len : UInt64)
  | pull (off remoteOffset : Int64) (len : UInt64)
  | pullChksum (off remoteOffset : Int64) (len : UInt64)
  deriving DecidableEq

/-- The length field: read as an unsigned number, refused when 0, stored signed. -/
def readLen (len : UInt64) : Option Int :=
  if len.toNat < 1 then none else some (i64 len.toNat)

/-- One offset and length of a vector command, or of a WRITE. -/
def readEle (x : Int64 × UInt64) : Option Ele :=
  if x.1.toInt < 0 then none else (readLen x.2).map fun len => ⟨x.1.toInt, len⟩

/-- The elements of a vector command. -/
def readVec (iov : List (Int64 × UInt64)) : Option (List Ele) :=
  if iov.length < 1 then none
  else if iov.length > iovecMax then none
  else iov.mapM readEle

/-- The elements `read_write` accepts. -/
def readWrite : WriteCmd → Option (List Ele)
  | .write off len => [(off, len)].mapM readEle
  | .store len => (readLen len).map fun len => [⟨-1, len⟩]
  | .vecWrite iov => readVec iov

/-- The elements `read_read` accepts. The offset of a LOAD is not looked at. -/
def readRead : ReadCmd → Option (List Ele)
  | .load off len => (readLen len).map fun len => [⟨off.toInt, len⟩]
  | .vecRead iov => readVec iov

/-- The two directions of a copy. -/
inductive Dir where
  | push
  | pull
  deriving DecidableEq

/-- The fields of a `Cmd_read_t` that a copy uses. -/
structure CopyArgs where
  dir : Dir
  ele : Ele
  writeMode : Bool
  remoteOffset : Int
  deriving DecidableEq

/-- `if (ll > -1) r->remote_offset = ll`, over the initial 0. -/
def readRemote (roff : Int64) : Int := if roff.toInt > -1 then roff.toInt else 0

/-- The copy arguments `read_read` accepts. -/
def readCopy : CopyCmd → Option CopyArgs
  | .send off len => (readLen len).map fun len => ⟨.push, ⟨off.toInt, len⟩, true, 0⟩
  | .push off roff len => (readLen len).map fun len =>
    ⟨.push, ⟨off.toInt, len⟩, !decide (roff.toInt > -1), readRemote roff⟩
  | .pull off roff len => (readLen len).map fun len =>
    if off.toInt > -1 then ⟨.pull, ⟨off.toInt, len⟩, false, readRemote roff⟩
    else ⟨.pull, ⟨0, len⟩, true, readRemote roff⟩
  | .pullChksum off roff len => (readLen len).map fun len =>
    ⟨.pull, ⟨off.toInt, len⟩, true, readRemote roff⟩

/-- The bounds checks shared by the handlers: `true` when the range ends within the allocation
and within the alias. Only the end of the range is compared. -/
def endsWithin (c : Cap) (e : Ele) : Bool :=
  !(decide (i64 (e.off + e.len) > c.master.maxSize)) && !(decide (i64 (e.off + e.len) > c.aliasEnd))

/-- `vec[i].off += alias_offset`. -/
def Ele.shift (e : Ele) (aliasOffset : Int) : Ele := ⟨i64 (e.off + aliasOffset), e.len⟩

/-- An offset of -1 in the first element asks for an append. -/
def appendOff (a : Allocation) : List Ele → List Ele
  | [] => []
  | e :: es => if e.off = -1 then ⟨a.size, e.len⟩ :: es else e :: es

/-- Whether the first element asks for an append. -/
def appendMode : List Ele → Bool
  | [] => false
  | e :: _ => decide (e.off = -1)

/-- The ranges `handle_write` passes to `write_to_disk`, or `none` when it refuses. -/
def handleWrite (c : Cap) (es : List Ele) : Option (List Ele) :=
  if appendMode es ∧ c.aliasOffset ≠ 0 ∧ c.aliasLen ≠ 0 then none
  else
    let shifted := (appendOff c.master es).map (·.shift c.aliasOffset)
    if shifted.all (endsWithin c) then some shifted else none

/-- The ranges `handle_read` passes to `read_from_disk`, or `none` when it refuses. -/
def handleRead (c : Cap) (es : List Ele) : Option (List Ele) :=
  let shifted := es.map (·.shift c.aliasOffset)
  if shifted.all (fun e => endsWithin c e && !(decide (i64 (e.off + e.len) > c.master.size)))
  then some shifted else none

/-- The local range `handle_copy` settles on, or `none` when it refuses. A PULL that appends
starts at the end of the master's data. -/
def handleCopy (c : Cap) (r : CopyArgs) : Option Ele :=
  let e := if r.dir = .pull ∧ r.writeMode = true then ⟨c.master.size, r.ele.len⟩
    else r.ele.shift c.aliasOffset
  if endsWithin c e = false then none
  else if r.dir = .push ∧ i64 (e.off + e.len) > c.master.size then none
  else some e

/-- The remote offset `same_depot_copy` settles on, or `none` when it refuses. `rem_offset` is
an `int`. By the time the alias range would be checked `rem_a` holds the master, whose `is_alias`
is 0, so neither the alias offset nor the alias end plays a part. -/
def sameDepotOffset (rem : Cap) (r : CopyArgs) : Option Int :=
  let remOffset := i32 r.remoteOffset
  if rem.aliasOf.any (fun v => v.offset > 0) ∧ remOffset < 0 then none
  else
    let remOffset := if remOffset < 0 then i32 rem.master.size else remOffset
    if i64 (remOffset + r.ele.len) > rem.master.maxSize then none else some remOffset

/-- One pass of the loop of `disk_to_disk_copy_user`: what is read at the source and written at
the destination. -/
structure Turn where
  soff : Int
  doff : Int
  nbytes : Int
  deriving DecidableEq

/-- `bufsize` of `disk_to_disk_copy_user`. -/
def bufsize : Int := 1048576

/-- The first `k` passes of the loop of `disk_to_disk_copy_user`; the loop variable `i` is an
`int` and the rest are `ibp_off_t`. -/
def copyTurns (len : Int) : Nat → (i soff doff nleft : Int) → List Turn
  | 0, _, _, _, _ => []
  | k + 1, i, soff, doff, nleft =>
    if i < len then
      let nbytes := if nleft > bufsize then bufsize else nleft
      ⟨soff, doff, nbytes⟩ ::
        copyTurns len k (i32 (i + bufsize)) (i64 (soff + nbytes)) (i64 (doff + nbytes))
          (i64 (nleft - bufsize))
    else []

/-- The first `k` passes of the copy that an accepted command makes between two allocations of
the depot: `soff` and `doff` are `int`s in `same_depot_copy`. -/
def sameDepotCopy (c rem : Cap) (r : CopyArgs) (k : Nat) : List Turn :=
  match handleCopy c r, sameDepotOffset rem r with
  | some e, some remOffset =>
    match r.dir with
    | .pull => copyTurns r.ele.len k 0 remOffset (i32 e.off) r.ele.len
    | .push => copyTurns r.ele.len k 0 (i32 e.off) remOffset r.ele.len
  | _, _ => []

/-- Where a transfer stands: what is left of the current element, and the elements after it. -/
structure Cursor where
  ioff : Int
  ileft : Int
  rest : List Ele

/-- `iovec_start`, looking for the element that holds byte `total` of the transfer; `prev` is the
cumulative length before the elements still to look at. -/
def iovecStart (total : Int) (all : List Ele) : (prev : Int) → List Ele → Cursor
  | _, [] => ⟨0, 0, all⟩
  | prev, e :: es =>
    let cumulativeLen := i64 (prev + e.len)
    if total < cumulativeLen then
      ⟨i64 (e.off + i64 (total - prev)), i64 (e.len - i64 (total - prev)), es⟩
    else iovecStart total all cumulativeLen es

/-- The access made with `room` bytes of buffer at hand. -/
def Cursor.access (c : Cursor) (room : Int) : Ele :=
  ⟨c.ioff, if room > c.ileft then c.ileft else room⟩

/-- The position after that access. -/
def Cursor.next (c : Cursor) (room : Int) : Cursor :=
  let cleft := (c.access room).len
  match c.rest with
  | e :: es => if i64 (c.ileft - cleft) ≤ 0 then ⟨e.off, e.len, es⟩
      else ⟨i64 (c.ioff + cleft), i64 (c.ileft - cleft), c.rest⟩
  | [] => ⟨i64 (c.ioff + cleft), i64 (c.ileft - cleft), []⟩

/-- The accesses of the inner loops of `read_from_disk_user` and `write_to_disk_user`. The
buffer room of each pass depends on the network, so it is a parameter. -/
def Cursor.accesses : Cursor → List Nat → List Ele
  | _, [] => []
  | c, room :: rooms => c.access room :: Cursor.accesses (c.next room) rooms

/-- The accesses of one call of `read_from_disk` or `write_to_disk`, taken up after `total`
bytes. -/
def transfer (ranges : List Ele) (total : Nat) (rooms : List Nat) : List Ele :=
  (iovecStart total ranges 0 ranges).accesses rooms

end LStore.Ibp
