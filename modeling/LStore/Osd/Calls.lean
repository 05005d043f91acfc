import LStore.Osd.Walk

/-!
# Reading and writing a checksummed object

`fs_chksum_read` and `fs_chksum_write` of `src/ibp-server/osd_fs.c`, with the cache of recently
verified blocks that lets a read skip the checksum.

## Implementation notes

The cache is the map from keys to times; which entries its slot management drops is an input, as
are the clock and the grants of the range lock. A key is a block number kept in an `int`; the
object id is fixed.
-/

namespace LStore.Osd

open Splice
open MachineInt

/-- The part of `fs_cache_table_t` that belongs to the object. -/
structure Cache where
  maxWait : Int
  time : Int → Option Int

/-- What a call gets from outside: the grants of the lock, the clock when a block is looked up
and when its check is done, and the keys that have been dropped before a block is looked up. -/
structure CallEnv where
  grants : List Nat
  now : Nat → Int
  later : Nat → Int
  drop : Nat → Int → Bool

/-- Drop entries of the cache. -/
def evict (drop : Int → Bool) (c : Option Cache) : Option Cache :=
  c.map fun c => { c with time := fun k => if drop k then none else c.time k }

/-- `fs_direct_cache_read`. -/
def fsDirectCacheRead (c : Option Cache) (block : Nat) (now : Int) : Bool × Option Cache :=
  match c with
  | none => (false, none)
  | some c =>
    match c.time (i32 block) with
    | none => (false, some c)
    | some t =>
      if now - t < c.maxWait then
        (true, some { c with time := Function.update c.time (i32 block) (some now) })
      else (false, some { c with time := Function.update c.time (i32 block) none })

/-- `fs_cache_add`. -/
def fsCacheAdd (c : Option Cache) (block : Nat) (now : Int) : Option Cache :=
  c.map fun c =>
    match c.time (i32 block) with
    | some _ => c
    | none => { c with time := Function.update c.time (i32 block) (some now) }

/-- `fs_cache_remove`. -/
def fsCacheRemove (c : Option Cache) (block : Nat) : Option Cache :=
  c.map fun c => { c with time := Function.update c.time (i32 block) none }

/-- An open object: its file, the cache, and the two places that keep its state. -/
structure Depot where
  file : SparseFile UInt8
  cache : Option Cache
  state : OsdState
  headerState : OsdState

/-- Both places that keep the state of the object, after a call with a result. -/
def Depot.record (d : Depot) (n err : OsdState) : Depot :=
  if err = .good then d else { d with state := n, headerState := n }

@[simp] theorem Depot.file_record (d : Depot) (n err : OsdState) :
    (d.record n err).file = d.file := by
  unfold record
  split <;> rfl

@[simp] theorem Depot.cache_record (d : Depot) (n err : OsdState) :
    (d.record n err).cache = d.cache := by
  unfold record
  split <;> rfl

/-- The variables of `fs_chksum_read`. `k` counts the blocks, and `checks` is a trace of the
blocks whose checksum was found right, with the time. -/
structure ReadVars where
  cache : Option Cache
  mem : Mem
  k : Nat
  n : OsdState
  err : OsdState
  checks : List (Nat × Int)

/-- The variables after a block. -/
def ReadVars.after (v : ReadVars) (cache : Option Cache) (checks : List (Nat × Int))
    (res : OsdState × Mem) : ReadVars where
  cache := cache
  mem := res.2
  k := v.k + 1
  n := res.1
  err := if res.1 = .good then v.err else res.1
  checks := checks

/-- Look up a block in the cache. -/
def ReadVars.lookup (env : CallEnv) (key : Nat) (v : ReadVars) : Bool × Option Cache :=
  fsDirectCacheRead (evict (env.drop v.k) v.cache) key (env.now v.k)

/-- The trace after a check of a block. -/
def ReadVars.checked (env : CallEnv) (block : Nat) (v : ReadVars) (n : OsdState) :
    List (Nat × Int) :=
  if n = .good then (block, env.later v.k) :: v.checks else v.checks

/-- Read a block directly if the key is cached, and else with a check; the cache learns under the
same key how that went. -/
def ReadVars.through (env : CallEnv) (key block : Nat) (direct checked : Mem → OsdState × Mem)
    (v : ReadVars) : ReadVars :=
  let (hit, cache) := v.lookup env key
  if hit then
    let res := direct v.mem
    v.after (if res.1 = .good then cache else fsCacheRemove cache key) v.checks res
  else
    let res := checked v.mem
    v.after (if res.1 = .good then fsCacheAdd cache key (env.later v.k) else cache)
      (v.checked env block res.1) res

/-- What `fs_chksum_read` does with the blocks. -/
def readHandlers (o : Object) (f : SparseFile UInt8) (env : CallEnv) (m : Mapping) :
    Handlers ReadVars where
  first block bpos v :=
    v.through env block block
      (fun mem => chksumDirectRead o f block m.startOffset m.startSize mem bpos)
      (fun mem => chksumMergedRead o f block m.startOffset m.startSize mem bpos)
  middle key block bpos v :=
    v.through env key block
      (fun mem => chksumDirectRead o f block 0 o.blocksize mem bpos)
      (fun mem => chksumFullRead o f block mem bpos)
  last key bpos v :=
    let (hit, cache) := v.lookup env key
    let res := if hit then chksumDirectRead o f m.endBlock 0 m.endSize v.mem bpos
      else chksumMergedRead o f m.endBlock 0 m.endSize v.mem bpos
    v.after (if res.1 = .good then cache else fsCacheRemove cache m.endBlock)
      (if hit then v.checks else v.checked env m.endBlock res.1) res

variable (o : Object) (f : SparseFile UInt8) (env : CallEnv) (m : Mapping) (key block bpos : Nat)
  (v : ReadVars)

theorem readHandlers_first : (readHandlers o f env m).first block bpos v =
    v.through env block block
      (fun mem => chksumDirectRead o f block m.startOffset m.startSize mem bpos)
      (fun mem => chksumMergedRead o f block m.startOffset m.startSize mem bpos) := rfl

theorem readHandlers_middle : (readHandlers o f env m).middle key block bpos v =
    v.through env key block (fun mem => chksumDirectRead o f block 0 o.blocksize mem bpos)
      (fun mem => chksumFullRead o f block mem bpos) := rfl

/-- The variables of `fs_chksum_read` at its end. -/
def readVars (o : Object) (env : CallEnv) (d : Depot) (offset len : Nat) (mem : Mem) : ReadVars :=
  let m := fsMapping o offset len
  (walk o (readHandlers o d.file env m) m env.grants
    ⟨m.startBlock, 0, ⟨d.cache, mem, 0, .good, .good, []⟩⟩).inner

/-- `fs_chksum_read`: the state returned, the caller's buffer and the object. -/
def fsChksumRead (o : Object) (env : CallEnv) (d : Depot) (offset len : Nat) (mem : Mem) :
    OsdState × Mem × Depot :=
  let v := readVars o env d offset len mem
  (v.err, v.mem, { d with cache := v.cache }.record v.n v.err)

/-- The variables of `fs_chksum_write`. -/
structure WriteVars where
  file : SparseFile UInt8
  cache : Option Cache
  n : OsdState
  err : OsdState

/-- Write a block and forget it in the cache. -/
def WriteVars.after (v : WriteVars) (block : Nat) (res : OsdState × SparseFile UInt8) :
    WriteVars where
  file := res.2
  cache := fsCacheRemove v.cache block
  n := res.1
  err := if res.1 = .good then v.err else res.1

/-- What `fs_chksum_write` does with the blocks. -/
def writeHandlers (o : Object) (m : Mapping) (data : List UInt8) : Handlers WriteVars where
  first block bpos v :=
    v.after block (chksumMergedWrite o v.file block m.startOffset m.startSize (data.drop bpos))
  middle _ block bpos v := v.after block (chksumFullWrite o v.file block (data.drop bpos))
  last _ bpos v :=
    v.after m.endBlock (chksumMergedWrite o v.file m.endBlock 0 m.endSize (data.drop bpos))

/-- `fs_chksum_write` of all bytes of `data`: the state returned and the object. -/
def fsChksumWrite (o : Object) (env : CallEnv) (d : Depot) (offset : Nat) (data : List UInt8) :
    OsdState × Depot :=
  let m := fsMapping o offset data.length
  let v := (walk o (writeHandlers o m data) m env.grants
    ⟨m.startBlock, 0, ⟨d.file, d.cache, .good, .good⟩⟩).inner
  (v.err, { d with file := v.file, cache := v.cache }.record v.n v.err)

/-- `fs_create_id`: the object header, and the header of an empty first block. -/
def fsCreateId (o : Object) (cache : Option Cache) (header : List UInt8) : Depot where
  file := (SparseFile.fwrite ⟨0, fun _ => 0, fun _ _ => rfl⟩ 0 (header.take magicHeader)).fwrite
    magicHeader (List.replicate (4 + o.chksum.size) 0)
  cache := cache
  state := .good
  headerState := .good

end LStore.Osd
