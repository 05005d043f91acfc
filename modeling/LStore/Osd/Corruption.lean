import LStore.Osd.BlockWrite
import LStore.Osd.Calls
import LStore.Base.Reach

/-!
# Corrupted blocks

The data of blocks may be altered on disk between calls. The watched object remembers what the
code last stored in each block and when a read last found the checksum of the block right.
-/

namespace LStore.Osd

open Splice
open MachineInt

/-- An object with what was last stored in each block, and with the time of the last read that
checked the block, if it was not written since. -/
structure Watched where
  depot : Depot
  stored : Nat → List UInt8
  verified : Nat → Option Int

/-- A step of the object's life: the recorded data of a block is altered on disk, or a call. -/
inductive Event where
  | alter (block : Nat) (w : List UInt8)
  | read (env : CallEnv) (offset len : Nat) (mem : Mem)
  | write (env : CallEnv) (offset : Nat) (data : List UInt8)

/-- The data of the block is not what was last stored in it. -/
def Altered (o : Object) (s : Watched) (b : Nat) : Prop :=
  blockData o s.depot.file b ≠ s.stored b

/-- A block of the request is written: a whole block always, the first and the last one if they
are not corrupt. -/
def Writes (o : Object) (f : SparseFile UInt8) (m : Mapping) (b : Nat) : Prop :=
  m.startBlock ≤ b ∧ b ≤ m.endBlock ∧
    (m.startBlock < b ∧ b < m.endBlock ∨ ¬Corrupt o f b)

instance (o : Object) (f : SparseFile UInt8) (m : Mapping) (b : Nat) : Decidable (Writes o f m b) :=
  inferInstanceAs (Decidable (_ ∧ _))

/-- Alter the data of a block. -/
def Watched.alter (o : Object) (s : Watched) (b : Nat) (w : List UInt8) : Watched :=
  { s with depot := { s.depot with file := s.depot.file.fwrite (o.dataOffset b) w } }

/-- The watched object after a read. -/
def Watched.read (o : Object) (s : Watched) (env : CallEnv) (offset len : Nat) (mem : Mem) :
    Watched :=
  { s with
    depot := (fsChksumRead o env s.depot offset len mem).2.2
    verified := fun b =>
      (((readVars o env s.depot offset len mem).checks.find? fun e => decide (e.1 = b)).map
        Prod.snd).or (s.verified b) }

/-- The watched object after a write. -/
def Watched.write (o : Object) (s : Watched) (env : CallEnv) (offset : Nat) (data : List UInt8) :
    Watched :=
  let m := fsMapping o offset data.length
  let d := (fsChksumWrite o env s.depot offset data).2
  { depot := d
    stored := fun b => if Writes o s.depot.file m b then blockData o d.file b else s.stored b
    verified := fun b => if m.startBlock ≤ b ∧ b ≤ m.endBlock then none else s.verified b }

/-- One step. An alteration keeps the recorded length of the block. -/
def Watched.step (o : Object) (s : Watched) : Event → Option Watched
  | .alter b w => if w.length = recorded o s.depot.file b then some (s.alter o b w) else none
  | .read env offset len mem => some (s.read o env offset len mem)
  | .write env offset data => some (s.write o env offset data)

/-- A fresh object. The cache, if there is one, has no entry of it. -/
def Watched.fresh (o : Object) (maxWait : Option Int) (header : List UInt8) : Watched :=
  ⟨fsCreateId o (maxWait.map fun wait => ⟨wait, fun _ => none⟩) header, fun _ => [], fun _ => none⟩

/-- What is promised of a step. A read that returns good has no altered block, except one that was
checked no longer ago than the cache waits and not written since. After a call that does not
return good, neither place that keeps the state says good. -/
def Honest (o : Object) (s : Watched) : Event → Prop
  | .alter _ _ => True
  | .read env offset len mem =>
    let m := fsMapping o offset len
    let res := fsChksumRead o env s.depot offset len mem
    (res.1 = .good → ∀ b, m.startBlock ≤ b → b ≤ m.endBlock → Altered o s b →
      ∃ c t, s.depot.cache = some c ∧ s.verified b = some t ∧
        env.now (b - m.startBlock) - t ≤ c.maxWait) ∧
    (res.1 ≠ .good → res.2.2.state ≠ .good ∧ res.2.2.headerState ≠ .good)
  | .write env offset data =>
    let res := fsChksumWrite o env s.depot offset data
    res.1 ≠ .good → res.2.state ≠ .good ∧ res.2.headerState ≠ .good

/-- The steps the promise is about: the checksum tells altered data from what was stored, and
calls move at least one byte under grants of the lock. -/
def Admissible (o : Object) (s : Watched) : Event → Prop
  | .alter b w => o.chksum.digest w = o.chksum.digest (s.stored b) → w = s.stored b
  | .read env offset len _ =>
    1 ≤ len ∧ Grants (fsMapping o offset len).endBlock (fsMapping o offset len).startBlock
      env.grants
  | .write env offset data =>
    1 ≤ data.length ∧ Grants (fsMapping o offset data.length).endBlock
      (fsMapping o offset data.length).startBlock env.grants

/-- A key has been dropped from the cache before block `k` of the call was looked up. -/
def dropped (env : CallEnv) (k : Nat) (key : Int) : Bool :=
  (List.range k).any fun j => env.drop j key

/-- The cache has an entry of the block that is young enough when block `k` of the call is looked
up. -/
def freshAt (c : Option Cache) (env : CallEnv) (k b : Nat) : Bool :=
  match c with
  | none => false
  | some c =>
    match c.time (i32 b) with
    | none => false
    | some t => !dropped env (k + 1) (i32 b) && decide (env.now k - t < c.maxWait)

/-- The end of the piece of a request in a block. -/
def Mapping.pieceEnd (o : Object) (m : Mapping) (b : Nat) : Nat :=
  if b = m.startBlock then m.startOffset + m.startSize
  else if b = m.endBlock then m.endSize else o.blocksize

/-- Reading a block fails: it is cached and the file ends before it, or it is not cached and
corrupt, or it is a whole block with its header behind the end of the file. -/
def ReadFails (o : Object) (d : Depot) (env : CallEnv) (m : Mapping) (b : Nat) : Prop :=
  if freshAt d.cache env (b - m.startBlock) b then
    d.file.size < o.dataOffset b + m.pieceEnd o b
  else Corrupt o d.file b ∨
    m.startBlock < b ∧ b < m.endBlock ∧ d.file.size < o.dataOffset b

/-- Writing a block fails: it is the first or the last one and corrupt. -/
def WriteFails (o : Object) (d : Depot) (m : Mapping) (b : Nat) : Prop :=
  (b = m.startBlock ∨ b = m.endBlock) ∧ Corrupt o d.file b

/-- If any block of the request fails then the last one does. -/
def LastFails (m : Mapping) (fails : Nat → Prop) : Prop :=
  (∃ b, m.startBlock ≤ b ∧ b ≤ m.endBlock ∧ fails b) → fails m.endBlock

/-- The steps that do not reach the slips of the code. The numbers of the whole blocks fit into
an `int`. For a read with a cache, also those of the other blocks do, and each grant of the lock
holds one block, besides the first block of the request. No entry of the cache has been kept
alive by other reads for longer than the cache waits. If a block of the request fails then its
last block does. -/
def Meets (o : Object) (s : Watched) : Event → Prop
  | .alter _ _ => True
  | .read env offset len _ =>
    let m := fsMapping o offset len
    o.Small ∧ m.IntMiddle ∧
      (s.depot.cache = none ∨
        m.endBlock < 2147483648 ∧ SingleGrants m.startBlock env.grants) ∧
      (∀ b c t, m.startBlock ≤ b → b ≤ m.endBlock → s.depot.cache = some c →
        s.verified b = some t → freshAt s.depot.cache env (b - m.startBlock) b = true →
        env.now (b - m.startBlock) - t ≤ c.maxWait) ∧
      LastFails m (ReadFails o s.depot env m)
  | .write _ offset data =>
    let m := fsMapping o offset data.length
    o.Small ∧ m.IntMiddle ∧ LastFails m (WriteFails o s.depot m)

end LStore.Osd
