import LStore.Base.MachineInt
import LStore.Jerasure.ReadWrite

/-!
# Inspection of an erasure segment

A scan compares the magics of each stripe and has the runs of bad stripes looked into. A full
check reads the stripes of a range, and repairs what it can. A segment with old magics
(`magic_cksum` is 0) is converted by a full repair: every stripe it reads is written back
with the checksum of its chunks as the magic.

## Implementation notes

`InspectReq.io` are the outcomes of the operations on the child segment, in the order in which
they are issued. A failed read leaves the zeros of the cleared buffer, a failed write what the
device held. The full checks that a scan starts work on disjoint stripes; they are run one after
the other, and finish in that order. A first stripe below zero, which only a wrapped product
gives, is taken as stripe 0. Messages and the counters that only appear in them are left out.
Numbers of stripes are `int`s; a scan of 2147483647 stripes, whose counter would overflow, is not
told apart here.
-/

namespace LStore.Jerasure

open MachineInt ByteSpan

/-- The commands of `lio_ex3_inspect_command_t` that lead to `segjerase_inspect_func`. -/
inductive InspectCommand
  | quickCheck
  | scanCheck
  | fullCheck
  | quickRepair
  | scanRepair
  | fullRepair
deriving DecidableEq

/-- `do_fix`. -/
def InspectCommand.doFix : InspectCommand → Bool
  | .quickRepair | .scanRepair | .fullRepair => true
  | .quickCheck | .scanCheck | .fullCheck => false

/-- `gop_op_status_t`. -/
structure Status where
  ok : Bool
  errorCode : Nat
deriving DecidableEq

/-- How an operation on the child segment goes: the devices that fail, by stripe, and whether
it reports an error beyond that. -/
structure ChildIo (n m : Nat) where
  fails : Nat → Finset (Fin (n + m))
  error : Bool

/-- `segjerase_inspect_t`, with what happens on the child segment. The buffer holds
`bufStripes` stripes. -/
structure InspectReq (n m : Nat) where
  failOnError : Bool
  bufStripes : Nat
  fits : 0 < bufStripes
  io : Nat → ChildIo n m

variable {n m cs : Nat}

/-- A change of size keeps the stripes below both sizes; the others are blank. -/
def resize (devs : Nat) (store : Nat → Cell cs) (old new : Nat) (p : Nat) : Cell cs :=
  if p < min old new * devs then store p else Cell.blank

/-- A stripe of the buffer after its check. `updates` are the chunks to write back when only
some are. -/
structure StripeCheck (n m cs : Nat) where
  cells : Fin (n + m) → Cell cs
  updates : Finset (Fin (n + m))
  bad : Nat
  unrecoverable : Nat
  brute : Option (Finset (Fin (n + m)))

/-- Store the updated chunks in the buffer with a consistent magic. -/
def updateStripe (s : Segjerase n m cs) (doFix : Bool) (win : Magic) (bad : Finset (Fin (n + m)))
    (magic : Fin (n + m) → Magic) (ptr eptr : Word n m cs) :
    (Fin (n + m) → Cell cs) × Finset (Fin (n + m)) :=
  if doFix then
    if s.magicCksum then
      (fun k => if k ∈ bad then ⟨win, eptr k⟩ else ⟨magic k, ptr k⟩, bad)
    else (fun k => ⟨jeCksumCalc eptr, eptr k⟩, ∅)
  else (fun k => ⟨magic k, ptr k⟩, ∅)

/-- The treatment of one stripe in `segjerase_inspect_full_func`; `none` asks for the stripes
to be read again. -/
def inspectStripe (s : Segjerase n m cs) (doFix retried : Bool)
    (brute : Option (Finset (Fin (n + m)))) (cells : Fin (n + m) → Cell cs) :
    Option (StripeCheck n m cs) :=
  let magic : Fin (n + m) → Magic := fun k => (cells k).magic
  let ptr : Word n m cs := fun k => (cells k).chunk
  let groups := Vote.table (votes cells)
  match Vote.leader groups with
  | none => some ⟨cells, ∅, 0, 0, brute⟩
  | some (win, devs) =>
    let goodMagic := decide (win ≠ 0) || (List.finRange (n + m)).any fun k => sjNonzero (ptr k)
    if !goodMagic && decide (devs.length = n + m) then some ⟨cells, ∅, 0, 0, brute⟩
    else if !goodMagic || decide (devs.length < n) then
      if retried then some ⟨cells, ∅, 1, 1, brute⟩ else none
    else
      let bad := ((groups.filter fun e => decide (e.1 ≠ win)).flatMap Prod.snd).toFinset
      let checkMagic := if s.magicCksum then some win else none
      let c := jeraseControlCheck s.plan bad ptr checkMagic
      if c.ok then
        if devs.length = n + m ∧ s.magicCksum = true then
          some ⟨fun k => ⟨magic k, c.ptr k⟩, ∅, 0, 0, brute⟩
        else
          let u := updateStripe s doFix win bad magic c.ptr c.eptr
          some ⟨u.1, u.2, if devs.length = n + m then 0 else 1, 0, brute⟩
      else
        match jeraseBruteRecovery s.plan (brute.getD bad) c.ptr checkMagic with
        | (some (found, eptr), ptr') =>
          let u := updateStripe s doFix win found magic ptr' eptr
          some ⟨u.1, u.2, 1, 0, some found⟩
        | (none, ptr') => some ⟨fun k => ⟨magic k, ptr' k⟩, ∅, 1, 1, brute⟩

/-- The segment in the course of an inspection; `clock` counts the operations on the child
segment. -/
structure InspectState (cs : Nat) where
  store : Nat → Cell cs
  stripes : Nat
  clock : Nat

/-- The variables of `segjerase_inspect_full_func`. -/
structure FullState (n m cs : Nat) extends InspectState cs where
  bad : Nat
  unrecoverable : Nat
  repairErrors : Nat
  brute : Option (Finset (Fin (n + m)))

/-- The buffer in the course of a pass over its stripes. -/
structure Pass (n m cs : Nat) where
  buffer : Nat → Fin (n + m) → Cell cs
  updates : Nat → Finset (Fin (n + m))
  bad : Nat
  unrecoverable : Nat
  brute : Option (Finset (Fin (n + m)))
  again : Bool

/-- The loop over the stripes of the buffer. -/
def inspectPass (s : Segjerase n m cs) (doFix retried : Bool) :
    List Nat → Pass n m cs → Pass n m cs
  | [], p => p
  | c :: batch, p =>
    match inspectStripe s doFix retried p.brute (p.buffer c) with
    | none => { p with again := true }
    | some r =>
      inspectPass s doFix retried batch
        { p with
          buffer := Function.update p.buffer c r.cells
          updates := Function.update p.updates c r.updates
          bad := p.bad + r.bad
          unrecoverable := p.unrecoverable + r.unrecoverable
          brute := r.brute }

/-- The child's read of a stripe. -/
def readView (io : ChildIo n m) (st : InspectState cs) (c : Nat) (k : Fin (n + m)) : Cell cs :=
  if c < st.stripes ∧ k ∉ io.fails c then st.store (c * (n + m) + k.val) else Cell.blank

/-- The child's operation on the chunks `touched` does not succeed. -/
def ioFails (io : ChildIo n m) (batch : List Nat) (touched : Nat → Finset (Fin (n + m))) : Bool :=
  io.error || batch.any fun c => decide (touched c ∩ io.fails c ≠ ∅)

/-- Read the stripes into the cleared buffer and check them. -/
def readPass (s : Segjerase n m cs) (doFix retried : Bool) (io : Nat → ChildIo n m)
    (batch : List Nat) (st : FullState n m cs) : Pass n m cs × FullState n m cs :=
  let p := inspectPass s doFix retried batch
    ⟨readView (io st.clock) st.toInspectState, fun _ => ∅, st.bad, st.unrecoverable, st.brute, false⟩
  (p, { st with
    clock := st.clock + 1
    bad := p.bad
    unrecoverable := p.unrecoverable
    brute := p.brute })

/-- The child's write of chunks of the buffer, which may extend the segment. -/
def writeBack (io : ChildIo n m) (batch : List Nat) (touched : Nat → Finset (Fin (n + m)))
    (buffer : Nat → Fin (n + m) → Cell cs) (st : FullState n m cs) : FullState n m cs :=
  if batch.any fun c => decide (touched c ≠ ∅) then
    let stripes := batch.foldl (fun high c => if touched c = ∅ then high else max high (c + 1))
      st.stripes
    { st with
      store := writeAll
        (batch.flatMap fun c =>
          ((List.finRange (n + m)).filter fun k => decide (k ∈ touched c ∧ k ∉ io.fails c)).map
            fun k => (c * (n + m) + k.val, buffer c k))
        (resize (n + m) st.store st.stripes stripes)
      stripes := stripes
      clock := st.clock + 1
      repairErrors := st.repairErrors + (ioFails io batch touched).toNat }
  else st

/-- One round of the main loop: the stripes of the buffer. -/
def inspectBatch (s : Segjerase n m cs) (doFix : Bool) (io : Nat → ChildIo n m) (batch : List Nat)
    (st : FullState n m cs) : FullState n m cs :=
  let first := readPass s doFix false io batch st
  let r := if first.1.again then readPass s doFix true io batch first.2 else first
  -- with old magics everything is written back
  let touched := if !s.magicCksum && doFix then fun _ => Finset.univ else r.1.updates
  writeBack (io r.2.clock) batch touched r.1.buffer r.2

/-- The main loop, with `left` stripes from `start` on. -/
def inspectBatches (s : Segjerase n m cs) (q : InspectReq n m) (doFix : Bool) :
    Nat → Nat → Nat → FullState n m cs → FullState n m cs
  | 0, _, _, st => st
  | fuel + 1, start, left, st =>
    if left = 0 then st
    else
      let count := min q.bufStripes left
      let st := inspectBatch s doFix q.io (List.range' start count) st
      if q.failOnError && decide (0 < st.repairErrors + st.unrecoverable) then st
      else inspectBatches s q doFix fuel (start + count) (left - count) st

/-- `data_size`. -/
def dataSize (n cs : Nat) : Int := (n * cs : Nat)

/-- `total_stripes` of `segjerase_inspect_full_func`, an `int`. -/
def totalStripes (n cs : Nat) (lo hi : Int) : Nat :=
  (i32 ((hi - lo + 1).tdiv (dataSize n cs))).toNat

/-- `segjerase_inspect_full_func`, with the number of bad stripes. -/
def segjeraseInspectFullFunc (s : Segjerase n m cs) (q : InspectReq n m) (command : InspectCommand)
    (lo hi : Int) (st : InspectState cs) : InspectState cs × Status × Nat :=
  let base := (i32 (lo.tdiv (dataSize n cs))).toNat
  let total := totalStripes n cs lo hi
  let f := inspectBatches s q command.doFix total base total
    ⟨st, 0, 0, 0, none⟩
  let hard := decide (0 < f.unrecoverable) || decide (0 < f.repairErrors)
  let soft := !command.doFix && decide (f.unrecoverable + f.repairErrors < f.bad)
  (f.toInspectState,
    ⟨!(hard || !command.doFix && decide (0 < f.bad)),
      512 + (if hard then 2048 else 0) + (if soft then 1024 else 0)⟩, f.bad)

/-- The runs of bad stripes among the next `count`, from `i` on, each with the stripe behind it. -/
def badRuns (bad : Nat → Bool) : Nat → Nat → Option Nat → List (Nat × Nat)
  | 0, i, start => (start.map fun b => (b, i)).toList
  | count + 1, i, start =>
    if bad i then badRuns bad count (i + 1) (some (start.getD i))
    else (start.map fun b => (b, i)).toList ++ badRuns bad count (i + 1) none

/-- The runs of the batch from stripe `start` on. -/
def batchRuns (bad : Nat → Bool) (start count : Nat) : List (Nat × Nat) :=
  (badRuns bad count 0 none).map fun run => (start + run.1, start + run.2)

/-- The bytes of a run of stripes, computed with `int` variables. -/
def runRange (ds : Int) (run : Nat × Nat) : Int × Int :=
  (i32 (run.1 * ds), i32 (i32 (run.2 * ds) - 1))

/-- The queue of the repairs of a scan, with the status that the scan returns. The failed ones
are never taken off `q->failed`. -/
structure RepairQueue where
  status : Status
  nsubmitted : Nat
  failed : Nat

/-- The end of a batch: `opque_waitall`, and then `opque_waitany` hands out the repairs that
are `done`. -/
def RepairQueue.await (q : RepairQueue) (done : List Status) : RepairQueue :=
  let nsubmitted := q.nsubmitted + done.length
  let failed := q.failed + (done.filter fun st => !st.ok).length
  let status := if 0 < failed then { q.status with ok := false } else q.status
  ⟨if 0 < nsubmitted then done.foldl (fun _ st => st) status else q.status, nsubmitted, failed⟩

/-- The variables of `segjerase_inspect_scan`. -/
structure ScanState (n m cs : Nat) where
  seg : InspectState cs
  magic : Nat → Fin (n + m) → Magic
  badCount : Nat
  queue : RepairQueue

/-- Look into runs of bad stripes, each with its status and number of bad stripes. -/
def inspectRuns (s : Segjerase n m cs) (q : InspectReq n m) (command : InspectCommand) :
    List (Int × Int) → InspectState cs → InspectState cs × List (Status × Nat)
  | [], st => (st, [])
  | range :: ranges, st =>
    let r := segjeraseInspectFullFunc s q command range.1 range.2 st
    let rest := inspectRuns s q command ranges r.1
    (rest.1, r.2 :: rest.2)

/-- The magics of `count` stripes. The buffer is cleared once, so a failed read leaves one of an
earlier batch. -/
def readMagics (io : ChildIo n m) (st : InspectState cs) (start count : Nat)
    (old : Nat → Fin (n + m) → Magic) (i : Nat) (k : Fin (n + m)) : Magic :=
  if i < count ∧ start + i < st.stripes ∧ k ∉ io.fails (start + i) then
    (st.store ((start + i) * (n + m) + k.val)).magic
  else old i k

/-- A magic differs from the first one. -/
def inconsistent (magic : Fin (n + m) → Magic) : Bool :=
  (List.finRange (n + m)).any fun j => (List.finRange (n + m)).any fun k =>
    decide (j.val = 0 ∧ magic j ≠ magic k)

/-- Read the magics of `count` stripes and compare them. -/
def scanBatch (s : Segjerase n m cs) (q : InspectReq n m) (command : InspectCommand)
    (start count : Nat) (st : ScanState n m cs) : ScanState n m cs :=
  let magic := readMagics (q.io st.seg.clock) st.seg start count st.magic
  let bad : Nat → Bool := fun i => inconsistent (magic i)
  let runs := if command.doFix then batchRuns bad start count else []
  let r := inspectRuns s q command (runs.map (runRange (dataSize n cs)))
    { st.seg with clock := st.seg.clock + 1 }
  ⟨r.1, magic, st.badCount + ((List.range count).filter bad).length + (r.2.map Prod.snd).sum,
    st.queue.await (r.2.map Prod.fst)⟩

/-- The loop over the stripes, 1024 at a time. -/
def scanBatches (s : Segjerase n m cs) (q : InspectReq n m) (command : InspectCommand) :
    Nat → Nat → Nat → ScanState n m cs → ScanState n m cs
  | 0, _, _, st => st
  | fuel + 1, start, left, st =>
    if left = 0 then st
    else
      let count := min 1024 left
      scanBatches s q command fuel (start + count) (left - count)
        (scanBatch s q command start count st)

/-- The scan of `total` stripes. -/
def scanStripes (s : Segjerase n m cs) (q : InspectReq n m) (command : InspectCommand)
    (total : Nat) (st : InspectState cs) : InspectState cs × Status :=
  let r := scanBatches s q command total 0 total ⟨st, fun _ _ => 0, 0, ⟨⟨true, 0⟩, 0, 0⟩⟩
  (r.seg, if !command.doFix && decide (0 < r.badCount) then ⟨false, 0⟩ else r.queue.status)

/-- `segjerase_inspect_scan`; `total_stripes` is an `int`. -/
def segjeraseInspectScan (s : Segjerase n m cs) (q : InspectReq n m) (command : InspectCommand)
    (st : InspectState cs) : InspectState cs × Status :=
  scanStripes s q command (i32 st.stripes).toNat st

end LStore.Jerasure
