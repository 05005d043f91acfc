import LStore.Base.Erasure
import LStore.Base.Vote
import LStore.Segment.Iovec

/-!
# Reading one stripe

`src/lio/segment/jerasure.c` stores a stripe as one chunk a device, each behind a magic
number. A read takes the chunks whose magic most devices carry for the good ones,
recovers the rest, and checks the result against the checksum in the magic or, for old
segments, against the redundancy that is left. When the check fails it tries every small
set of devices as the bad ones.

## Implementation notes

The four bytes of a magic are the number they spell, low byte first. `badmap` is the set
of its marked devices. A check returns the chunk buffers as it leaves them (`ptr`: the bad
chunks are decoded in place) and the chunks the decoder worked on (`eptr`: control chunks
are decoded into work buffers). The work buffers that stand in for the suspected chunks in
the brute force search are filled by the decoder only, so the search leaves `ptr` alone.
-/

namespace LStore.Jerasure

open Segment (Byte)
open Erasure

abbrev Magic := UInt32

abbrev Chunk (cs : Nat) := Fin cs → Byte

/-- The chunks of a stripe, data devices first. -/
abbrev Word (n m cs : Nat) := Fin (n + m) → Chunk cs

/-- What a device holds of a stripe. -/
structure Cell (cs : Nat) where
  magic : Magic
  chunk : Chunk cs
deriving DecidableEq

/-- A device that was never written, and the reply for one whose read fails. -/
def Cell.blank {cs : Nat} : Cell cs := ⟨0, 0⟩

/-- `segjerase_priv_t` with `n` data and `m` parity devices and chunks of `cs` bytes. -/
structure Segjerase (n m cs : Nat) where
  plan : Mds n m (Chunk cs)
  maxParity : Nat
  magicCksum : Bool
  paranoidCheck : Bool
  blacklist : Bool

variable {n m cs : Nat}

/-- `sj_nonzero`. -/
def sjNonzero (c : Chunk cs) : Bool := decide (∃ i, c i ≠ 0)

/-- One byte of Adler-32, on the two sums. -/
def adlerByte (sums : Nat × Nat) (b : Byte) : Nat × Nat :=
  let low := (sums.1 + b.toNat) % 65521
  (low, (sums.2 + low) % 65521)

/-- `adler32` over one chunk. -/
def adler32 (sums : Nat × Nat) (c : Chunk cs) : Nat × Nat := (List.ofFn c).foldl adlerByte sums

/-- `je_cksum_calc`. -/
def jeCksumCalc (w : Word n m cs) : Magic :=
  let sums := (List.finRange (n + m)).foldl (fun sums k => adler32 sums (w k)) (1, 0)
  UInt32.ofNat (sums.2 * 65536 + sums.1)

/-- `je_cksum_compare` returns 0. -/
def jeCksumCompare (magic : Magic) (w : Word n m cs) : Bool := decide (magic = jeCksumCalc w)

/-- The outcome of `jerase_control_check`. -/
structure Check (n m cs : Nat) where
  ok : Bool
  ptr : Word n m cs
  eptr : Word n m cs

/-- The rounds without a checksum, from device `start` on: up to `ctlMax` good chunks are
erased as well and have to come back as they were. -/
def controlLoop (plan : Mds n m (Chunk cs)) (bad : Finset (Fin (n + m))) (ctlMax : Nat) :
    Nat → Nat → Word n m cs → Check n m cs
  | 0, _, ptr => ⟨false, ptr, ptr⟩
  | fuel + 1, start, ptr =>
    let control :=
      ((List.finRange (n + m)).filter fun k => decide (k ∉ bad ∧ start ≤ k.val)).take ctlMax
    let eptr := plan.decode ptr (bad ∪ control.toFinset)
    let ptr' : Word n m cs := fun k => if k ∈ bad then eptr k else ptr k
    if control.any fun k => decide (ptr k ≠ eptr k) then ⟨false, ptr', eptr⟩
    else
      -- without a control left `control_index` is the last device, which ends the loop
      let next := (control.getLast?.map fun k => k.val + 1).getD (n + m)
      if next < n + m then controlLoop plan bad ctlMax fuel next ptr' else ⟨true, ptr', eptr⟩

/-- `jerase_control_check`; `magic` is `none` for segments without checksums. -/
def jeraseControlCheck (plan : Mds n m (Chunk cs)) (bad : Finset (Fin (n + m)))
    (ptr : Word n m cs) : Option Magic → Check n m cs
  | some magic =>
    if bad = ∅ then ⟨jeCksumCompare magic ptr, ptr, ptr⟩
    else
      let eptr := plan.decode ptr bad
      ⟨jeCksumCompare magic eptr, fun k => if k ∈ bad then eptr k else ptr k, eptr⟩
  | none => controlLoop plan bad (m - bad.card) (n + m) 0 ptr

/-- The ways to choose a number of elements of a list, in lexicographic order. -/
def choices {α : Type*} : Nat → List α → List (List α)
  | 0, _ => [[]]
  | _ + 1, [] => []
  | r + 1, x :: xs => (choices r xs).map (fun c => x :: c) ++ choices (r + 1) xs

/-- `jerase_brute_recurse`: the first set of `nBad` devices that passes as the bad ones. -/
def jeraseBruteRecurse (plan : Mds n m (Chunk cs)) (ptr : Word n m cs) (magic : Option Magic)
    (nBad : Nat) : Option (Finset (Fin (n + m)) × Word n m cs) :=
  (choices nBad (List.finRange (n + m))).findSome? fun index =>
    let c := jeraseControlCheck plan index.toFinset ptr magic
    if c.ok then some (index.toFinset, c.eptr) else none

/-- `jerase_brute_recovery`: the bad devices it found with the chunks as decoded, and the
chunk buffers as its first check leaves them. -/
def jeraseBruteRecovery (plan : Mds n m (Chunk cs)) (bad : Finset (Fin (n + m)))
    (ptr : Word n m cs) (magic : Option Magic) :
    Option (Finset (Fin (n + m)) × Word n m cs) × Word n m cs :=
  let c := jeraseControlCheck plan bad ptr magic
  if c.ok then (some (bad, c.eptr), c.ptr)
  else
    -- a control device is not needed when there is a checksum
    let ncheck := if magic.isSome then m + 1 else m
    ((List.range' 1 (ncheck - 1)).findSome? (jeraseBruteRecurse plan c.ptr magic), c.ptr)

/-- A stripe after its read. `brute` is `badmap_brute` once `bm_brute_used` is set. -/
structure StripeRead (n m cs : Nat) where
  ok : Bool
  word : Word n m cs
  brute : Option (Finset (Fin (n + m)))

/-- The recovery of a stripe, after `do_recover` was set. -/
def recover (plan : Mds n m (Chunk cs)) (brute : Option (Finset (Fin (n + m))))
    (bad : Finset (Fin (n + m))) (ptr : Word n m cs) (magic : Option Magic) : StripeRead n m cs :=
  let c := jeraseControlCheck plan bad ptr magic
  if c.ok then ⟨true, c.ptr, brute⟩
  else
    match jeraseBruteRecovery plan (brute.getD bad) c.ptr magic with
    | (some (found, eptr), ptr') =>
      -- only the data chunks are copied back
      ⟨true, fun k => if k.val < n then eptr k else ptr' k, some found⟩
    | (none, ptr') => ⟨false, ptr', brute⟩

/-- `data_ok`: 1, 2 and 0. The value -1 is overwritten in both branches that follow it. -/
inductive DataOk
  | good
  | empty
  | missing
deriving DecidableEq

/-- The verdict on a stripe in which the magic `win` has the devices `devs`. -/
def dataOk (errorCode : Nat) (cells : Fin (n + m) → Cell cs) (win : Magic)
    (devs : List (Fin (n + m))) : DataOk :=
  if devs.length ≠ n + m then
    if (devs.filter fun k => decide (k.val < n)).length ≠ n then .missing else .good
  else if win = 0 then
    if (List.finRange (n + m)).any fun k => sjNonzero (cells k).chunk then
      if errorCode = 0 then .good else .missing
    else .empty
  else .good

/-- The votes of the devices, by their magic. -/
def votes (cells : Fin (n + m) → Cell cs) : List (Magic × Fin (n + m)) :=
  (List.finRange (n + m)).map fun k => ((cells k).magic, k)

/-- `paranoid_mode`. -/
def paranoidMode (s : Segjerase n m cs) (errorCode : Nat) : Bool :=
  if errorCode ≠ 0 then true else s.paranoidCheck

/-- The treatment of one stripe in `segjerase_read_func`. -/
def readStripe (s : Segjerase n m cs) (errorCode : Nat) (brute : Option (Finset (Fin (n + m))))
    (cells : Fin (n + m) → Cell cs) : StripeRead n m cs :=
  let ptr : Word n m cs := fun k => (cells k).chunk
  let groups := Vote.table (votes cells)
  match Vote.leader groups with
  | none => ⟨false, ptr, brute⟩
  | some (win, devs) =>
    let bad := ((groups.filter fun e => decide (e.1 ≠ win)).flatMap Prod.snd).toFinset
    let magic := if s.magicCksum then some win else none
    match dataOk errorCode cells win devs with
    | .good =>
      if paranoidMode s errorCode then recover s.plan brute bad ptr magic
      else ⟨true, ptr, brute⟩
    | .empty => ⟨true, fun k => if k.val < n then 0 else ptr k, brute⟩
    | .missing =>
      if devs.length < n then ⟨false, ptr, brute⟩ else recover s.plan brute bad ptr magic

end LStore.Jerasure
