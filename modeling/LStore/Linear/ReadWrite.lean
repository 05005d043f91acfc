import LStore.Base.ByteCopy
import LStore.Base.IntervalList
import LStore.Segment.Iovec

/-!
# Vectored reads and writes of a linear segment

A linear segment of `src/lio/segment/linear.c` keeps its bytes in blocks that follow
one another. `seglin_write_op` and `seglin_read_func` make one data-service operation for
each block that a range of the request overlaps. The first queue is made when a range
turns out to have a further block; until then only the last operation is remembered, so
the operations of earlier ranges are lost.

## Implementation notes

The interval list of blocks is the ordered list of `IntervalList`, which
`Toolbox.IntervalOrdered` relates to the one of the toolbox. The queued operations run in any
order, each one as a whole. `seglin_read_func` reports success whatever its operations report.
-/

namespace LStore.Linear

open IntervalList Segment List

/-- `seglin_slot_t`: `len` bytes from `capOffset` of the data block `data` hold the segment from
`segOffset` to `segEnd`. -/
structure SeglinSlot where
  data : Nat
  capOffset : Int
  segOffset : Int
  segEnd : Int
  len : Int
deriving DecidableEq, Repr

instance : Spanned SeglinSlot := ⟨SeglinSlot.segOffset, SeglinSlot.segEnd⟩

@[simp] theorem spanned_lo (b : SeglinSlot) : Spanned.lo b = b.segOffset := rfl

@[simp] theorem spanned_hi (b : SeglinSlot) : Spanned.hi b = b.segEnd := rfl

/-- A `ds_read` or `ds_write`: `blen` bytes between `start` of the data block and `bpos` of the
buffer. -/
structure SlotOp where
  slot : SeglinSlot
  start : Int
  bpos : Int
  blen : Int
deriving DecidableEq, Repr

/-- The variables `gop`, `q` and `bpos`. -/
structure OpState where
  gop : Option SlotOp
  q : Option (List SlotOp)
  bpos : Int

/-- The operation of the inner loop for the block `b`. -/
def slotOp (lo hi bpos : Int) (b : SeglinSlot) : SlotOp :=
  let start := if lo ≤ b.segOffset then 0 else lo - b.segOffset
  let fin := if b.segEnd ≤ hi then b.len - 1 else hi - b.segOffset
  ⟨b, start + b.capOffset, bpos, fin - start + 1⟩

/-- The loop over the blocks of a range. -/
def slotLoop (lo hi : Int) : List SeglinSlot → OpState → OpState
  | [], st => st
  | b :: rest, st =>
    let gop := slotOp lo hi st.bpos b
    let q := if rest ≠ [] ∧ st.q = none then some [] else st.q
    slotLoop lo hi rest ⟨some gop, q.map (· ++ [gop]), st.bpos + gop.blen⟩

/-- The loop over the ranges. -/
def iovLoop (blocks : List SeglinSlot) (iov : List ExIovec) (st : OpState) : OpState :=
  iov.foldl (fun st v =>
    slotLoop v.offset (v.offset + v.len - 1) (search v.offset (v.offset + v.len - 1) blocks) st) st

/-- What is handed to execution; with nothing to do it is an operation that fails. -/
def OpState.handed (st : OpState) : Option (List SlotOp) :=
  match st.q, st.gop with
  | some ops, _ => some ops
  | none, some gop => some [gop]
  | none, none => none

/-- `seglin_write_op`. -/
def seglinWriteOp (blocks : List SeglinSlot) (iov : List ExIovec) (boff : Int) :
    Option (List SlotOp) :=
  (iovLoop blocks iov ⟨none, none, boff⟩).handed

/-- What `seglin_read_func` leaves: the operations it waited for, its status and the counter of
hard errors. -/
structure ReadResult where
  ops : Option (List SlotOp)
  ok : Bool
  hardErrors : Int

/-- `seglin_read_func`, with the value of `gop_waitall` on what was handed over. -/
def seglinReadFunc (waitall : Option (List SlotOp) → Int) (hardErrors : Int)
    (blocks : List SeglinSlot) (iov : List ExIovec) (boff : Int) : ReadResult :=
  let ops := (iovLoop blocks iov ⟨none, none, boff⟩).handed
  if waitall ops = 0 then ⟨ops, true, hardErrors⟩ else ⟨ops, true, hardErrors + 1⟩

/-- The block holds bytes of the range. -/
def Overlaps (v : ExIovec) (b : SeglinSlot) : Prop :=
  b.segOffset < v.offset + v.len ∧ v.offset ≤ b.segEnd

instance (v : ExIovec) (b : SeglinSlot) : Decidable (Overlaps v b) :=
  inferInstanceAs (Decidable (_ ∧ _))

/-- The first offset that the range and the block share. -/
def shared (v : ExIovec) (b : SeglinSlot) : Int := max v.offset b.segOffset

/-- The operation for the bytes that a block holds of a range at `pos` of the buffer. -/
def pairOp (pos : Int) (v : ExIovec) (b : SeglinSlot) : SlotOp where
  slot := b
  start := b.capOffset + (shared v b - b.segOffset)
  bpos := pos + (shared v b - v.offset)
  blen := min (v.offset + v.len) (b.segOffset + b.len) - shared v b

/-- The operations for one range. -/
def rangeOps (blocks : List SeglinSlot) (pos : Int) (v : ExIovec) : List SlotOp :=
  (blocks.filter fun b => Overlaps v b).map (pairOp pos v)

theorem length_rangeOps {blocks v} (pos : Int) :
    (rangeOps blocks pos v).length = (blocks.filter fun b => Overlaps v b).length := length_map _

/-- One operation for each pair of a range and a block that it overlaps. -/
def pairOps (blocks : List SeglinSlot) (boff : Int) (iov : List ExIovec) : List SlotOp :=
  (placed boff iov).flatMap fun p => rangeOps blocks p.2 p.1

/-- The first range that overlaps a block overlaps a second one, or no other range overlaps a
block. -/
def KeepsAll (blocks : List SeglinSlot) : List ExIovec → Prop
  | [] => True
  | v :: iov =>
    match (blocks.filter fun b => Overlaps v b).length with
    | 0 => KeepsAll blocks iov
    | 1 => ∀ w ∈ iov, ∀ b ∈ blocks, ¬Overlaps w b
    | _ => True

/-- The blocks fill `[b, e)` one after another. -/
def Stacked : Int → List SeglinSlot → Int → Prop
  | b, [], e => b = e
  | b, s :: blocks, e =>
    s.segOffset = b ∧ 1 ≤ s.len ∧ s.segEnd = s.segOffset + s.len - 1 ∧
      Stacked (b + s.len) blocks e

/-- A layout of the segment: the blocks cover `[0, total)` and use separate bytes of the data
blocks. -/
structure Layout (blocks : List SeglinSlot) (total : Int) : Prop where
  stacked : Stacked 0 blocks total
  apart : blocks.Pairwise fun a b => a.data = b.data →
    a.capOffset + a.len ≤ b.capOffset ∨ b.capOffset + b.len ≤ a.capOffset

variable {b e : Int} {blocks : List SeglinSlot} {v : ExIovec} {s : SeglinSlot}

theorem Stacked.le (h : Stacked b blocks e) : b ≤ e := by
  induction blocks generalizing b with
  | nil => exact Int.le_of_eq h
  | cons s blocks ih =>
    obtain ⟨_, hlen, _, hrest⟩ := h
    have := ih hrest
    omega

theorem Stacked.mem (h : Stacked b blocks e) (hs : s ∈ blocks) :
    b ≤ s.segOffset ∧ 1 ≤ s.len ∧ s.segEnd = s.segOffset + s.len - 1 ∧ s.segOffset + s.len ≤ e := by
  induction blocks generalizing b with
  | nil => simp at hs
  | cons t blocks ih =>
    obtain ⟨hb, hlen, hend, hrest⟩ := h
    rcases mem_cons.mp hs with rfl | hs
    · have := hrest.le
      omega
    · have := ih hrest hs
      omega

theorem Stacked.covers (h : Stacked b blocks e) {x} (hlo : b ≤ x) (hhi : x < e) :
    ∃ s ∈ blocks, s.segOffset ≤ x ∧ x ≤ s.segEnd := by
  induction blocks generalizing b with
  | nil =>
    have : b = e := h
    omega
  | cons s blocks ih =>
    obtain ⟨hb, hlen, hend, hrest⟩ := h
    by_cases hx : x < b + s.len
    · exact ⟨s, by simp, by omega, by omega⟩
    · obtain ⟨t, ht, hcov⟩ := ih hrest (by omega)
      exact ⟨t, by simp [ht], hcov⟩

/-- The blocks that a range overlaps are those its search finds. -/
theorem search_eq (hlen : 0 ≤ v.len) (h : Stacked b blocks e) :
    search v.offset (v.offset + v.len - 1) blocks = blocks.filter fun s => Overlaps v s := by
  refine filter_congr fun s hs => ?_
  obtain ⟨_, hpos, hend, _⟩ := h.mem hs
  rw [decide_eq_decide]
  simp only [Meets, Overlaps, spanned_lo, spanned_hi]
  omega

variable {pos total : Int} {st : OpState}
variable {iov : List ExIovec}

/-- The operations that the loop over the blocks makes, and the buffer position after them. -/
def made (lo hi : Int) : List SeglinSlot → Int → List SlotOp × Int
  | [], bpos => ([], bpos)
  | b :: rest, bpos =>
    let gop := slotOp lo hi bpos b
    let r := made lo hi rest (bpos + gop.blen)
    (gop :: r.1, r.2)

theorem slotLoop_some (lo hi : Int) {ops} (bs : List SeglinSlot) (hq : st.q = some ops) :
    (slotLoop lo hi bs st).q = some (ops ++ (made lo hi bs st.bpos).1) ∧
      (slotLoop lo hi bs st).bpos = (made lo hi bs st.bpos).2 := by
  induction bs generalizing st ops with
  | nil => exact ⟨by simpa [slotLoop, made] using hq, rfl⟩
  | cons b rest ih =>
    have hkeep : (if rest ≠ [] ∧ st.q = none then some [] else st.q) = some ops := by
      rw [if_neg (by simp [hq]), hq]
    simp only [slotLoop, hkeep, made]
    obtain ⟨hq', hpos⟩ := @ih ⟨some (slotOp lo hi st.bpos b),
      some (ops ++ [slotOp lo hi st.bpos b]), st.bpos + (slotOp lo hi st.bpos b).blen⟩ _ rfl
    exact ⟨by simpa using hq', hpos⟩

/-- Without a queue a single operation replaces the remembered one, and two or more make the
queue. -/
theorem slotLoop_none (lo hi : Int) (bs : List SeglinSlot) (hq : st.q = none) :
    (slotLoop lo hi bs st).bpos = (made lo hi bs st.bpos).2 ∧
      match (made lo hi bs st.bpos).1 with
      | [] => (slotLoop lo hi bs st).q = none ∧ (slotLoop lo hi bs st).gop = st.gop
      | [gop] => (slotLoop lo hi bs st).q = none ∧ (slotLoop lo hi bs st).gop = some gop
      | ops => (slotLoop lo hi bs st).q = some ops := by
  rcases bs with _ | ⟨b, _ | ⟨b', rest⟩⟩
  · exact ⟨rfl, hq, rfl⟩
  · simp [slotLoop, made, hq]
  · have hnew : (if b' :: rest ≠ [] ∧ st.q = none then some [] else st.q) =
        some ([] : List SlotOp) := by
      rw [if_pos ⟨by simp, hq⟩]
    rw [slotLoop]
    simp only [hnew, Option.map_some, nil_append]
    obtain ⟨hq', hpos⟩ := slotLoop_some lo hi (b' :: rest)
      (show (OpState.mk (some (slotOp lo hi st.bpos b)) (some [slotOp lo hi st.bpos b])
        (st.bpos + (slotOp lo hi st.bpos b).blen)).q = some [slotOp lo hi st.bpos b] from rfl)
    exact ⟨hpos, hq'⟩

/-- The offset of the range nearest to `x`. -/
def clamp (v : ExIovec) (x : Int) : Int := max v.offset (min x (v.offset + v.len))

/-- On the blocks that a range overlaps the loop makes the operation of each pair and moves
through the range. -/
theorem made_eq (pos : Int) (hlen : 0 ≤ v.len) (h : Stacked b blocks e) :
    made v.offset (v.offset + v.len - 1) (blocks.filter fun s => Overlaps v s)
        (pos + (clamp v b - v.offset)) =
      (rangeOps blocks pos v, pos + (clamp v e - v.offset)) := by
  induction blocks generalizing b with
  | nil =>
    have : b = e := h
    rw [this]
    rfl
  | cons s blocks ih =>
    obtain ⟨hb, hpos, hend, hrest⟩ := h
    have hnext := ih hrest
    by_cases hs : Overlaps v s
    · obtain ⟨hstart, hreach⟩ := hs
      have hop : slotOp v.offset (v.offset + v.len - 1) (pos + (clamp v b - v.offset)) s =
          pairOp pos v s := by
        simp only [slotOp, pairOp, shared, clamp, SlotOp.mk.injEq, true_and]
        split_ifs <;> omega
      have hmove : pos + (clamp v b - v.offset) + (pairOp pos v s).blen =
          pos + (clamp v (b + s.len) - v.offset) := by
        simp only [pairOp, shared, clamp]
        omega
      rw [rangeOps, filter_cons_of_pos (by simpa using ⟨hstart, hreach⟩), made, hop, hmove,
        hnext]
      rfl
    · have hsame : clamp v b = clamp v (b + s.len) := by
        simp only [Overlaps] at hs
        simp only [clamp]
        omega
      rw [rangeOps, filter_cons_of_neg (by simpa using hs), hsame, hnext]
      rfl

/-- The range lies in the segment. -/
def Inside (total : Int) (v : ExIovec) : Prop :=
  0 ≤ v.offset ∧ 0 ≤ v.len ∧ v.offset + v.len ≤ total

instance (total : Int) (v : ExIovec) : Decidable (Inside total v) :=
  inferInstanceAs (Decidable (_ ∧ _))

/-- The bytes of the range lie in the segment. -/
structure Fits (total : Int) (v : ExIovec) : Prop where
  len_nonneg : 0 ≤ v.len
  inside : 0 < v.len → 0 ≤ v.offset ∧ v.offset + v.len ≤ total

theorem Inside.fits (h : Inside total v) : Fits total v := ⟨h.2.1, fun _ => ⟨h.1, h.2.2⟩⟩

theorem made_range (h : Stacked 0 blocks total) (hv : Fits total v) (pos : Int) :
    made v.offset (v.offset + v.len - 1) (search v.offset (v.offset + v.len - 1) blocks) pos =
      (rangeOps blocks pos v, pos + v.len) := by
  obtain ⟨hlen, hin⟩ := hv
  have hmade := made_eq pos hlen h
  have hfirst : pos + (clamp v 0 - v.offset) = pos := by
    simp only [clamp]
    omega
  have hlast : pos + (clamp v total - v.offset) = pos + v.len := by
    simp only [clamp]
    omega
  rw [hfirst, hlast] at hmade
  rw [search_eq hlen h, hmade]

theorem pairOps_cons (v : ExIovec) (iov : List ExIovec) (pos : Int) :
    pairOps blocks pos (v :: iov) = rangeOps blocks pos v ++ pairOps blocks (pos + v.len) iov := rfl

section

variable (h : Stacked 0 blocks total)
include h

/-- Once there is a queue it gets every operation. -/
theorem iovLoop_some (hiov : ∀ v ∈ iov, Fits total v) {ops} (hq : st.q = some ops) :
    (iovLoop blocks iov st).q = some (ops ++ pairOps blocks st.bpos iov) := by
  induction iov generalizing st ops with
  | nil => simpa [iovLoop, pairOps, placed] using hq
  | cons v iov ih =>
    obtain ⟨hq', hpos⟩ := slotLoop_some v.offset (v.offset + v.len - 1)
      (search v.offset (v.offset + v.len - 1) blocks) hq
    rw [made_range h (hiov v (by simp))] at hq' hpos
    have hrest := ih (fun w hw => hiov w (by simp [hw])) hq'
    rw [hpos, append_assoc] at hrest
    exact hrest

/-- One range without a queue: none, one or more operations. -/
theorem iovLoop_cons (hv : Fits total v) (iov : List ExIovec) (hq : st.q = none) :
    ∃ st', iovLoop blocks (v :: iov) st = iovLoop blocks iov st' ∧ st'.bpos = st.bpos + v.len ∧
      match rangeOps blocks st.bpos v with
      | [] => st'.q = none ∧ st'.gop = st.gop
      | [gop] => st'.q = none ∧ st'.gop = some gop
      | ops => st'.q = some ops := by
  obtain ⟨hpos, hcases⟩ := slotLoop_none v.offset (v.offset + v.len - 1)
    (search v.offset (v.offset + v.len - 1) blocks) hq
  rw [made_range h hv] at hpos hcases
  exact ⟨_, rfl, hpos, hcases⟩

/-- Without a queue, an operation that is remembered from an earlier range survives exactly when
there is no other one; otherwise at most the other ones are handed over. -/
theorem iovLoop_none (hiov : ∀ v ∈ iov, Fits total v) (hq : st.q = none) :
    if pairOps blocks st.bpos iov = [] then
      (iovLoop blocks iov st).handed = st.gop.map fun gop => [gop]
    else ((iovLoop blocks iov st).handed.getD []).Sublist (pairOps blocks st.bpos iov) := by
  induction iov generalizing st with
  | nil =>
    simp only [iovLoop, foldl_nil, OpState.handed, hq]
    cases st.gop <;> rfl
  | cons v iov ih =>
    have htail : ∀ w ∈ iov, Fits total w := fun w hw => hiov w (by simp [hw])
    obtain ⟨st', hloop, hpos, hcases⟩ := iovLoop_cons h (hiov v (by simp)) iov hq
    rw [hloop, pairOps_cons, ← hpos]
    rcases hops : rangeOps blocks st.bpos v with _ | ⟨gop, _ | ⟨gop', rest⟩⟩
    · rw [hops] at hcases
      have hnext := ih htail hcases.1
      rw [hcases.2] at hnext
      exact hnext
    · rw [hops] at hcases
      have hnext := ih htail hcases.1
      split_ifs at hnext with hnil
      · rw [hcases.2] at hnext
        simp [hnext]
      · exact hnext.trans (sublist_append_right _ _)
    · rw [hops] at hcases
      have hall := iovLoop_some h htail hcases
      rw [if_neg (by simp), OpState.handed, hall]
      simp

end

theorem pairOps_eq_nil_iff (pos : Int) :
    pairOps blocks pos iov = [] ↔ ∀ w ∈ iov, ∀ b ∈ blocks, ¬Overlaps w b := by
  induction iov generalizing pos with
  | nil => simp [pairOps, placed]
  | cons v iov ih =>
    rw [pairOps_cons, append_eq_nil_iff, ih, forall_mem_cons]
    simp [rangeOps]

/-- The operations handed over are those of all pairs exactly when the first range with a block
has two, or there is no other pair. -/
theorem handed_iff (h : Stacked 0 blocks total) (hiov : ∀ v ∈ iov, Fits total v) (boff : Int) :
    ((iovLoop blocks iov ⟨none, none, boff⟩).handed.getD []).Perm (pairOps blocks boff iov) ↔
      KeepsAll blocks iov := by
  induction iov generalizing boff with
  | nil => simp [iovLoop, OpState.handed, pairOps, placed, KeepsAll]
  | cons v iov ih =>
    have htail : ∀ w ∈ iov, Fits total w := fun w hw => hiov w (by simp [hw])
    obtain ⟨st', hloop, hpos, hcases⟩ := iovLoop_cons h (hiov v (by simp)) iov
      (show (OpState.mk none none boff).q = none from rfl)
    rw [hloop, pairOps_cons, ← hpos, KeepsAll, ← length_rangeOps boff]
    rcases hops : rangeOps blocks boff v with _ | ⟨gop, _ | ⟨gop', rest⟩⟩
    · rw [hops] at hcases
      have hsame : st' = ⟨none, none, st'.bpos⟩ := by
        obtain ⟨gop, q, bpos⟩ := st'
        obtain ⟨rfl, rfl⟩ := hcases
        rfl
      have hnext := ih htail st'.bpos
      rw [← hsame] at hnext
      exact hnext
    · rw [hops] at hcases
      have hnone := iovLoop_none h htail hcases.1
      rw [hcases.2] at hnone
      rw [← pairOps_eq_nil_iff st'.bpos]
      split_ifs at hnone with hnil
      · simp [hnone, hnil]
      · simp only [hnil, length_cons, length_nil, iff_false]
        intro hperm
        have hle := hnone.length_le
        have hlen := hperm.length_eq
        rw [length_append, length_singleton] at hlen
        omega
    · rw [hops] at hcases
      have hall := iovLoop_some h htail hcases
      simp [OpState.handed, hall]

end LStore.Linear
