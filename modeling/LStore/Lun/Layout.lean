import LStore.Base.IntervalList
import Mathlib.Algebra.Order.Ring.Int
import Mathlib.Data.List.Induction
import Mathlib.Tactic.Ring

/-!
# The row layout of a LUN segment

A LUN segment of `src/lio/segment/lun.c` covers its file with rows, each a block
on every device. `_slun_truncate` grows, reserves and shrinks. A grow first
enlarges the last row, falling back to its old size when the padding fails, and
then adds rows one at a time until an allocation fails.

## Implementation notes

The interval list of rows is the ordered list of `IntervalList`, which
`Toolbox.IntervalOrdered` relates to the one of the toolbox. Device operations appear as an
`Outcome`. A row that the grow expects and does not find is a null pointer there, `none` here. The
removal result of a shrink reaches only its status.
-/

namespace LStore.Lun

open IntervalList

/-- The fixed sizes of a LUN segment. -/
structure Geometry where
  nDevices : Nat
  chunkSize : Nat
  maxBlockSize : Nat
  devices_pos : 1 ≤ nDevices
  chunk_pos : 1 ≤ chunkSize
  block_pos : 1 ≤ maxBlockSize
  chunk_dvd : chunkSize ∣ maxBlockSize

namespace Geometry

variable (g : Geometry)

def stripeSize : Int := g.nDevices * g.chunkSize

def maxRowSize : Int := g.maxBlockSize * g.nDevices

/-- Round a size up to the stripe size, as grow and shrink do. -/
def roundStripe (size : Int) : Int :=
  let dsize := size.tdiv g.stripeSize * g.stripeSize
  if 0 < size.tmod g.stripeSize then dsize + g.stripeSize else dsize

end Geometry

/-- `seglun_row_t` without its blocks. -/
structure SeglunRow where
  segOffset : Int
  segEnd : Int
  blockLen : Int
  rowLen : Int
deriving DecidableEq, Repr

instance : Spanned SeglunRow := ⟨SeglunRow.segOffset, SeglunRow.segEnd⟩

@[simp] theorem spanned_lo (r : SeglunRow) : Spanned.lo r = r.segOffset := rfl

@[simp] theorem spanned_hi (r : SeglunRow) : Spanned.hi r = r.segEnd := rfl

/-- The layout part of `lio_seglun_priv_t`. -/
structure Seglun where
  rows : List SeglunRow
  totalSize : Int
  usedSize : Int
deriving DecidableEq, Repr

def Seglun.empty : Seglun := ⟨[], 0, 0⟩

/-- How the device operations of a call turn out: whether padding an enlarged row
fails, whether the `k`-th new row is allocated, whether all removals succeed. -/
structure Outcome where
  padFails : Bool
  alloc : Nat → Bool
  removes : Bool

variable (g : Geometry)

/-- The last row enlarged for `newSize`; with failed padding it gets its old block
length back. -/
def enlargeRow (padFails : Bool) (b : SeglunRow) (newSize : Int) : SeglunRow :=
  let oldLen := b.blockLen
  let dsize := (newSize - b.segOffset).tdiv g.nDevices
  let dsize := dsize + dsize.tmod g.chunkSize
  let dsize := if g.maxBlockSize < dsize then (g.maxBlockSize : Int) else dsize
  let blockLen := if padFails then oldLen else dsize
  { segOffset := b.segOffset
    segEnd := b.segOffset + blockLen * g.nDevices - 1
    blockLen := blockLen
    rowLen := blockLen * g.nDevices }

/-- "Find the last row and see if it needs expanding": the rows, and where the new
rows start. -/
def growLast (padFails : Bool) (s : Seglun) (newSize : Int) : Option (List SeglunRow × Int) :=
  if 0 < s.totalSize then
    match search (s.totalSize - 1) s.totalSize s.rows with
    | [] => none
    | b :: _ =>
      if b.rowLen < g.maxRowSize then
        let b' := enlargeRow g padFails b newSize
        some (insertByLo b' (s.rows.erase b), b'.segEnd + 1)
      else
        some (s.rows, b.segEnd + 1)
  else
    some (s.rows, s.totalSize)

/-- The new row at `off`. -/
def newRow (newSize off : Int) : SeglunRow :=
  let dsize := if newSize < off + g.maxRowSize then newSize - off else g.maxRowSize
  let blockLen := dsize.tdiv g.nDevices
  { segOffset := off
    segEnd := off + blockLen * g.nDevices - 1
    blockLen := blockLen
    rowLen := blockLen * g.nDevices }

/-- How many new rows the loop from `lo` to `newSize` makes. -/
def newRows (lo newSize : Int) : Nat := ((newSize - lo + g.maxRowSize - 1) / g.maxRowSize).toNat

/-- The loop that adds rows. A failed allocation leaves the rows added before it. -/
def growRows (o : Outcome) (lo newSize : Int) (rows : List SeglunRow) :
    Except (List SeglunRow) (List SeglunRow) :=
  (List.range (newRows g lo newSize)).foldlM (fun rows k =>
    if o.alloc k then .ok (insertByLo (newRow g newSize (lo + k * g.maxRowSize)) rows)
    else .error rows) rows

/-- `_seglun_grow` from where `last` lets new rows start: the segment and whether it
succeeded. A negative argument reserves space. -/
def seglunGrowFrom (last : Int → Option (List SeglunRow × Int)) (o : Outcome) (s : Seglun)
    (newSizeArg : Int) : Option (Seglun × Bool) :=
  let newSize := if newSizeArg < 0 then -newSizeArg else newSizeArg
  if newSizeArg < 0 ∧ newSize < s.totalSize then
    some (s, true)
  else
    let newSize := g.roundStripe newSize
    (last newSize).map fun p =>
      match growRows g o p.2 newSize p.1 with
      | .error rows => ({ s with rows := rows }, false)
      | .ok rows =>
        ({ rows := rows
           totalSize := newSize
           usedSize := if -1 < newSizeArg then newSize else s.usedSize }, true)

/-- `_seglun_grow`. -/
def seglunGrow (o : Outcome) (s : Seglun) (newSizeArg : Int) : Option (Seglun × Bool) :=
  seglunGrowFrom g (growLast g o.padFails s) o s newSizeArg

/-- `_seglun_shrink`. -/
def seglunShrink (o : Outcome) (s : Seglun) (newSize : Int) : Seglun × Bool :=
  let newUsed := newSize
  let newSize := g.roundStripe newSize
  match search newSize s.totalSize s.rows with
  | [] => ({ s with totalSize := newSize, usedSize := newUsed }, true)
  | b :: rest =>
    let dsize := newSize - b.segOffset
    let dropped := if dsize = 0 then b :: rest else rest
    let rows := dropped.reverse.foldl List.erase s.rows
    let rows :=
      if dsize = 0 then rows
      else
        insertByLo
          { segOffset := b.segOffset
            segEnd := b.segOffset + dsize - 1
            blockLen := dsize.tdiv g.nDevices
            rowLen := dsize }
          (rows.erase b)
    ({ rows := rows, totalSize := newSize, usedSize := newUsed }, o.removes || newSize = 0)

/-- `_slun_truncate` with the way it grows. -/
def slunTruncateBy (grow : Int → Option (Seglun × Bool)) (o : Outcome) (s : Seglun)
    (newSize : Int) : Option (Seglun × Bool) :=
  if newSize < 0 then
    grow newSize
  else if newSize < s.totalSize then
    some (seglunShrink g o s newSize)
  else if s.totalSize < newSize then
    grow newSize
  else
    some (s, true)

/-- `_slun_truncate`. -/
def slunTruncate (o : Outcome) (s : Seglun) (newSize : Int) : Option (Seglun × Bool) :=
  slunTruncateBy g (seglunGrow g o s) o s newSize

/-- A run of truncate calls. -/
def runCalls (s : Seglun) (calls : List (Int × Outcome)) : Option Seglun :=
  calls.foldlM (fun s c => (slunTruncate g c.2 s c.1).map Prod.fst) s

/-- Each row starts where the one before it ends. -/
def Contiguous : Int → List SeglunRow → Prop
  | _, [] => True
  | off, r :: rows => r.segOffset = off ∧ Contiguous (r.segEnd + 1) rows

instance Contiguous.decidable : (off : Int) → (rows : List SeglunRow) →
    Decidable (Contiguous off rows)
  | _, [] => isTrue trivial
  | off, r :: rows =>
    have := Contiguous.decidable (r.segEnd + 1) rows
    inferInstanceAs (Decidable (r.segOffset = off ∧ Contiguous (r.segEnd + 1) rows))

/-- A correct layout. -/
structure LayoutOk (g : Geometry) (s : Seglun) : Prop where
  disjoint : s.rows.Pairwise fun a b => a.segEnd < b.segOffset ∨ b.segEnd < a.segOffset
  contiguous : Contiguous 0 s.rows
  shape : ∀ r ∈ s.rows, r.segEnd = r.segOffset + r.rowLen - 1 ∧
    r.rowLen = r.blockLen * g.nDevices ∧ r.rowLen ≤ g.maxRowSize
  covers : ∀ o, 0 ≤ o → o < s.totalSize → ∃ r ∈ s.rows, r.segOffset ≤ o ∧ o ≤ r.segEnd

/-- A row as the segment builds it: whole chunks on every device. -/
structure RowOk (g : Geometry) (r : SeglunRow) : Prop where
  chunks : ∃ q : Int, 1 ≤ q ∧ r.blockLen = g.chunkSize * q
  block_le : r.blockLen ≤ g.maxBlockSize
  rowLen : r.rowLen = r.blockLen * g.nDevices
  segEnd : r.segEnd = r.segOffset + r.rowLen - 1

/-- The rows fill `[b, e)` one after another. -/
def Stacked (g : Geometry) : Int → List SeglunRow → Int → Prop
  | b, [], e => b = e
  | b, r :: rows, e => r.segOffset = b ∧ RowOk g r ∧ Stacked g (r.segEnd + 1) rows e

variable {g : Geometry}

theorem nDevices_pos (g : Geometry) : (0 : Int) < g.nDevices := by
  have := g.devices_pos
  omega

theorem chunkSize_pos (g : Geometry) : (0 : Int) < g.chunkSize := by
  have := g.chunk_pos
  omega

theorem stripeSize_pos (g : Geometry) : 0 < g.stripeSize :=
  mul_pos (nDevices_pos g) (chunkSize_pos g)

theorem maxRowSize_pos (g : Geometry) : 0 < g.maxRowSize := by
  have := g.block_pos
  exact mul_pos (by omega) (nDevices_pos g)

theorem stripeSize_dvd_maxRowSize (g : Geometry) : g.stripeSize ∣ g.maxRowSize := by
  obtain ⟨q, hq⟩ := g.chunk_dvd
  refine ⟨q, ?_⟩
  simp only [Geometry.stripeSize, Geometry.maxRowSize, hq]
  push_cast
  ring

/-- Rounding gives the next multiple of the stripe size. -/
theorem roundStripe_spec {x} (hx : 0 ≤ x) :
    g.stripeSize ∣ g.roundStripe x ∧ x ≤ g.roundStripe x ∧ g.roundStripe x < x + g.stripeSize := by
  have hs := stripeSize_pos g
  have hdiv : x.tdiv g.stripeSize * g.stripeSize + x.tmod g.stripeSize = x := Int.tdiv_mul_add_tmod x _
  have hlt := Int.tmod_lt_of_pos x hs
  have hnn := Int.tmod_nonneg g.stripeSize hx
  unfold Geometry.roundStripe
  dsimp only
  split_ifs with hmod
  · refine ⟨?_, by omega, by omega⟩
    exact Int.dvd_add (Int.dvd_mul_left _ _) (Int.dvd_refl _)
  · exact ⟨Int.dvd_mul_left _ _, by omega, by omega⟩

/-- A multiple of the stripe size is shared out to the devices in whole chunks. -/
theorem tdiv_nDevices (q : Int) : (g.stripeSize * q).tdiv g.nDevices = g.chunkSize * q := by
  rw [Geometry.stripeSize, mul_assoc, Int.mul_tdiv_cancel_left _ (ne_of_gt (nDevices_pos g))]

theorem stripe_mul_pos {q : Int} (h : 0 < g.stripeSize * q) : 1 ≤ q := by
  by_contra hq
  have := mul_nonpos_of_nonneg_of_nonpos (le_of_lt (stripeSize_pos g)) (show q ≤ 0 by omega)
  omega

/-- The row of a size that is a multiple of the stripe size. -/
theorem rowOk_of_size {q} {r : SeglunRow} (hpos : 0 < g.stripeSize * q)
    (hle : g.stripeSize * q ≤ g.maxRowSize) (hblock : r.blockLen = g.chunkSize * q)
    (hrow : r.rowLen = r.blockLen * g.nDevices) (hend : r.segEnd = r.segOffset + r.rowLen - 1) :
    RowOk g r := by
  have hlen : r.rowLen = g.stripeSize * q := by
    rw [hrow, hblock, Geometry.stripeSize]
    ring
  refine ⟨⟨q, stripe_mul_pos hpos, hblock⟩, ?_, hrow, hend⟩
  rw [← hlen, hrow, Geometry.maxRowSize] at hle
  exact le_of_mul_le_mul_right hle (nDevices_pos g)

namespace RowOk

variable {r : SeglunRow}

theorem rowLen_eq (h : RowOk g r) : ∃ q : Int, 1 ≤ q ∧ r.rowLen = g.stripeSize * q := by
  obtain ⟨q, hq, hb⟩ := h.chunks
  refine ⟨q, hq, ?_⟩
  rw [h.rowLen, hb, Geometry.stripeSize]
  ring

theorem dvd (h : RowOk g r) : g.stripeSize ∣ r.rowLen := by
  obtain ⟨q, _, hq⟩ := h.rowLen_eq
  exact ⟨q, hq⟩

theorem pos (h : RowOk g r) : 0 < r.rowLen := by
  obtain ⟨q, hq, hrow⟩ := h.rowLen_eq
  rw [hrow]
  exact mul_pos (stripeSize_pos g) (by omega)

theorem le (h : RowOk g r) : r.rowLen ≤ g.maxRowSize := by
  rw [h.rowLen, Geometry.maxRowSize]
  exact mul_le_mul_of_nonneg_right h.block_le (le_of_lt (nDevices_pos g))

end RowOk

namespace Stacked

variable {b e : Int} {rows rows' : List SeglunRow}

theorem le (h : Stacked g b rows e) : b ≤ e := by
  induction rows generalizing b with
  | nil => exact le_of_eq h
  | cons r rows ih =>
    obtain ⟨hb, hr, hrest⟩ := h
    have := ih hrest
    have := hr.pos
    have := hr.segEnd
    omega

theorem append {c} (h : Stacked g b rows c) (h' : Stacked g c rows' e) :
    Stacked g b (rows ++ rows') e := by
  induction rows generalizing b with
  | nil => exact h ▸ h'
  | cons r rows ih => exact ⟨h.1, h.2.1, ih h.2.2⟩

theorem split (h : Stacked g b (rows ++ rows') e) :
    ∃ c, Stacked g b rows c ∧ Stacked g c rows' e := by
  induction rows generalizing b with
  | nil => exact ⟨b, rfl, h⟩
  | cons r rows ih =>
    obtain ⟨c, h₁, h₂⟩ := ih h.2.2
    exact ⟨c, ⟨h.1, h.2.1, h₁⟩, h₂⟩

theorem single {r} (hr : RowOk g r) : Stacked g r.segOffset [r] (r.segEnd + 1) :=
  ⟨rfl, hr, rfl⟩

section

variable (h : Stacked g b rows e)
include h

theorem mem {r} (hr : r ∈ rows) : RowOk g r ∧ b ≤ r.segOffset ∧ r.segEnd < e := by
  induction rows generalizing b with
  | nil => simp at hr
  | cons x rows ih =>
    obtain ⟨hb, hx, hrest⟩ := h
    have hpos := hx.pos
    have hend := hx.segEnd
    rcases List.mem_cons.mp hr with rfl | hr
    · have := Stacked.le hrest
      exact ⟨hx, by omega, by omega⟩
    · obtain ⟨hok, hlo, hhi⟩ := ih hrest hr
      exact ⟨hok, by omega, hhi⟩

theorem dvd (hb : g.stripeSize ∣ b) : g.stripeSize ∣ e := by
  induction rows generalizing b with
  | nil => exact h ▸ hb
  | cons r rows ih =>
    obtain ⟨heq, hr, hrest⟩ := h
    refine ih hrest ?_
    rw [hr.segEnd, heq, show b + r.rowLen - 1 + 1 = b + r.rowLen by omega]
    exact Int.dvd_add hb hr.dvd

theorem apart : rows.Pairwise fun a b => a.segEnd < b.segOffset := by
  induction rows generalizing b with
  | nil => exact List.Pairwise.nil
  | cons r rows ih =>
    refine List.pairwise_cons.mpr ⟨?_, ih h.2.2⟩
    intro x hx
    have := (h.2.2.mem hx).2.1
    omega

/-- A row of the stack is not empty and ends below its end. -/
theorem span {r} (hr : r ∈ rows) : r.segOffset ≤ r.segEnd ∧ r.segEnd < e := by
  obtain ⟨hok, _, hlt⟩ := h.mem hr
  have := hok.pos
  have := hok.segEnd
  omega

theorem ordered : Ordered rows := ⟨fun _ hr => (h.span hr).1, h.apart⟩

/-- A row behind the stack goes to its end. -/
theorem insertByLo_end {r} (hr : e ≤ r.segOffset) : insertByLo r rows = rows ++ [r] := by
  refine insertByLo_last fun x hx => ?_
  have := h.span hx
  simp only [spanned_lo]
  omega

/-- A row behind the stack is not in it. -/
theorem erase_end {r} (hr : e ≤ r.segOffset) : (rows ++ [r]).erase r = rows := by
  have hnot : r ∉ rows := fun hmem => by
    have := h.span hmem
    omega
  rw [List.erase_append_right _ hnot]
  simp

/-- A search from behind the stack does not find its rows. -/
theorem search_skip {c total} (hc : e ≤ c) (post : List SeglunRow) :
    search c total (rows ++ post) = search c total post := by
  have hskip : rows.filter (fun a => Meets c total a) = [] := by
    rw [List.filter_eq_nil_iff]
    intro x hx
    have := h.span hx
    rw [decide_eq_true_eq]
    simp only [Meets, spanned_lo, spanned_hi]
    omega
  rw [search, List.filter_append, hskip, List.nil_append, search]

theorem contiguous : Contiguous b rows := by
  induction rows generalizing b with
  | nil => trivial
  | cons r rows ih => exact ⟨h.1, ih h.2.2⟩

theorem covers {o} (hlo : b ≤ o) (hhi : o < e) : ∃ r ∈ rows, r.segOffset ≤ o ∧ o ≤ r.segEnd := by
  induction rows generalizing b with
  | nil =>
    have : b = e := h
    omega
  | cons r rows ih =>
    by_cases ho : o ≤ r.segEnd
    · exact ⟨r, by simp, by have := h.1; omega, ho⟩
    · obtain ⟨x, hx, hcov⟩ := ih h.2.2 (by omega)
      exact ⟨x, by simp [hx], hcov⟩

end

/-- Stacked rows that reach the total size are a correct layout. -/
theorem layoutOk {s} (h : Stacked g 0 s.rows e) (hle : s.totalSize ≤ e) : LayoutOk g s where
  disjoint := h.apart.imp .inl
  contiguous := h.contiguous
  shape := fun r hr => ⟨(h.mem hr).1.segEnd, (h.mem hr).1.rowLen, (h.mem hr).1.le⟩
  covers := fun _ hlo hhi => h.covers hlo (by omega)

end Stacked

end LStore.Lun
