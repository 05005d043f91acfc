import LStore.Base.Feed
import LStore.Lun.Truncate

/-!
# Cloning a LUN segment

`seglun_clone_func` grows the destination row by row so that its breaks are those of
the source: each row that is not of full length ends a truncate call, and the flag
`grow_break` keeps the next call from enlarging that row. Then every block is copied in
pieces of at most `max_transfer` bytes. The first and the last piece of a block start
at once, the others wait on the stack of the block, and each finished piece starts the
next one of its block.

## Implementation notes

After the loop over the source rows `bs` is null. If the last row was of full length
the code still has to grow the destination and reads `bs->seg_end` there, `none` here.
The blocks of the destination are new, with the `cap_offset` 0 of `_seglun_grow`.
-/

namespace LStore.Lun

open List

variable (g : Geometry)

/-- Where `_seglun_grow` starts new rows when `growBreak` may be set. -/
def growLastBreak (growBreak padFails : Bool) (s : Seglun) (newSize : Int) :
    Option (List SeglunRow × Int) :=
  if growBreak then some (s.rows, s.totalSize) else growLast g padFails s newSize

/-- `_seglun_grow` with the break flag. -/
def seglunGrowBreak (growBreak : Bool) (o : Outcome) (s : Seglun) :
    Int → Option (Seglun × Bool) :=
  seglunGrowFrom g (growLastBreak g growBreak o.padFails s) o s

/-- `_slun_truncate` with the break flag. -/
def slunTruncateBreak (growBreak : Bool) (o : Outcome) (s : Seglun) :
    Int → Option (Seglun × Bool) :=
  slunTruncateBy g (seglunGrowBreak g growBreak o s) o s

/-- A `ds_copy` operation: `len` bytes from a block of the source to the block of the
destination in the same row and on the same device. -/
structure CopyOp where
  row : Nat
  device : Nat
  srcOffset : Int
  dstOffset : Int
  len : Int
deriving DecidableEq, Repr

/-- The stack an operation belongs to. -/
def CopyOp.block (c : CopyOp) : Nat × Nat := (c.row, c.device)

/-- How the operations of a clone turn out, and in which order the copies finish. -/
structure CloneRun where
  trunc : Bool
  maxTransfer : Int
  grow : Nat → Outcome
  copies : CopyOp → Bool
  pick : Nat → Nat

/-- The destination while it grows, with its `grow_break`, and the local `row_size`. -/
structure GrowState where
  dest : Seglun
  growBreak : Bool
  rowSize : Int

/-- "Grow the file size but keep the same breaks as the original". A failed grow ends the
clone. -/
def cloneGrow (run : CloneRun) (usedSize : Int) :
    Nat → List SeglunRow → GrowState → Option (Except Seglun GrowState)
  | _, [], st => some (.ok st)
  | i, bs :: rows, st =>
    if bs.rowLen ≠ g.maxRowSize then
      match slunTruncateBreak g st.growBreak (run.grow i) st.dest (bs.segEnd + 1) with
      | none => none
      | some (dest, false) => some (.error dest)
      | some (dest, true) =>
        cloneGrow run usedSize (i + 1) rows ⟨{ dest with usedSize := usedSize }, true, -1⟩
    else
      cloneGrow run usedSize (i + 1) rows { st with rowSize := bs.rowLen }

/-- "Do the final grow if needed". -/
def finalGrow (run : CloneRun) (usedSize : Int) (i : Nat) (bs : Option SeglunRow)
    (st : GrowState) : Option (Except Seglun GrowState) :=
  if st.rowSize ≠ -1 then
    match bs with
    | none => none
    | some bs =>
      match slunTruncateBreak g st.growBreak (run.grow i) st.dest (bs.segEnd + 1) with
      | none => none
      | some (dest, false) => some (.error dest)
      | some (dest, true) => some (.ok { st with dest := { dest with usedSize := usedSize } })
  else
    some (.ok st)

/-- The copies of one block up to `stop`, each with whether it starts at once. The loop
ends for a positive `max_transfer`; exhausted fuel is `none`. -/
def copyLoop (maxTransfer : Int) (row device : Nat) (stop : Int) :
    Nat → Nat → Int → Int → Option (List (CopyOp × Bool))
  | 0, _, _, _ => none
  | fuel + 1, k, offset, dOffset =>
    if stop ≤ offset + maxTransfer then
      some [(⟨row, device, offset, dOffset, stop - offset⟩, true)]
    else
      (copyLoop maxTransfer row device stop fuel (k + 1) (offset + maxTransfer)
        (dOffset + maxTransfer)).map
        ((⟨row, device, offset, dOffset, maxTransfer⟩, decide (k < 1)) :: ·)

/-- The copies of the blocks of a row on the given devices. -/
def copyRow (maxTransfer : Int) (cap : SeglunRow → Nat → Int) (row : Nat) (bs : SeglunRow) :
    List Nat → Option (List (CopyOp × Bool))
  | [] => some []
  | i :: devices =>
    match copyLoop maxTransfer row i (cap bs i + bs.blockLen) (bs.blockLen.toNat + 1) 0 (cap bs i)
        0, copyRow maxTransfer cap row bs devices with
    | some here, some rest => some (here ++ rest)
    | _, _ => none

/-- "Generate the copy list". Each row of the source needs one of the destination. -/
def copyList (maxTransfer : Int) (cap : SeglunRow → Nat → Int) :
    Nat → List SeglunRow → List SeglunRow → Option (List (CopyOp × Bool))
  | _, [], _ => some []
  | _, _ :: _, [] => none
  | row, bs :: src, _ :: dst =>
    match copyRow maxTransfer cap row bs (List.range g.nDevices),
        copyList maxTransfer cap (row + 1) src dst with
    | some here, some rest => some (here ++ rest)
    | _, _ => none

/-- What a clone leaves: the destination, the returned status and the copies made. -/
structure CloneResult where
  dest : Seglun
  ok : Bool
  copies : List CopyOp

/-- Start the copies and collect each one. -/
def runCopies (run : CloneRun) (ops : List (CopyOp × Bool)) : Option (List CopyOp) :=
  Feed.collect CopyOp.block run.pick ops.length
    ⟨(ops.filter fun c => c.2).map Prod.fst, (ops.filter fun c => !c.2).map Prod.fst⟩

/-- The clone into a destination that has been truncated. The loop over the rows leaves a null
`bs` for the final grow. -/
def cloneInto (run : CloneRun) (cap : SeglunRow → Nat → Int) (ss sd : Seglun) :
    Option CloneResult :=
  if ss.totalSize = 0 then
    some ⟨sd, true, []⟩
  else
    match cloneGrow g run ss.usedSize 0 ss.rows ⟨sd, false, -1⟩ with
    | none => none
    | some (.error dest) => some ⟨dest, false, []⟩
    | some (.ok st) =>
      match finalGrow g run ss.usedSize ss.rows.length none st with
      | none => none
      | some (.error dest) => some ⟨dest, false, []⟩
      | some (.ok st) =>
        (copyList g run.maxTransfer cap 0 ss.rows st.dest.rows).bind fun ops =>
          (runCopies run ops).map fun copies =>
            ⟨st.dest, copies.all run.copies, copies⟩

/-- `seglun_clone_func`, with the `cap_offset` of each block of the source. -/
def seglunCloneFunc (run : CloneRun) (cap : SeglunRow → Nat → Int) (ss sd : Seglun) :
    Option CloneResult :=
  if run.trunc then
    (slunTruncateBreak g false Outcome.good sd 0).bind fun p => cloneInto g run cap ss p.1
  else
    cloneInto g run cap ss sd

variable {g : Geometry}

variable {lo e newSize : Int} {rows pend : List SeglunRow} {r : SeglunRow}

theorem RowOk.block_pos (hr : RowOk g r) : 0 < r.blockLen := by
  obtain ⟨q, hq, hblock⟩ := hr.chunks
  rw [hblock]
  exact mul_pos (chunkSize_pos g) (by omega)

theorem newRow_eq (hr : RowOk g r)
    (hlen : (if newSize < r.segOffset + g.maxRowSize then newSize - r.segOffset else g.maxRowSize) =
      r.rowLen) : newRow g newSize r.segOffset = r := by
  have hblock : r.rowLen.tdiv g.nDevices = r.blockLen := by
    rw [hr.rowLen, Int.mul_tdiv_cancel _ (ne_of_gt (nDevices_pos g))]
  have hend := hr.segEnd
  have hrow := hr.rowLen
  simp only [newRow, hlen, hblock]
  obtain ⟨off, fin, block, row⟩ := r
  dsimp only at hend hrow ⊢
  rw [hend, hrow]

theorem added_zero_cons (lo newSize : Int) (k : Nat) :
    added g lo newSize (k + 1) =
      newRow g newSize lo :: added g (lo + g.maxRowSize) newSize k := by
  simp only [added, range_succ_eq_map, map_cons, map_map]
  refine congrArg₂ List.cons (by simp) (map_congr_left fun j _ => ?_)
  simp only [Function.comp_apply]
  congr 1
  push_cast
  ring

theorem newRows_step (hlt : lo < newSize) :
    newRows g lo newSize = newRows g (lo + g.maxRowSize) newSize + 1 := by
  refine eq_of_forall_lt_iff fun k => ?_
  rw [lt_newRows_iff]
  cases k with
  | zero => simpa using hlt
  | succ k =>
    rw [Nat.add_lt_add_iff_right, lt_newRows_iff]
    push_cast
    rw [add_mul, one_mul]
    omega

/-- The rows a grow adds are the full rows and the row that ends the grow. -/
theorem added_eq (hst : Stacked g lo (pend ++ [r]) e)
    (hfull : ∀ x ∈ pend, x.rowLen = g.maxRowSize) :
    added g lo e (newRows g lo e) = pend ++ [r] := by
  induction pend generalizing lo with
  | nil =>
    obtain ⟨hoff, hr, hend⟩ := hst
    have hend : r.segEnd + 1 = e := hend
    have hpos := hr.pos
    have hle := hr.le
    have hsegEnd := hr.segEnd
    have hnone : newRows g (lo + g.maxRowSize) e = 0 := by
      by_contra hne
      have := (lt_newRows_iff g (lo + g.maxRowSize) e 0).mp (by omega)
      omega
    rw [newRows_step (by omega), hnone, added_zero_cons, ← hoff, newRow_eq hr ?_]
    · rfl
    · split_ifs <;> omega
  | cons x pend ih =>
    obtain ⟨hxlen, hfull'⟩ := forall_mem_cons.mp hfull
    obtain ⟨hoff, hx, hrest⟩ := hst
    have hsegEnd := hx.segEnd
    have hpos := hx.pos
    have hnext : x.segEnd + 1 = lo + g.maxRowSize := by omega
    have hle := Stacked.le hrest
    rw [hnext] at hrest
    rw [newRows_step (by omega), added_zero_cons, ih hrest hfull',
      ← hoff, newRow_eq hx ?_]
    · rfl
    · split_ifs <;> omega

theorem firstFailure_none {o} (halloc : ∀ k, o.alloc k = true) (n : Nat) :
    firstFailure o n = none := by
  simp [firstFailure, halloc]

/-- A grow to the end of a row that is not full adds that row and the full rows in front of
it. -/
theorem truncate_adds {dest growBreak o} (halloc : ∀ k, o.alloc k = true)
    (hbreak : growBreak = true ∨ dest.totalSize = 0)
    (hdest : Stacked g 0 dest.rows dest.totalSize)
    (hst : Stacked g dest.totalSize (pend ++ [r]) e) (hfull : ∀ x ∈ pend, x.rowLen = g.maxRowSize) :
    slunTruncateBreak g growBreak o dest e =
      some (⟨dest.rows ++ (pend ++ [r]), e, e⟩, true) := by
  have hnn : 0 ≤ dest.totalSize := hdest.le
  obtain ⟨c, hpend, hlast⟩ := hst.split
  have hlt : dest.totalSize < e := by
    have hc := hpend.le
    obtain ⟨hoff, hr, hend⟩ := hlast
    have hend : r.segEnd + 1 = e := hend
    have := hr.pos
    have := hr.segEnd
    omega
  have hlo : g.stripeSize ∣ dest.totalSize := hdest.dvd ⟨0, rfl⟩
  have he : g.stripeSize ∣ e := hst.dvd hlo
  have hround : g.roundStripe e = e := by
    obtain ⟨hdvd, hge, hltr⟩ := roundStripe_spec (g := g) (show 0 ≤ e by omega)
    exact le_antisymm (le_of_dvd_of_lt hdvd he hltr) hge
  have hlastrow : growLastBreak g growBreak o.padFails dest e =
      some (dest.rows, dest.totalSize) := by
    rcases hbreak with htrue | hzero
    · rw [growLastBreak, htrue, if_pos rfl]
    · have hempty : growLast g o.padFails dest e = some (dest.rows, dest.totalSize) := by
        rw [growLast, if_neg (by omega)]
      rw [growLastBreak, hempty]
      exact ite_self _
  have hrows : growRows g o dest.totalSize e dest.rows = .ok (dest.rows ++ (pend ++ [r])) := by
    rw [growRows_spec hdest hlo he, firstFailure_none halloc, added_eq hst hfull]
  rw [slunTruncateBreak, slunTruncateBy, if_neg (by omega), if_neg (by omega), if_pos hlt,
    seglunGrowBreak, seglunGrowFrom]
  simp [show ¬e < 0 by omega, hround, hlastrow, hrows, show (-1 : Int) < e by omega]

/-- The destination while it grows, and the full rows it still lacks in front of `c`. -/
structure Growing (g : Geometry) (usedSize : Int) (st : GrowState) (pend : List SeglunRow)
    (c : Int) : Prop where
  breaks : st.growBreak = true ∨ st.dest.totalSize = 0
  dest : Stacked g 0 st.dest.rows st.dest.totalSize
  lacks : Stacked g st.dest.totalSize pend c
  full : ∀ x ∈ pend, x.rowLen = g.maxRowSize
  size : st.rowSize = if pend = [] then -1 else g.maxRowSize
  used : st.dest.rows = [] ∨ st.dest.usedSize = usedSize
  ends : ¬EndsFull g st.dest.rows

variable {run : CloneRun} {usedSize c : Int} {st : GrowState} {bs : SeglunRow}

/-- A full row waits for the next grow. -/
theorem Growing.pass (h : Growing g usedSize st pend c) (hone : Stacked g c [bs] (bs.segEnd + 1))
    (hlen : bs.rowLen = g.maxRowSize) :
    Growing g usedSize { st with rowSize := bs.rowLen } (pend ++ [bs]) (bs.segEnd + 1) :=
  { h with
    lacks := h.lacks.append hone
    full := forall_mem_append.mpr ⟨h.full, forall_mem_singleton.mpr hlen⟩
    size := by
      rw [if_neg (by simp)]
      exact hlen }

/-- A row that is not full is the last one of a grow. -/
theorem Growing.grow (h : Growing g usedSize st pend c) (hone : Stacked g c [bs] (bs.segEnd + 1))
    (hlen : bs.rowLen ≠ g.maxRowSize) :
    Growing g usedSize
      ⟨⟨st.dest.rows ++ (pend ++ [bs]), bs.segEnd + 1, usedSize⟩, true, -1⟩ [] (bs.segEnd + 1) where
  breaks := .inl rfl
  dest := h.dest.append (h.lacks.append hone)
  lacks := rfl
  full := by simp
  size := rfl
  used := .inr rfl
  ends := by
    rintro ⟨init, last, heq, hlast⟩
    rw [← append_assoc] at heq
    have hsame := append_inj_right' heq rfl
    rw [List.cons.injEq] at hsame
    exact hlen (hsame.1 ▸ hlast)

/-- The loop over the source rows leaves the rows up to the last one that is not full. -/
theorem Growing.cloneGrow (halloc : ∀ i k, (run.grow i).alloc k = true) {i rest}
    (h : Growing g usedSize st pend c) (hrest : Stacked g c rest e) :
    ∃ st' pend', cloneGrow g run usedSize i rest st = some (.ok st') ∧
      st.dest.rows ++ pend ++ rest = st'.dest.rows ++ pend' ∧
      Growing g usedSize st' pend' e := by
  induction rest generalizing st pend c i with
  | nil =>
    obtain rfl : c = e := hrest
    exact ⟨st, pend, rfl, by simp, h⟩
  | cons bs rest ih =>
    obtain ⟨hoff, hbs, hrest⟩ := hrest
    have hone : Stacked g c [bs] (bs.segEnd + 1) := ⟨hoff, hbs, rfl⟩
    by_cases hlen : bs.rowLen = g.maxRowSize
    · obtain ⟨st', pend', hrun, happ, h'⟩ := ih (i := i + 1) (h.pass hone hlen) hrest
      rw [Lun.cloneGrow, if_neg (by simpa using hlen)]
      refine ⟨st', pend', hrun, ?_, h'⟩
      rw [← happ]
      simp
    · obtain ⟨st', pend', hrun, happ, h'⟩ := ih (i := i + 1) (h.grow hone hlen) hrest
      rw [Lun.cloneGrow, if_pos (by simpa using hlen),
        truncate_adds (halloc i) h.breaks h.dest (h.lacks.append hone) h.full]
      refine ⟨st', pend', hrun, ?_, h'⟩
      rw [← happ]
      simp

variable {maxTransfer : Int} {row device : Nat}

/-- The copy reads the offset `x` of the block. -/
def CopyOp.Reads (c : CopyOp) (block : Nat × Nat) (x : Int) : Prop :=
  c.block = block ∧ c.srcOffset ≤ x ∧ x < c.srcOffset + c.len

instance (c : CopyOp) (block : Nat × Nat) (x : Int) : Decidable (c.Reads block x) :=
  inferInstanceAs (Decidable (_ ∧ _))

/-- The copies read every offset of every block once and no other, and write each byte to the
offset it has in its block. -/
structure CopiesBlocks (g : Geometry) (cap : SeglunRow → Nat → Int) (rows : List SeglunRow)
    (copies : List CopyOp) : Prop where
  block : ∀ c ∈ copies, ∃ b, rows[c.row]? = some b ∧ c.device < g.nDevices ∧
    c.srcOffset = cap b c.device + c.dstOffset
  once : ∀ row b, rows[row]? = some b → ∀ device < g.nDevices, ∀ x,
    copies.countP (fun c => c.Reads (row, device) x) =
      if cap b device ≤ x ∧ x < cap b device + b.blockLen then 1 else 0

/-- The copies of the blocks in `S`, which start at `cap` and have length `len`: each offset is
read once, and some copy of each block starts at once. -/
structure Tiles (cap len : Nat × Nat → Int) (S : Nat × Nat → Prop) (ops : List (CopyOp × Bool)) :
    Prop where
  block : ∀ c ∈ ops, S c.1.block ∧ c.1.srcOffset = cap c.1.block + c.1.dstOffset
  once : ∀ b, S b → ∀ x, ops.countP (fun c => c.1.Reads b x) =
    if cap b ≤ x ∧ x < cap b + len b then 1 else 0
  fed : ∀ c ∈ ops, ∃ d ∈ ops, d.2 = true ∧ d.1.block = c.1.block

variable {cap len : Nat × Nat → Int} {S T : Nat × Nat → Prop} {ops ops' : List (CopyOp × Bool)}

theorem Tiles.nil (hS : ∀ b, ¬S b) : Tiles cap len S [] :=
  ⟨by simp, fun b hb => absurd hb (hS b), by simp⟩

theorem Tiles.reads_none (h : Tiles cap len S ops) {b} (hb : ¬S b) (x : Int) :
    ops.countP (fun c => c.1.Reads b x) = 0 := by
  rw [countP_eq_zero]
  intro c hc
  rw [decide_eq_true_eq]
  rintro ⟨hblock, _⟩
  exact hb (hblock ▸ (h.block c hc).1)

theorem Tiles.append (h : Tiles cap len S ops) (h' : Tiles cap len T ops')
    (hdisj : ∀ b, S b → ¬T b) {U} (hU : ∀ b, U b ↔ S b ∨ T b) : Tiles cap len U (ops ++ ops') where
  block := forall_mem_append.mpr
    ⟨fun c hc => (h.block c hc).imp_left fun hS => (hU _).mpr (.inl hS),
      fun c hc => (h'.block c hc).imp_left fun hT => (hU _).mpr (.inr hT)⟩
  once := by
    intro b hb x
    rcases (hU b).mp hb with hb | hb
    · rw [countP_append, h.once b hb, h'.reads_none (hdisj b hb), add_zero]
    · rw [countP_append, h'.once b hb, h.reads_none (fun hS => hdisj b hS hb), zero_add]
  fed := forall_mem_append.mpr
    ⟨fun c hc => (h.fed c hc).imp fun _ hd => hd.imp_left (mem_append_left _),
      fun c hc => (h'.fed c hc).imp fun _ hd => hd.imp_left (mem_append_right _)⟩

/-- The loop over a block tiles it, and its first copy starts at once. -/
theorem copyLoop_spec (hmax : 1 ≤ maxTransfer) {stop offset fuel} (k : Nat) (dOffset : Int)
    (hlt : offset < stop) (hfuel : (stop - offset).toNat < fuel) :
    ∃ c ops, copyLoop maxTransfer row device stop fuel k offset dOffset = some (c :: ops) ∧
      (k = 0 → c.2 = true) ∧
      (∀ d ∈ c :: ops, d.1.block = (row, device) ∧ d.1.srcOffset - d.1.dstOffset = offset - dOffset) ∧
      ∀ x, (c :: ops).countP (fun c => c.1.Reads (row, device) x) =
        if offset ≤ x ∧ x < stop then 1 else 0 := by
  induction fuel generalizing k offset dOffset with
  | zero => omega
  | succ fuel ih =>
    rw [copyLoop]
    split_ifs with hend
    · refine ⟨_, [], rfl, fun _ => rfl, ?_, fun x => ?_⟩
      · intro c hc
        rw [mem_singleton.mp hc]
        exact ⟨rfl, rfl⟩
      · rw [countP_singleton]
        refine if_congr ?_ rfl rfl
        simp only [CopyOp.Reads, CopyOp.block, decide_eq_true_eq, true_and]
        omega
    · obtain ⟨c, ops, hrun, _, hblock, honce⟩ :=
        @ih (offset + maxTransfer) (k + 1) (dOffset + maxTransfer) (by omega) (by omega)
      rw [hrun]
      refine ⟨_, c :: ops, rfl, fun hk => by simp [hk], ?_, fun x => ?_⟩
      · intro d hd
        rcases mem_cons.mp hd with rfl | hd
        · exact ⟨rfl, rfl⟩
        · obtain ⟨hd, hsrc⟩ := hblock d hd
          exact ⟨hd, by omega⟩
      · rw [countP_cons, honce]
        simp only [CopyOp.Reads, CopyOp.block, decide_eq_true_eq, true_and]
        split_ifs <;> omega

variable {cap : SeglunRow → Nat → Int} {capAt lenAt : Nat × Nat → Int}

theorem copyLoop_tiles (hmax : 1 ≤ maxTransfer) {offset len} (hpos : 0 < len)
    (hcap : capAt (row, device) = offset) (hlen : lenAt (row, device) = len) :
    ∃ ops, copyLoop maxTransfer row device (offset + len) (len.toNat + 1) 0 offset 0 = some ops ∧
      Tiles capAt lenAt (fun b => b = (row, device)) ops := by
  obtain ⟨c, ops, hrun, hstart, hblock, honce⟩ :=
    copyLoop_spec hmax 0 0 (show offset < offset + len by omega)
      (show (offset + len - offset).toNat < len.toNat + 1 by omega)
  refine ⟨c :: ops, hrun, fun d hd => ?_, fun b hb x => ?_, fun d hd => ?_⟩
  · obtain ⟨hd, hsrc⟩ := hblock d hd
    refine ⟨hd, ?_⟩
    rw [hd, hcap]
    omega
  · rw [hb, hcap, hlen]
    exact honce x
  · exact ⟨c, mem_cons_self, hstart rfl,
      (hblock c mem_cons_self).1.trans (hblock d hd).1.symm⟩

theorem copyRow_tiles (hmax : 1 ≤ maxTransfer) (hpos : 0 < bs.blockLen) {devices}
    (hnodup : devices.Nodup) (hcap : ∀ i, capAt (row, i) = cap bs i)
    (hlen : ∀ i, lenAt (row, i) = bs.blockLen) :
    ∃ ops, copyRow maxTransfer cap row bs devices = some ops ∧
      Tiles capAt lenAt (fun b => b.1 = row ∧ b.2 ∈ devices) ops := by
  induction devices with
  | nil =>
    exact ⟨[], rfl, Tiles.nil (by simp)⟩
  | cons i devices ih =>
    obtain ⟨hi, hnodup⟩ := nodup_cons.mp hnodup
    obtain ⟨rest, hrest, htiles⟩ := ih hnodup
    obtain ⟨ops, hrun, hblock⟩ := copyLoop_tiles hmax hpos (hcap i) (hlen i)
    refine ⟨ops ++ rest, by rw [copyRow, hrun, hrest], ?_⟩
    refine hblock.append htiles ?_ ?_
    · rintro b rfl ⟨_, hmem⟩
      exact hi hmem
    · rintro ⟨r, d⟩
      simp only [mem_cons, Prod.mk.injEq]
      tauto

/-- The copy list tiles every block of every row. -/
theorem copyList_tiles (hmax : 1 ≤ maxTransfer) {src dst} (hpos : ∀ b ∈ src, 0 < b.blockLen)
    (hle : src.length ≤ dst.length)
    (hat : ∀ k b, src[k]? = some b → ∀ i, capAt (row + k, i) = cap b i ∧ lenAt (row + k, i) =
      b.blockLen) :
    ∃ ops, copyList g maxTransfer cap row src dst = some ops ∧
      Tiles capAt lenAt (fun b => row ≤ b.1 ∧ b.1 < row + src.length ∧ b.2 < g.nDevices) ops := by
  induction src generalizing row dst with
  | nil =>
    refine ⟨[], by cases dst <;> rfl, Tiles.nil ?_⟩
    rintro b ⟨hlo, hhi, _⟩
    rw [length_nil] at hhi
    omega
  | cons bs src ih =>
    obtain ⟨bd, dst, rfl⟩ : ∃ bd dst', dst = bd :: dst' :=
      exists_cons_of_length_pos (by rw [length_cons] at hle; omega)
    have hnext : ∀ k b, src[k]? = some b →
        ∀ i, capAt (row + 1 + k, i) = cap b i ∧ lenAt (row + 1 + k, i) = b.blockLen := by
      intro k b hb i
      rw [add_assoc, add_comm 1 k]
      exact hat (k + 1) b (by simpa using hb) i
    obtain ⟨rest, hrest, htiles⟩ := ih (fun b hb => hpos b (by simp [hb]))
      (show src.length ≤ dst.length by simpa using hle) hnext
    have hfirst := hat 0 bs rfl
    obtain ⟨ops, hrun, hrow⟩ := copyRow_tiles hmax (hpos bs (by simp))
      (nodup_range (n := g.nDevices)) (fun i => (hfirst i).1) (fun i => (hfirst i).2)
    rw [add_zero] at hrun hrow
    refine ⟨ops ++ rest, by rw [copyList, hrun, hrest], hrow.append htiles ?_ ?_⟩
    · rintro b ⟨rfl, _⟩ ⟨hgt, _⟩
      omega
    · rintro ⟨r, d⟩
      simp only [mem_range, length_cons]
      omega

/-- Every copy is made, in whatever order they finish. -/
theorem Tiles.runCopies {S ops} (h : Tiles capAt lenAt S ops) (run : CloneRun) :
    ∃ copies, runCopies run ops = some copies ∧ copies.Perm (ops.map Prod.fst) := by
  obtain ⟨p, hp⟩ : ∃ p : Feed.Pool CopyOp, p = ⟨(ops.filter fun c => c.2).map Prod.fst,
    (ops.filter fun c => !c.2).map Prod.fst⟩ := ⟨_, rfl⟩
  have hall : (p.running ++ p.waiting).Perm (ops.map Prod.fst) := by
    rw [hp, ← map_append]
    exact (filter_append_perm (fun c => c.2) ops).map Prod.fst
  have hfed : Feed.Fed CopyOp.block p := by
    rw [hp]
    intro w hw
    obtain ⟨c, hc, rfl⟩ := mem_map.mp hw
    obtain ⟨d, hd, hstart, hblock⟩ := h.fed c (mem_of_mem_filter hc)
    exact ⟨d.1, mem_map_of_mem (mem_filter.mpr ⟨hd, hstart⟩), hblock⟩
  obtain ⟨copies, hrun, hperm⟩ := hfed.collect run.pick
    (show (p.running ++ p.waiting).length = ops.length by rw [hall.length_eq, length_map])
  refine ⟨copies, ?_, hperm.trans hall⟩
  rw [Lun.runCopies, ← hp]
  exact hrun

/-- The copies of a row list into as many rows. -/
theorem copies_blocks (cap : SeglunRow → Nat → Int) (hmax : 1 ≤ maxTransfer) {rows}
    (hpos : ∀ b ∈ rows, 0 < b.blockLen) (run : CloneRun) :
    ∃ ops copies, copyList g maxTransfer cap 0 rows rows = some ops ∧
      runCopies run ops = some copies ∧ CopiesBlocks g cap rows copies := by
  obtain ⟨capAt, hcapAt⟩ : ∃ f : Nat × Nat → Int,
    f = fun b => (rows[b.1]?).elim 0 fun r => cap r b.2 := ⟨_, rfl⟩
  obtain ⟨lenAt, hlenAt⟩ : ∃ f : Nat × Nat → Int,
    f = fun b => (rows[b.1]?).elim 0 SeglunRow.blockLen := ⟨_, rfl⟩
  have hat : ∀ k b, rows[k]? = some b →
      ∀ i, capAt (k, i) = cap b i ∧ lenAt (k, i) = b.blockLen := by
    intro k b hb i
    simp [hcapAt, hlenAt, hb]
  obtain ⟨ops, hops, htiles⟩ := copyList_tiles (g := g) hmax hpos le_rfl
    (show ∀ k b, rows[k]? = some b →
      ∀ i, capAt (0 + k, i) = cap b i ∧ lenAt (0 + k, i) = b.blockLen by simpa using hat)
  obtain ⟨copies, hrun, hperm⟩ := htiles.runCopies run
  refine ⟨ops, copies, hops, hrun, fun c hc => ?_, fun row b hb device hdev x => ?_⟩
  · obtain ⟨d, hd, rfl⟩ := mem_map.mp (hperm.mem_iff.mp hc)
    obtain ⟨⟨_, hrow, hdev⟩, hsrc⟩ := htiles.block d hd
    rw [zero_add] at hrow
    obtain ⟨b, hb⟩ : ∃ b, rows[d.1.row]? = some b := ⟨_, List.getElem?_eq_getElem hrow⟩
    exact ⟨b, hb, hdev, hsrc.trans (by rw [← (hat _ b hb d.1.device).1]; rfl)⟩
  · have hcount := htiles.once (row, device)
      ⟨Nat.zero_le _, by simpa using (List.getElem?_eq_some_iff.mp hb).1, hdev⟩ x
    rw [(hat row b hb device).1, (hat row b hb device).2] at hcount
    rw [hperm.countP_eq, countP_map, ← hcount]
    rfl

variable {ss : Seglun}

/-- A source with a valid row layout: the rows stack up from offset 0 and cover the segment, an
empty segment has no rows, and no more is used than there is. -/
structure CloneSource (g : Geometry) (ss : Seglun) : Prop where
  stacked : ∃ e, Stacked g 0 ss.rows e ∧ ss.totalSize ≤ e
  nonempty : ss.rows ≠ [] → 0 < ss.totalSize
  used : 0 ≤ ss.usedSize ∧ ss.usedSize ≤ ss.totalSize

/-- The clone succeeds, the destination has the rows and the used size of the source, and each
block is copied exactly once. -/
def Reproduces (g : Geometry) (cap : SeglunRow → Nat → Int) (ss : Seglun)
    (res : Option CloneResult) : Prop :=
  ∃ r, res = some r ∧ r.ok = true ∧ r.dest.rows = ss.rows ∧ r.dest.usedSize = ss.usedSize ∧
    CopiesBlocks g cap ss.rows r.copies

theorem CloneSource.rows_of_total (h : CloneSource g ss) (hzero : ss.totalSize = 0) :
    ss.rows = [] ∧ ss.usedSize = 0 := by
  have hused := h.used
  refine ⟨?_, by omega⟩
  by_contra hne
  have := h.nonempty hne
  omega

theorem CloneSource.total_of_rows (h : CloneSource g ss) (hne : ss.totalSize ≠ 0) :
    ss.rows ≠ [] := by
  intro hnil
  obtain ⟨e, hst, hle⟩ := h.stacked
  rw [hnil] at hst
  have : (0 : Int) = e := hst
  have := h.used
  omega

/-- The growth of an empty destination: the rows up to the last one that is not full, and full
rows that are missing. -/
theorem CloneSource.grown (h : CloneSource g ss) (halloc : ∀ i k, (run.grow i).alloc k = true) :
    ∃ st pend e, cloneGrow g run ss.usedSize 0 ss.rows ⟨Seglun.empty, false, -1⟩ = some (.ok st) ∧
      ss.rows = st.dest.rows ++ pend ∧ Growing g ss.usedSize st pend e := by
  obtain ⟨e, hst, _⟩ := h.stacked
  have hstart : Growing g ss.usedSize ⟨Seglun.empty, false, -1⟩ [] 0 :=
    ⟨.inr rfl, rfl, rfl, by simp, rfl, .inl rfl, by
      rintro ⟨init, last, heq, _⟩
      simp [Seglun.empty] at heq⟩
  obtain ⟨st, pend, hrun, happ, hgrow⟩ := hstart.cloneGrow halloc hst
  exact ⟨st, pend, e, hrun, happ, hgrow⟩

theorem Growing.endsFull_iff {usedSize c st pend} (h : Growing g usedSize st pend c) :
    EndsFull g (st.dest.rows ++ pend) ↔ pend ≠ [] := by
  rcases eq_nil_or_concat pend with rfl | ⟨init, last, rfl⟩
  · simpa using h.ends
  · refine ⟨fun _ => by simp, fun _ => ⟨st.dest.rows ++ init, last, by simp, ?_⟩⟩
    exact h.full last (by simp)

/-- With all allocations and copies succeeding, a clone into an empty segment reproduces the
source if and only if the last row of the source is not of full length. -/
theorem clone_reproduces_iff (hss : CloneSource g ss)
    (halloc : ∀ i k, (run.grow i).alloc k = true) (hcopies : ∀ c, run.copies c = true)
    (hmax : 1 ≤ run.maxTransfer) :
    Reproduces g cap ss (seglunCloneFunc g run cap ss Seglun.empty) ↔ ¬EndsFull g ss.rows := by
  rw [show seglunCloneFunc g run cap ss .empty = cloneInto g run cap ss .empty from ite_self _]
  by_cases hzero : ss.totalSize = 0
  · obtain ⟨hrows, hused⟩ := hss.rows_of_total hzero
    rw [cloneInto, if_pos hzero, hrows]
    refine ⟨fun _ => by rintro ⟨init, last, heq, _⟩; simp at heq, fun _ => ?_⟩
    exact ⟨_, rfl, rfl, hrows.symm, hused.symm, by simp, by simp [hrows]⟩
  · obtain ⟨st, pend, e, hgrow, happ, hst⟩ := hss.grown halloc
    have hends := hst.endsFull_iff
    rw [← happ] at hends
    rw [hends, not_not, cloneInto, if_neg hzero, hgrow]
    constructor
    · rintro ⟨r, hrun, _⟩
      by_contra hne
      have hsize := hst.size
      rw [if_neg hne] at hsize
      have hpos := maxRowSize_pos g
      have hfinal : finalGrow g run ss.usedSize ss.rows.length none st = none := by
        rw [finalGrow, if_pos (by omega)]
      simp [hfinal, reduceCtorEq] at hrun
    · rintro rfl
      rw [append_nil] at happ
      have hfinal : finalGrow g run ss.usedSize ss.rows.length none st = some (.ok st) := by
        rw [finalGrow, if_neg (by simpa using hst.size)]
      obtain ⟨_, hstacked, _⟩ := hss.stacked
      have hpos : ∀ b ∈ ss.rows, 0 < b.blockLen := fun b hb => (hstacked.mem hb).1.block_pos
      obtain ⟨ops, copies, hops, hmade, hblocks⟩ :=
        copies_blocks (g := g) cap hmax hpos run
      refine ⟨⟨st.dest, copies.all run.copies, copies⟩, ?_, by simp [hcopies], happ.symm,
        hst.used.resolve_left (happ ▸ hss.total_of_rows hzero), hblocks⟩
      simp [hfinal, ← happ, hops, hmade]

/-- Two devices with blocks of up to two bytes: a full row and then a shorter one, copied a byte
at a time. -/
theorem clone_reproduces_short_end :
    Reproduces ⟨2, 1, 2, by decide, by decide, by decide, by decide⟩ (fun _ i => 7 * i)
      ⟨[⟨0, 3, 2, 4⟩, ⟨4, 5, 1, 2⟩], 6, 5⟩
      (seglunCloneFunc ⟨2, 1, 2, by decide, by decide, by decide, by decide⟩
        ⟨true, 1, fun _ => Outcome.good, fun _ => true, fun n => n⟩ (fun _ i => 7 * i)
        ⟨[⟨0, 3, 2, 4⟩, ⟨4, 5, 1, 2⟩], 6, 5⟩ Seglun.empty) := by
  have hss : CloneSource ⟨2, 1, 2, by decide, by decide, by decide, by decide⟩
      ⟨[⟨0, 3, 2, 4⟩, ⟨4, 5, 1, 2⟩], 6, 5⟩ :=
    ⟨⟨6, ⟨rfl, ⟨⟨2, by decide, by decide⟩, by decide, by decide, by decide⟩, rfl,
      ⟨⟨1, by decide, by decide⟩, by decide, by decide, by decide⟩, rfl⟩, by decide⟩,
      by decide, by decide⟩
  refine (clone_reproduces_iff hss (fun _ _ => rfl) (fun _ => rfl) (by decide)).mpr ?_
  rintro ⟨init, last, heq, hlast⟩
  obtain rfl : last = ⟨4, 5, 1, 2⟩ := by
    have := congrArg List.getLast? heq
    simpa using this.symm
  exact absurd hlast (by decide)

/-- A segment of one full row cannot be cloned. -/
theorem clone_fails_full_end :
    CloneSource ⟨1, 1, 1, by decide, by decide, by decide, by decide⟩ ⟨[⟨0, 0, 1, 1⟩], 1, 1⟩ ∧
      (seglunCloneFunc ⟨1, 1, 1, by decide, by decide, by decide, by decide⟩
        ⟨false, 1, fun _ => Outcome.good, fun _ => true, fun n => n⟩ (fun _ _ => 0)
        ⟨[⟨0, 0, 1, 1⟩], 1, 1⟩ Seglun.empty).isNone = true :=
  ⟨⟨⟨1, ⟨rfl, ⟨⟨1, by decide, by decide⟩, by decide, by decide, by decide⟩, rfl⟩, by decide⟩,
    by decide, by decide⟩, by decide⟩

end LStore.Lun
