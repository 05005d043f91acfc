import LStore.Linear.ReadWrite
import Mathlib.Data.List.Pairwise

/-!
# Reading back what a linear segment wrote

The data blocks hold the bytes of the segment at the places the layout gives them. An
operation of a request acts on them as a copy between the buffer and the segment. With
every operation of a write and of a read carried out, in any order, each byte read is one
that the write put at its offset.
-/

namespace LStore.Linear

open ByteCopy Segment List SlotOp

/-- The bytes of the data blocks. -/
abbrev Store := Nat → Int → Byte

/-- `ds_write`. -/
def SlotOp.write (buf : Int → Byte) (store : Store) (op : SlotOp) : Store :=
  Function.update store op.slot.data
    (copyBytes buf op.bpos (store op.slot.data) op.start op.blen)

/-- `ds_read`. -/
def SlotOp.read (store : Store) (buf : Int → Byte) (op : SlotOp) : Int → Byte :=
  copyBytes (store op.slot.data) op.start buf op.bpos op.blen

/-- The operations of a write and then those of a read of the same ranges, in any order: every
byte read into a range is one that was written to its offset. -/
def ReadsBack (iov : List ExIovec) (boff : Int) (writes reads : List SlotOp) : Prop :=
  ∀ (store : Store) (buf buf' : Int → Byte) (ws rs : List SlotOp), ws.Perm writes → rs.Perm reads →
    ∀ p ∈ placed boff iov, ∀ k, 0 ≤ k → k < p.1.len →
      ∃ p' ∈ placed boff iov, ∃ j, 0 ≤ j ∧ j < p'.1.len ∧ p'.1.offset + j = p.1.offset + k ∧
        rs.foldl (SlotOp.read (ws.foldl (SlotOp.write buf) store)) buf' (p.2 + k) = buf (p'.2 + j)

/-- The data blocks hold the file. -/
def Holds (blocks : List SeglinSlot) (file : Int → Byte) (store : Store) : Prop :=
  ∀ b ∈ blocks, ∀ x, b.segOffset ≤ x → x ≤ b.segEnd →
    store b.data (b.capOffset + (x - b.segOffset)) = file x

/-- The file that the data blocks hold. -/
def fileOf (blocks : List SeglinSlot) (store : Store) (x : Int) : Byte :=
  match blocks.find? fun b => b.segOffset ≤ x ∧ x ≤ b.segEnd with
  | none => 0
  | some b => store b.data (b.capOffset + (x - b.segOffset))

/-- The first offset of the segment that the operation is about. -/
def SlotOp.segStart (op : SlotOp) : Int := op.slot.segOffset + (op.start - op.slot.capOffset)

/-- A write as a copy into the segment. -/
def SlotOp.toSegment (buf : Int → Byte) (op : SlotOp) : Copy Byte :=
  ⟨buf, op.bpos, op.segStart, op.blen⟩

/-- A read as a copy into the buffer. -/
def SlotOp.toBuffer (store : Store) (op : SlotOp) : Copy Byte :=
  ⟨store op.slot.data, op.start, op.bpos, op.blen⟩

variable {blocks : List SeglinSlot} {total : Int} {store : Store} {file buf : Int → Byte}
variable {s t : SeglinSlot} {iov : List ExIovec} {boff : Int} {op : SlotOp}

theorem Stacked.apart {b e} (h : Stacked b blocks e) :
    blocks.Pairwise fun s t => s.segEnd < t.segOffset ∨ t.segEnd < s.segOffset := by
  induction blocks generalizing b with
  | nil => exact List.Pairwise.nil
  | cons s blocks ih =>
    obtain ⟨hb, hlen, hend, hrest⟩ := h
    refine pairwise_cons.mpr ⟨fun t ht => .inl ?_, ih hrest⟩
    have := (hrest.mem ht).1
    omega

theorem Stacked.segment_apart {b e} (h : Stacked b blocks e) (hs : s ∈ blocks) (ht : t ∈ blocks)
    (hne : s ≠ t) : s.segEnd < t.segOffset ∨ t.segEnd < s.segOffset := by
  have : Std.Symm fun s t : SeglinSlot => s.segEnd < t.segOffset ∨ t.segEnd < s.segOffset :=
    ⟨fun _ _ => Or.symm⟩
  exact h.apart.forall hs ht hne

theorem Layout.data_apart (h : Layout blocks total) (hs : s ∈ blocks) (ht : t ∈ blocks)
    (hne : s ≠ t) (hdata : s.data = t.data) :
    s.capOffset + s.len ≤ t.capOffset ∨ t.capOffset + t.len ≤ s.capOffset := by
  have : Std.Symm fun a b : SeglinSlot => a.data = b.data →
      a.capOffset + a.len ≤ b.capOffset ∨ b.capOffset + b.len ≤ a.capOffset :=
    ⟨fun _ _ hst heq => (hst heq.symm).symm⟩
  exact h.apart.forall hs ht hne hdata

theorem holds_fileOf (h : Layout blocks total) (store : Store) :
    Holds blocks (fileOf blocks store) store := by
  intro b hb x hlo hhi
  rw [fileOf]
  cases hfind : blocks.find? fun b => b.segOffset ≤ x ∧ x ≤ b.segEnd with
  | none =>
    have := List.find?_eq_none.mp hfind b hb
    simp only [decide_eq_true_eq] at this
    exact absurd ⟨hlo, hhi⟩ this
  | some c =>
    have hc := List.find?_some hfind
    simp only [decide_eq_true_eq] at hc
    by_cases hbc : b = c
    · rw [hbc]
    · have := h.stacked.segment_apart hb (mem_of_find?_eq_some hfind) hbc
      omega

/-- The operations of a request: those of a range at its position and a block it overlaps. -/
theorem mem_pairOps : op ∈ pairOps blocks boff iov ↔
    ∃ v pos b, (v, pos) ∈ placed boff iov ∧ b ∈ blocks ∧ Overlaps v b ∧ op = pairOp pos v b := by
  constructor
  · intro hop
    obtain ⟨⟨v, pos⟩, hv, hop⟩ := mem_flatMap.mp hop
    obtain ⟨b, hb, rfl⟩ := mem_map.mp hop
    obtain ⟨hb, hover⟩ := mem_filter.mp hb
    exact ⟨v, pos, b, hv, hb, by simpa using hover, rfl⟩
  · rintro ⟨v, pos, b, hv, hb, hover, rfl⟩
    exact mem_flatMap.mpr ⟨(v, pos), hv,
      mem_map_of_mem (mem_filter.mpr ⟨hb, by simpa using hover⟩)⟩

section

variable (h : Layout blocks total)
include h

/-- An operation of a request stays in its block. -/
theorem Layout.inside_slot (hop : op ∈ pairOps blocks boff iov) :
    op.slot ∈ blocks ∧ op.slot.capOffset ≤ op.start ∧
      op.start + op.blen ≤ op.slot.capOffset + op.slot.len := by
  obtain ⟨v, pos, b, _, hb, ⟨hstart, hreach⟩, rfl⟩ := mem_pairOps.mp hop
  obtain ⟨_, hlen, hend, _⟩ := h.stacked.mem hb
  refine ⟨hb, ?_, ?_⟩ <;> simp only [pairOp, shared] <;> omega

/-- A write to the data blocks is a write to the file they hold. -/
theorem Holds.write (hop : op ∈ pairOps blocks boff iov) (hholds : Holds blocks file store) :
    Holds blocks (copyBytes buf op.bpos file op.segStart op.blen) (op.write buf store) := by
  obtain ⟨hslot, hlo, hhi⟩ := h.inside_slot hop
  intro b hb x hx hx'
  have hold := hholds b hb x hx hx'
  obtain ⟨_, hlen, hend, _⟩ := h.stacked.mem hb
  obtain ⟨_, _, hend', _⟩ := h.stacked.mem hslot
  by_cases hbs : b = op.slot
  · rw [SlotOp.write, ← hbs, Function.update_self]
    by_cases hin : op.segStart ≤ x ∧ x < op.segStart + op.blen
    · rw [copyBytes_inside hin]
      simp only [segStart, ← hbs] at hin ⊢
      rw [copyBytes_inside (by omega)]
      congr 1
      omega
    · rw [copyBytes_outside hin]
      simp only [segStart, ← hbs] at hin
      rw [copyBytes_outside (by omega), hold]
  · have hseg := h.stacked.segment_apart hb hslot hbs
    rw [copyBytes_outside (by simp only [SlotOp.segStart]; omega), ← hold, SlotOp.write]
    by_cases hdata : b.data = op.slot.data
    · have hcap := h.data_apart hb hslot hbs hdata
      rw [hdata, Function.update_self, copyBytes_outside (by omega)]
    · rw [Function.update_of_ne hdata]

theorem Holds.writes (buf : Int → Byte) {ws : List SlotOp}
    (hws : ∀ op ∈ ws, op ∈ pairOps blocks boff iov) (hholds : Holds blocks file store) :
    Holds blocks (runCopies (ws.map (SlotOp.toSegment buf)) file)
      (ws.foldl (SlotOp.write buf) store) := by
  induction ws generalizing file store with
  | nil => exact hholds
  | cons op ws ih =>
    exact ih (fun x hx => hws x (by simp [hx])) (hholds.write h (hws op (by simp)))

end

theorem foldl_read (rs : List SlotOp) (store : Store) (buf : Int → Byte) :
    rs.foldl (SlotOp.read store) buf = runCopies (rs.map (SlotOp.toBuffer store)) buf := by
  rw [runCopies, foldl_map]
  rfl

/-- Each offset of a range is covered by the operation of the block that holds it. -/
theorem Stacked.exists_op (h : Stacked 0 blocks total) {v pos k} (hv : (v, pos) ∈ placed boff iov)
    (hin : Fits total v) (hk : 0 ≤ k) (hk' : k < v.len) :
    ∃ op ∈ pairOps blocks boff iov,
      (op.bpos ≤ pos + k ∧ pos + k < op.bpos + op.blen) ∧
      op.segStart ≤ v.offset + k ∧ v.offset + k < op.segStart + op.blen := by
  obtain ⟨hoff, hend⟩ := hin.inside (by omega)
  obtain ⟨b, hb, hlo, hhi⟩ :=
    h.covers (show 0 ≤ v.offset + k by omega) (show v.offset + k < total by omega)
  obtain ⟨_, hlen, hbend, _⟩ := h.mem hb
  refine ⟨pairOp pos v b,
    mem_pairOps.mpr ⟨v, pos, b, hv, hb, ⟨by omega, by omega⟩, rfl⟩, ?_, ?_⟩
  · simp only [pairOp, shared]
    omega
  · simp only [segStart, pairOp, shared]
    omega

/-- An operation that covers a position of the buffer is about the offset at that position. -/
theorem Stacked.offset_of_covers (h : Stacked 0 blocks total) (hiov : ∀ v ∈ iov, 0 ≤ v.len)
    {v pos k} (hv : (v, pos) ∈ placed boff iov) (hk : 0 ≤ k) (hk' : k < v.len)
    (hop : op ∈ pairOps blocks boff iov) (hcov : op.bpos ≤ pos + k ∧ pos + k < op.bpos + op.blen) :
    op.segStart + (pos + k - op.bpos) = v.offset + k ∧ op.segStart ≤ v.offset + k ∧
      v.offset + k < op.segStart + op.blen := by
  obtain ⟨w, pos', b, hw, hb, ⟨hstart, hreach⟩, rfl⟩ := mem_pairOps.mp hop
  obtain ⟨_, hlen, hbend, _⟩ := h.mem hb
  have hsame : (v, pos) = (w, pos') := by
    refine placed_unique (q := pos + k) hiov hv hw (by omega) ?_
    simp only [pairOp, shared] at hcov
    omega
  cases hsame
  simp only [segStart, pairOp, shared] at hcov ⊢
  omega

/-- With all operations of all pairs the bytes come back. -/
theorem Layout.readsBack (h : Layout blocks total) (hiov : ∀ v ∈ iov, Inside total v)
    {writes reads : List SlotOp} (hw : writes.Perm (pairOps blocks boff iov))
    (hr : reads.Perm (pairOps blocks boff iov)) : ReadsBack iov boff writes reads := by
  intro store buf buf' ws rs hws hrs p hp k hk hk'
  have hws := hws.trans hw
  have hrs := hrs.trans hr
  obtain ⟨store', hstore'⟩ : ∃ s, s = ws.foldl (write buf) store := ⟨_, rfl⟩
  have hholds := (holds_fileOf h store).writes h buf (fun op hop => hws.mem_iff.mp hop)
  rw [← hstore'] at hholds
  rw [foldl_read, ← hstore']
  have hinside := hiov p.1 (mem_of_placed hp)
  obtain ⟨op, hop, hcov, hseg⟩ := h.stacked.exists_op hp hinside.fits hk hk'
  obtain ⟨c, hc, hcov', hread⟩ := runCopies_covered (show ∃ c ∈ rs.map (toBuffer store'),
    c.dest ≤ p.2 + k ∧ p.2 + k < c.dest + c.len from
    ⟨_, mem_map_of_mem (hrs.mem_iff.mpr hop), hcov⟩) buf'
  obtain ⟨op', hop', rfl⟩ := mem_map.mp hc
  have hop' := hrs.mem_iff.mp hop'
  obtain ⟨hoff, hlo, hhi⟩ := h.stacked.offset_of_covers (fun v hv => (hiov v hv).2.1) hp hk hk' hop' hcov'
  obtain ⟨hslot, hstart, hfin⟩ := h.inside_slot hop'
  have hslotEnd := (h.stacked.mem hslot).2.2.1
  simp only [segStart] at hoff hlo hhi
  have hbyte := hholds op'.slot hslot (p.1.offset + k) (by omega) (by omega)
  have hplace : op'.start + (p.2 + k - op'.bpos) =
      op'.slot.capOffset + (p.1.offset + k - op'.slot.segOffset) := by omega
  obtain ⟨d, hd, hcovd, hwritten⟩ := runCopies_covered (show ∃ c ∈ ws.map (toSegment buf),
    c.dest ≤ p.1.offset + k ∧ p.1.offset + k < c.dest + c.len from
    ⟨_, mem_map_of_mem (hws.mem_iff.mpr hop), hseg⟩) (fileOf blocks store)
  obtain ⟨op₂, hop₂, rfl⟩ := mem_map.mp hd
  obtain ⟨w, pos', b, hw', hb, ⟨hwstart, hwreach⟩, rfl⟩ :=
    mem_pairOps.mp (hws.mem_iff.mp hop₂)
  simp only [toSegment, segStart, pairOp, shared] at hcovd hwritten
  refine ⟨(w, pos'), hw', p.1.offset + k - w.offset, by omega, by dsimp only; omega,
    by dsimp only; omega, ?_⟩
  rw [hread]
  simp only [toBuffer]
  rw [hplace, hbyte, hwritten]
  congr 1
  omega

/-- A vectored write and a vectored read of the same ranges hand over exactly the operations of
the pairs of a range and a block it overlaps, and the bytes come back, if and only if the first
range with a block overlaps two of them or there is no further pair. -/
theorem linear_keeps_all_iff {blocks : List SeglinSlot} {total : Int} (h : Layout blocks total)
    {iov : List ExIovec} (hiov : ∀ v ∈ iov, Inside total v) (boff : Int)
    (waitall : Option (List SlotOp) → Int) (hardErrors : Int) :
    (((seglinWriteOp blocks iov boff).getD []).Perm (pairOps blocks boff iov) ∧
      ((seglinReadFunc waitall hardErrors blocks iov boff).ops.getD []).Perm
        (pairOps blocks boff iov) ∧
      ReadsBack iov boff ((seglinWriteOp blocks iov boff).getD [])
        ((seglinReadFunc waitall hardErrors blocks iov boff).ops.getD [])) ↔
      KeepsAll blocks iov := by
  have hread : (seglinReadFunc waitall hardErrors blocks iov boff).ops =
      seglinWriteOp blocks iov boff := by
    rw [seglinReadFunc, seglinWriteOp]
    split_ifs <;> rfl
  have hhanded := handed_iff h.stacked (fun v hv => (hiov v hv).fits) boff
  rw [hread]
  constructor
  · rintro ⟨hw, _⟩
    exact hhanded.mp hw
  · intro hkeeps
    have hw := hhanded.mpr hkeeps
    exact ⟨hw, hw, h.readsBack hiov hw hw⟩

/-- Two blocks of two bytes. The first range lies across both of them, the second in one. -/
theorem linear_keeps_all_across :
    ((seglinWriteOp [⟨0, 0, 0, 1, 2⟩, ⟨1, 5, 2, 3, 2⟩] [⟨1, 2⟩, ⟨0, 1⟩] 7).getD []).Perm
      [⟨⟨0, 0, 0, 1, 2⟩, 1, 7, 1⟩, ⟨⟨1, 5, 2, 3, 2⟩, 5, 8, 1⟩, ⟨⟨0, 0, 0, 1, 2⟩, 0, 9, 1⟩] :=
  have h : Layout [⟨0, 0, 0, 1, 2⟩, ⟨1, 5, 2, 3, 2⟩] 4 := ⟨by simp [Stacked], by decide⟩
  have hiov : ∀ v ∈ [(⟨1, 2⟩ : ExIovec), ⟨0, 1⟩], Inside 4 v := by decide
  ((linear_keeps_all_iff h hiov 7 (fun _ => 10) 0).mpr trivial).1

/-- Two ranges in one block: the write of the first one is lost. -/
theorem linear_drops_first :
    Layout [⟨0, 0, 0, 3, 4⟩] 4 ∧
      seglinWriteOp [⟨0, 0, 0, 3, 4⟩] [⟨0, 1⟩, ⟨2, 1⟩] 0 = some [⟨⟨0, 0, 0, 3, 4⟩, 2, 1, 1⟩] ∧
      pairOps [⟨0, 0, 0, 3, 4⟩] 0 [⟨0, 1⟩, ⟨2, 1⟩] =
        [⟨⟨0, 0, 0, 3, 4⟩, 0, 0, 1⟩, ⟨⟨0, 0, 0, 3, 4⟩, 2, 1, 1⟩] :=
  ⟨⟨by simp [Stacked], by simp⟩, by decide, by decide⟩

end LStore.Linear
