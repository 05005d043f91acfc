import LStore.Osd.Blocks

/-!
# What the block routines do

The file of an object is well shaped when no block records more bytes than it can hold or than
the file has. Then each routine does one of two things: it finds the checksum of the block wrong
and says so, or it reads or writes the data of the block.
-/

namespace LStore.Osd

open Splice List
open MachineInt

variable {n : Nat}

theorem ofLe_leBytes (h : n < 4294967296) : ofLe (leBytes 4 n) = n := by
  simp only [leBytes, ofLe, UInt8.toNat_ofNat']
  omega

@[simp] theorem length_leBytes (width n : Nat) : (leBytes width n).length = width := by
  induction width generalizing n with
  | zero => rfl
  | succ width ih => rw [leBytes, length_cons, ih]

theorem ofLe_append_zeros (bs : List UInt8) (k : Nat) : ofLe (bs ++ List.replicate k 0) = ofLe bs := by
  induction bs with
  | nil =>
    induction k with
    | zero => rfl
    | succ k ih =>
      rw [nil_append] at ih ⊢
      change (0 : UInt8).toNat + 256 * ofLe (List.replicate k 0) = 0
      rw [ih]
      rfl
  | cons b bs ih => rw [cons_append, ofLe, ih, ofLe]

namespace Object

variable (o : Object)

theorem objOffset_succ (b : Nat) : o.objOffset (b + 1) = o.dataOffset b + o.blockBytes b := by
  cases b with
  | zero =>
    simp only [objOffset, dataOffset, blockBytes, hbsWithChksum, if_pos]
    simp
    omega
  | succ b =>
    simp only [objOffset, dataOffset, blockBytes, bsWithChksum, Nat.add_one_ne_zero, if_false,
      Nat.add_sub_cancel, Nat.add_mul]
    omega

theorem objOffset_le_of_lt {b b'} (h : b < b') :
    o.dataOffset b + o.blockBytes b ≤ o.objOffset b' := by
  induction b' with
  | zero => omega
  | succ b' ih =>
    rw [objOffset_succ]
    by_cases heq : b = b'
    · subst heq
      exact le_rfl
    · have hdata := o.dataOffset_eq b'
      omega

/-- The blocks lie in separate parts of the file. -/
theorem blocks_apart {b b'} (h : b ≠ b') :
    o.dataOffset b + o.blockBytes b ≤ o.objOffset b' ∨
      o.dataOffset b' + o.blockBytes b' ≤ o.objOffset b := by
  rcases lt_or_gt_of_ne h with hlt | hgt
  · exact .inl (o.objOffset_le_of_lt hlt)
  · exact .inr (o.objOffset_le_of_lt hgt)

/-- The block sizes that leave room in an `int`. -/
structure Small : Prop where
  header : o.headerBlocksize < 2147483648
  block : o.blocksize < 2147483648

theorem Small.blockBytes_lt {o : Object} (h : o.Small) (b : Nat) : o.blockBytes b < 2147483648 := by
  have hheader := h.header
  have hblock := h.block
  rw [blockBytes]
  split <;> assumption

end Object

/-- The bytes a block has recorded. -/
def recorded (o : Object) (f : SparseFile UInt8) (b : Nat) : Nat :=
  ofLe (slice f.byte (o.objOffset b) 4)

/-- The checksum stored with a block. -/
def storedDigest (o : Object) (f : SparseFile UInt8) (b : Nat) : List UInt8 :=
  slice f.byte (o.objOffset b + 4) o.chksum.size

/-- The recorded data of a block. -/
def blockData (o : Object) (f : SparseFile UInt8) (b : Nat) : List UInt8 :=
  slice f.byte (o.dataOffset b) (recorded o f b)

/-- What a block shows: its recorded data, and zeros behind it. -/
def shown (o : Object) (f : SparseFile UInt8) (b : Nat) : Nat → UInt8 :=
  fun i => if i < recorded o f b then f.byte (o.dataOffset b + i) else 0

/-- The data of the block does not have the checksum stored with it. -/
def Corrupt (o : Object) (f : SparseFile UInt8) (b : Nat) : Prop :=
  0 < recorded o f b ∧ storedDigest o f b ≠ o.chksum.digest (blockData o f b)

instance (o : Object) (f : SparseFile UInt8) (b : Nat) : Decidable (Corrupt o f b) :=
  inferInstanceAs (Decidable (_ ∧ _))

/-- No block records more than it can hold or than the file has. -/
structure Shaped (o : Object) (f : SparseFile UInt8) : Prop where
  fits : ∀ b, recorded o f b ≤ o.blockBytes b
  inside : ∀ b, 0 < recorded o f b → o.dataOffset b + recorded o f b ≤ f.size

variable {o : Object} {f : SparseFile UInt8} {b : Nat}

theorem ofLe_fread : ofLe (f.fread (o.objOffset b) 4) = recorded o f b := by
  obtain ⟨k, hk⟩ : ∃ k, k = min 4 (f.size - o.objOffset b) := ⟨_, rfl⟩
  have hsplit : slice f.byte (o.objOffset b) 4 =
      f.fread (o.objOffset b) 4 ++ List.replicate (4 - k) 0 := by
    rw [show 4 = k + (4 - k) by omega, slice_add, SparseFile.fread,
      slice_eq_replicate (o.objOffset b + k) (4 - k) fun i hi => f.beyond _ (by omega)]
    congr 2
    · omega
    · omega
  rw [recorded, hsplit, ofLe_append_zeros]

theorem readBlockHeader_inside (hfits : recorded o f b ≤ o.blockBytes b)
    (hin : o.dataOffset b ≤ f.size) :
    fsReadBlockHeader o f b = ⟨recorded o f b, storedDigest o f b, 0, o.dataOffset b⟩ := by
  have hdata := o.dataOffset_eq b
  have hused : f.fread (o.objOffset b) 4 = slice f.byte (o.objOffset b) 4 :=
    SparseFile.fread_eq (by omega)
  have hdigest : f.fread (o.objOffset b + 4) o.chksum.size = storedDigest o f b :=
    SparseFile.fread_eq (by omega)
  rw [fsReadBlockHeader]
  simp only [hused, length_slice, hdigest]
  rw [if_neg (by rw [← recorded]; omega), storedDigest, length_slice, if_pos (add_comm _ _),
    hdata, Nat.add_assoc]
  rfl

theorem readBlockHeader_outside (hrec : recorded o f b = 0) (hout : f.size < o.dataOffset b) :
    (fsReadBlockHeader o f b).bytesUsed = 0 ∧ (fsReadBlockHeader o f b).err = -1 := by
  have hdata := o.dataOffset_eq b
  have hshort : ¬o.chksum.size + 4 = (f.fread (o.objOffset b) 4).length +
      (f.fread (o.objOffset b + (f.fread (o.objOffset b) 4).length) o.chksum.size).length := by
    rw [SparseFile.length_fread, SparseFile.length_fread]
    omega
  rw [fsReadBlockHeader]
  simp only [ofLe_fread, hrec, if_neg (Nat.not_lt_zero _), if_neg hshort, and_self]

theorem fsChksumAdd_eq {cs data : List UInt8} (hn : n < 2147483648) (hlen : data.length = n) :
    fsChksumAdd cs n data = cs ++ data := by
  rw [fsChksumAdd, toNat_i32 hn, take_of_length_le (le_of_eq hlen)]

theorem chunk_eq {c : Cursor} (hn : n < 2147483648) (hin : c.pos + n ≤ f.size) :
    c.chunk f n = ⟨c.pos + n, c.n + n, c.cs ++ slice f.byte c.pos n⟩ := by
  rw [Cursor.chunk, SparseFile.fread_eq hin]
  simp only [padded, length_slice, Nat.sub_self, replicate_zero, append_nil]
  rw [fsChksumAdd_eq hn (length_slice _ _ _)]

theorem chunks_eq {bufsize} (hbuf : bufsize < 2147483648) (k : Nat) {c : Cursor}
    (hin : c.pos + k * bufsize ≤ f.size) :
    Cursor.chunks f bufsize k c =
      ⟨c.pos + k * bufsize, c.n + k * bufsize, c.cs ++ slice f.byte c.pos (k * bufsize)⟩ := by
  induction k generalizing c with
  | zero => simp [Cursor.chunks]
  | succ k ih =>
    have hmul : (k + 1) * bufsize = bufsize + k * bufsize := by
      rw [add_mul, one_mul, add_comm]
    rw [hmul] at hin ⊢
    rw [Cursor.chunks, chunk_eq hbuf (by omega), ih (by dsimp only; omega), slice_add]
    simp [add_assoc]

/-- Inside the file a buffered read adds the bytes to the checksum. -/
theorem chksumBufferedRead_eq {pos len : Nat} (hin : pos + len ≤ f.size) (cs : List UInt8) :
    chksumBufferedRead f pos len fsBufSize cs = ⟨pos + len, len, cs ++ slice f.byte pos len⟩ := by
  have hbuf : fsBufSize < 2147483648 := by decide
  have hdiv := Nat.div_add_mod' len fsBufSize
  have hmod : len % fsBufSize < fsBufSize := Nat.mod_lt _ (by decide)
  rw [chksumBufferedRead]
  split
  · rename_i hzero
    simp [hzero]
  · rw [chunks_eq hbuf (len / fsBufSize) (by dsimp only; omega)]
    split
    · rw [chunk_eq (by omega) (by dsimp only; omega)]
      rw [append_assoc, ← slice_add, add_assoc, add_assoc, hdiv, zero_add]
    · have hrest : len / fsBufSize * fsBufSize = len := by omega
      rw [hrest, zero_add]

/-- What a block shows from an offset on: recorded data, then zeros. -/
theorem slice_shown (offset len : Nat) :
    slice (shown o f b) offset len =
      slice f.byte (o.dataOffset b + offset) (min len (recorded o f b - offset)) ++
        List.replicate (len - (recorded o f b - offset)) 0 := by
  have hlen : len = min len (recorded o f b - offset) + (len - (recorded o f b - offset)) := by omega
  conv_lhs => rw [hlen]
  rw [slice_add]
  congr 1
  · refine slice_congr _ _ fun i hi => ?_
    rw [shown, if_pos (by omega), add_assoc]
  · refine slice_eq_replicate _ _ fun i hi => ?_
    rw [shown, if_neg (by omega)]

theorem Corrupt.recorded_pos (h : Corrupt o f b) : 0 < recorded o f b := h.1

/-- The header of a block that has recorded something is in the file. -/
theorem Shaped.dataOffset_le (hs : Shaped o f) (h : 0 < recorded o f b) : o.dataOffset b ≤ f.size :=
  Nat.le_trans (Nat.le_add_right _ _) (hs.inside b h)

/-- What a block has recorded is in the file, or the file ends before the data. -/
theorem Shaped.inside_or (hs : Shaped o f) (b : Nat) :
    (o.dataOffset b ≤ f.size ∧ o.dataOffset b + recorded o f b ≤ f.size) ∨
      (f.size < o.dataOffset b ∧ recorded o f b = 0) := by
  by_cases hpos : 0 < recorded o f b
  · exact .inl ⟨hs.dataOffset_le hpos, hs.inside b hpos⟩
  · omega

theorem mergedVerdict_eq (pos n bs : Nat) :
    mergedVerdict o b ⟨recorded o f b, storedDigest o f b, 0, pos⟩ n bs (blockData o f b) =
      if Corrupt o f b then badState b else .good := by
  simp only [mergedVerdict, Corrupt, ne_eq, not_true, and_false, if_false]
  by_cases hpos : 0 < recorded o f b
  · simp [hpos]
  · simp [hpos]

/-- `chksum_merged_read` finds the block corrupt or reads what it shows. -/
theorem chksumMergedRead_eq (hsmall : o.Small) (hs : Shaped o f) (offset len : Nat) (mem : Mem)
    (bpos : Nat) :
    chksumMergedRead o f b offset len mem bpos =
      (if Corrupt o f b then badState b else .good,
        splice mem bpos (slice (shown o f b) offset len)) := by
  have hlt := hsmall.blockBytes_lt b
  have hfits := hs.fits b
  by_cases hused : offset < recorded o f b
  · have hinside := hs.inside b (by omega)
    obtain ⟨k, hk⟩ : ∃ k, k = min len (recorded o f b - offset) := ⟨_, rfl⟩
    obtain ⟨r, hr⟩ : ∃ r, r = max (offset + len) (recorded o f b) - offset - len := ⟨_, rfl⟩
    have hlen₂ : (if recorded o f b ≤ offset + len then recorded o f b - offset else len) = k := by
      split <;> omega
    have hshown := slice_shown (o := o) (f := f) (b := b) offset len
    rw [← hk] at hshown
    have hmem : (if recorded o f b ≤ offset + len then
        splice (splice mem bpos (slice f.byte (o.dataOffset b + offset) k)) (bpos + k)
          (List.replicate (len - k) 0)
        else splice mem bpos (slice f.byte (o.dataOffset b + offset) k)) =
        splice mem bpos (slice (shown o f b) offset len) := by
      rw [hshown, splice_append, length_slice]
      split
      · rw [show len - (recorded o f b - offset) = len - k by omega]
      · rw [show len - (recorded o f b - offset) = 0 by omega, replicate_zero, splice_nil]
    have hgot : slice (splice mem bpos (slice (shown o f b) offset len)) bpos k =
        slice f.byte (o.dataOffset b + offset) k := by
      have happend := slice_splice_append mem bpos (slice f.byte (o.dataOffset b + offset) k)
        (List.replicate (len - (recorded o f b - offset)) 0)
      rwa [length_slice, ← hshown] at happend
    have hdata : slice f.byte (o.dataOffset b) offset ++
        slice f.byte (o.dataOffset b + offset) k ++ slice f.byte (o.dataOffset b + offset + k) r =
        blockData o f b := by
      rw [← slice_add, add_assoc, ← slice_add, blockData]
      congr 1
      omega
    rw [chksumMergedRead, readBlockHeader_inside hfits (hs.dataOffset_le (by omega))]
    rw [if_pos hused, min_eq_left (le_of_lt hused),
      chksumBufferedRead_eq (by omega : o.dataOffset b + offset ≤ f.size)]
    dsimp only
    rw [hlen₂, SparseFile.fread_eq (by omega), length_slice, hmem, hgot, ← hr,
      fsChksumAdd_eq (by omega) (length_slice _ _ _), chksumBufferedRead_eq (by omega),
      nil_append, hdata, mergedVerdict_eq]
  · have hshown : slice (shown o f b) offset len = List.replicate len 0 :=
      slice_eq_replicate _ _ fun i hi => if_neg (by omega)
    rcases hs.inside_or b with ⟨hin, hinside⟩ | ⟨hout, hrec⟩
    · rw [chksumMergedRead, readBlockHeader_inside hfits hin]
      rw [if_neg hused, min_eq_right (Nat.le_of_not_lt hused), chksumBufferedRead_eq hinside,
        hshown, nil_append, ← blockData, mergedVerdict_eq]
    · have hheader := (readBlockHeader_outside hrec (by omega)).1
      have hclean : ¬Corrupt o f b := fun h => by
        have := h.recorded_pos
        omega
      rw [chksumMergedRead, hheader, if_neg (Nat.not_lt_zero _), mergedVerdict,
        if_neg (by omega), if_neg hclean, hshown]

/-- `chksum_direct_read` reads the data unless the file ends before it. -/
theorem chksumDirectRead_eq {offset len} (mem : Mem) (bpos : Nat)
    (hin : o.dataOffset b + offset + len ≤ f.size) :
    chksumDirectRead o f b offset len mem bpos =
      (.good, splice mem bpos (slice f.byte (o.dataOffset b + offset) len)) := by
  rw [chksumDirectRead, SparseFile.fread_eq hin]
  simp

/-- `chksum_full_read` fails behind the end of the file, finds the block corrupt or reads what it
shows. -/
theorem chksumFullRead_eq (hsmall : o.Small) (hs : Shaped o f) (hb : b ≠ 0) (mem : Mem)
    (bpos : Nat) :
    chksumFullRead o f b mem bpos =
      (if f.size < o.dataOffset b ∨ Corrupt o f b then badState b else .good,
        splice mem bpos (slice (shown o f b) 0 o.blocksize)) := by
  have hbytes : o.blockBytes b = o.blocksize := if_neg hb
  have hfits := hs.fits b
  have hlt := hsmall.block
  rw [hbytes] at hfits
  have hshown := slice_shown (o := o) (f := f) (b := b) 0 o.blocksize
  rw [Nat.add_zero, Nat.sub_zero, Nat.min_eq_right hfits] at hshown
  rcases hs.inside_or b with ⟨hin, hinside⟩ | ⟨hout, hrec⟩
  · have hmem : splice (splice mem bpos (slice f.byte (o.dataOffset b) (recorded o f b)))
        (bpos + recorded o f b) (List.replicate (o.blocksize - recorded o f b) 0) =
        splice mem bpos (slice (shown o f b) 0 o.blocksize) := by
      rw [hshown, splice_append, length_slice]
    have hgot : slice (splice mem bpos (slice (shown o f b) 0 o.blocksize)) bpos (recorded o f b) =
        blockData o f b := by
      have happend := slice_splice_append mem bpos (slice f.byte (o.dataOffset b) (recorded o f b))
        (List.replicate (o.blocksize - recorded o f b) 0)
      rwa [length_slice, ← hshown] at happend
    rw [chksumFullRead, readBlockHeader_inside (hs.fits b) hin]
    dsimp only
    rw [SparseFile.fread_eq hinside, hmem, hgot,
      fsChksumAdd_eq (by omega) (by rw [blockData, length_slice]), nil_append, length_slice,
      if_neg (by simp)]
    by_cases hc : Corrupt o f b
    · rw [if_pos (show 0 < recorded o f b ∧ _ from hc), if_pos (.inr hc)]
    · rw [if_neg (show ¬(0 < recorded o f b ∧ _) from hc), if_neg (not_or.mpr ⟨by omega, hc⟩)]
  · obtain ⟨hused, herr⟩ := readBlockHeader_outside hrec (by omega)
    rw [chksumFullRead, hused, herr, if_pos (.inr (by decide)), if_pos (.inl (by omega)),
      hshown, hrec]
    simp [SparseFile.fread]

end LStore.Osd
