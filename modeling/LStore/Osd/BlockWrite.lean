import LStore.Osd.BlockSpec

/-!
# What writing a block does to the file

Both writing routines put bytes into the data of a block and store the new length and checksum of
the block. The rest of the file stays as it is.
-/

namespace LStore.Osd

open MachineInt Splice

/-- The file after bytes are put into a block and its header is stored again. -/
def putBlock (o : Object) (f : SparseFile UInt8) (b offset : Nat) (bs : List UInt8) :
    SparseFile UInt8 :=
  let f₁ := f.fwrite (o.dataOffset b + offset) bs
  let used := max (recorded o f b) (offset + bs.length)
  fsWriteBlockHeader o f₁ b used (o.chksum.digest (slice f₁.byte (o.dataOffset b) used))

variable {o : Object} {f : SparseFile UInt8} {b offset : Nat} {bs : List UInt8}

/-- The bytes of the file after a block is written. -/
theorem byte_putBlock : (putBlock o f b offset bs).byte =
    splice (splice (splice f.byte (o.dataOffset b + offset) bs) (o.objOffset b)
      (leBytes 4 (max (recorded o f b) (offset + bs.length)))) (o.objOffset b + 4)
      (o.chksum.digest (slice (splice f.byte (o.dataOffset b + offset) bs) (o.dataOffset b)
        (max (recorded o f b) (offset + bs.length)))) := rfl

/-- Only the header and the written data of the block change. -/
theorem byte_putBlock_outside {p} (hheader : p < o.objOffset b ∨ o.dataOffset b ≤ p)
    (hdata : p < o.dataOffset b + offset ∨ o.dataOffset b + offset + bs.length ≤ p) :
    (putBlock o f b offset bs).byte p = f.byte p := by
  have hoff := o.dataOffset_eq b
  rw [byte_putBlock, splice_outside _ _ _ (by rw [o.chksum.length_digest]; omega),
    splice_outside _ _ _ (by rw [length_leBytes]; omega), splice_outside _ _ _ hdata]

/-- The data of the block, with the bytes put into it. -/
theorem byte_putBlock_data (i : Nat) : (putBlock o f b offset bs).byte (o.dataOffset b + i) =
    splice f.byte (o.dataOffset b + offset) bs (o.dataOffset b + i) := by
  have hoff := o.dataOffset_eq b
  rw [byte_putBlock, splice_outside _ _ _ (by rw [o.chksum.length_digest]; omega),
    splice_outside _ _ _ (by rw [length_leBytes]; omega)]

theorem le_size_putBlock : f.size ≤ (putBlock o f b offset bs).size :=
  le_trans (SparseFile.le_size_fwrite ..) (le_trans (SparseFile.le_size_fwrite ..)
    (SparseFile.le_size_fwrite ..))

theorem end_le_size_putBlock (h : bs ≠ []) :
    o.dataOffset b + offset + bs.length ≤ (putBlock o f b offset bs).size :=
  le_trans (SparseFile.end_le_size_fwrite _ _ _ h) (le_trans (SparseFile.le_size_fwrite ..)
    (SparseFile.le_size_fwrite ..))

section

variable (hlt : max (recorded o f b) (offset + bs.length) < 4294967296)
include hlt

theorem recorded_putBlock :
    recorded o (putBlock o f b offset bs) b = max (recorded o f b) (offset + bs.length) := by
  have hslice := slice_splice_self (splice f.byte (o.dataOffset b + offset) bs) (o.objOffset b)
    (leBytes 4 (max (recorded o f b) (offset + bs.length)))
  rw [length_leBytes] at hslice
  rw [recorded, byte_putBlock, slice_splice_apart _ _ _ (.inl le_rfl), hslice,
    ofLe_leBytes hlt]

theorem blockData_putBlock :
    blockData o (putBlock o f b offset bs) b =
      slice (splice f.byte (o.dataOffset b + offset) bs) (o.dataOffset b)
        (max (recorded o f b) (offset + bs.length)) := by
  rw [blockData, recorded_putBlock hlt]
  exact slice_congr _ _ fun i _ => byte_putBlock_data i

/-- The block that was written has its checksum. -/
theorem not_corrupt_putBlock : ¬Corrupt o (putBlock o f b offset bs) b := by
  rintro ⟨-, hne⟩
  refine hne ?_
  rw [blockData_putBlock hlt, storedDigest, byte_putBlock]
  conv_lhs => rw [← o.chksum.length_digest (slice (splice f.byte (o.dataOffset b + offset) bs)
    (o.dataOffset b) (max (recorded o f b) (offset + bs.length)))]
  rw [slice_splice_self]

end

variable {b' : Nat}

section

variable (hfit : offset + bs.length ≤ o.blockBytes b) (hne : b' ≠ b)
include hfit hne

/-- A block is written inside its own part of the file. -/
theorem byte_putBlock_other {p} (hlo : o.objOffset b' ≤ p)
    (hhi : p < o.dataOffset b' + o.blockBytes b') :
    (putBlock o f b offset bs).byte p = f.byte p := by
  have hap := o.blocks_apart hne
  have hoff := o.dataOffset_eq b
  exact byte_putBlock_outside (by omega) (by omega)

theorem slice_putBlock_other {pos n} (hlo : o.objOffset b' ≤ pos)
    (hhi : pos + n ≤ o.dataOffset b' + o.blockBytes b') :
    slice (putBlock o f b offset bs).byte pos n = slice f.byte pos n :=
  slice_congr _ _ fun i hi => byte_putBlock_other hfit hne (by omega) (by omega)

theorem recorded_putBlock_other : recorded o (putBlock o f b offset bs) b' = recorded o f b' := by
  have hoff := o.dataOffset_eq b'
  rw [recorded, slice_putBlock_other hfit hne le_rfl (by omega), recorded]

theorem storedDigest_putBlock_other :
    storedDigest o (putBlock o f b offset bs) b' = storedDigest o f b' := by
  have hoff := o.dataOffset_eq b'
  rw [storedDigest, slice_putBlock_other hfit hne (by omega) (by omega), storedDigest]

theorem blockData_putBlock_other (hle : recorded o f b' ≤ o.blockBytes b') :
    blockData o (putBlock o f b offset bs) b' = blockData o f b' := by
  have hoff := o.dataOffset_eq b'
  rw [blockData, recorded_putBlock_other hfit hne,
    slice_putBlock_other hfit hne (by omega) (by omega), blockData]

/-- The other blocks are as corrupt as they were. -/
theorem corrupt_putBlock_other (hle : recorded o f b' ≤ o.blockBytes b') :
    Corrupt o (putBlock o f b offset bs) b' ↔ Corrupt o f b' := by
  rw [Corrupt, recorded_putBlock_other hfit hne, storedDigest_putBlock_other hfit hne,
    blockData_putBlock_other hfit hne hle, Corrupt]

end

/-- Writing a block keeps the file well shaped. -/
theorem Shaped.putBlock (hs : Shaped o f) (hsmall : o.Small)
    (hfit : offset + bs.length ≤ o.blockBytes b) (hne : bs ≠ []) :
    Shaped o (putBlock o f b offset bs) := by
  have hlt := hsmall.blockBytes_lt b
  have hfits := hs.fits b
  have hsize : f.size ≤ (Osd.putBlock o f b offset bs).size := le_size_putBlock
  refine ⟨?_, ?_⟩
  · intro c
    by_cases hc : c = b
    · subst hc
      rw [recorded_putBlock (by omega)]
      omega
    · rw [recorded_putBlock_other hfit hc]
      exact hs.fits c
  · intro c hpos
    by_cases hc : c = b
    · subst hc
      rw [recorded_putBlock (by omega)] at hpos ⊢
      have hend : o.dataOffset c + offset + bs.length ≤ (Osd.putBlock o f c offset bs).size :=
        end_le_size_putBlock hne
      by_cases hold : 0 < recorded o f c
      · have hinside := hs.inside c hold
        omega
      · omega
    · rw [recorded_putBlock_other hfit hc] at hpos ⊢
      exact le_trans (hs.inside c hpos) hsize

variable {len : Nat} {data : List UInt8}

/-- `chksum_merged_write` finds the block corrupt and leaves the file alone, or writes into it. -/
theorem chksumMergedWrite_eq (hsmall : o.Small) (hs : Shaped o f)
    (hfit : offset + len ≤ o.blockBytes b) (hlen : 1 ≤ len) (hdata : len ≤ data.length) :
    chksumMergedWrite o f b offset len data =
      if Corrupt o f b then (badState b, f)
      else (.good, putBlock o f b offset (data.take len)) := by
  have hlt := hsmall.blockBytes_lt b
  have hfits := hs.fits b
  have htake : (data.take len).length = len := by
    rw [List.length_take, min_eq_left hdata]
  have hne : data.take len ≠ [] := List.ne_nil_of_length_pos (by omega)
  have hwrite : ∀ used, used = max (recorded o f b) (offset + len) →
      fsWriteBlockHeader o (f.fwrite (o.dataOffset b + offset) (data.take len)) b used
        (o.chksum.digest (chksumBufferedRead (f.fwrite (o.dataOffset b + offset) (data.take len))
          (o.dataOffset b) used fsBufSize []).cs) = putBlock o f b offset (data.take len) := by
    intro used hused
    have hend := SparseFile.end_le_size_fwrite f (o.dataOffset b + offset) _ hne
    have hgrow := SparseFile.le_size_fwrite f (o.dataOffset b + offset) (data.take len)
    have hin : o.dataOffset b + used ≤
        (f.fwrite (o.dataOffset b + offset) (data.take len)).size := by
      rcases hs.inside_or b with h | h <;> omega
    rw [chksumBufferedRead_eq hin, List.nil_append, putBlock, htake, ← hused]
  rcases hs.inside_or b with ⟨hin, hinside⟩ | ⟨hout, hrec⟩
  · rw [chksumMergedWrite, readBlockHeader_inside hfits hin]
    dsimp only
    rw [chksumBufferedRead_eq hinside, List.nil_append, ← blockData]
    by_cases hc : Corrupt o f b
    · rw [if_pos hc, if_pos ⟨rfl, hc⟩]
    · rw [if_neg hc, if_neg fun h => hc h.2, if_neg (by decide), hwrite]
      unfold u32
      split <;> omega
  · obtain ⟨hused, herr⟩ := readBlockHeader_outside hrec (by omega)
    have hclean : ¬Corrupt o f b := fun h => by
      have := h.recorded_pos
      omega
    rw [chksumMergedWrite, hused, herr, if_neg hclean, if_neg (by simp), if_neg (by decide),
      if_pos (by omega)]
    dsimp only
    rw [hwrite]
    unfold u32
    omega

/-- `chksum_full_write` writes a whole data block. -/
theorem chksumFullWrite_eq (hsmall : o.Small) (hs : Shaped o f) (hb : b ≠ 0)
    (hdata : o.blocksize ≤ data.length) :
    chksumFullWrite o f b data = (.good, putBlock o f b 0 (data.take o.blocksize)) := by
  have hlt := hsmall.block
  have hfits := hs.fits b
  rw [show o.blockBytes b = o.blocksize from if_neg hb] at hfits
  have htake : (data.take o.blocksize).length = o.blocksize := by
    rw [List.length_take, min_eq_left hdata]
  have hoff := o.dataOffset_eq b
  have hused : max (recorded o f b) (0 + (data.take o.blocksize).length) = u32 o.blocksize := by
    unfold u32
    omega
  have hcs : fsChksumAdd [] o.blocksize data = data.take o.blocksize := by
    rw [fsChksumAdd, toNat_i32 hlt, List.nil_append]
  have hslice : slice (f.fwrite (o.dataOffset b + 0) (data.take o.blocksize)).byte (o.dataOffset b)
      (u32 o.blocksize) = data.take o.blocksize := by
    have hself := slice_splice_self f.byte (o.dataOffset b) (data.take o.blocksize)
    rw [htake] at hself
    rw [show u32 o.blocksize = o.blocksize by unfold u32; omega]
    exact hself
  rw [chksumFullWrite, putBlock, hused, hcs, hslice, add_zero, fsWriteBlockHeader,
    fsWriteBlockHeader, SparseFile.fwrite_comm _ (o.objOffset b + 4),
    SparseFile.fwrite_comm _ (o.objOffset b)]
  · rw [length_leBytes]
    omega
  · rw [o.chksum.length_digest]
    omega

end LStore.Osd
