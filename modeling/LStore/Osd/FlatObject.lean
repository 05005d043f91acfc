import LStore.Osd.BlockWrite
import LStore.Osd.Calls

/-!
# A checksummed object as a flat array of bytes

On a disk that nobody else touches, reads and writes of an object behave as those of one flat
array that starts out as zeros. Short blocks and holes show zeros, and what the cache lets a read
skip does not matter.
-/

namespace LStore.Osd

open Splice List Mapping

theorem Object.blockStart_le_of_lt (o : Object) {b b'} (h : b < b') :
    o.blockStart b + o.blockBytes b ≤ o.blockStart b' := by
  induction b' with
  | zero => omega
  | succ b' ih =>
    rw [blockStart_succ]
    by_cases heq : b = b'
    · subst heq
      exact le_rfl
    · omega

/-- The file holds the bytes of a flat array. -/
structure Stores (o : Object) (f : SparseFile UInt8) (c : Nat → UInt8) : Prop where
  shaped : Shaped o f
  clean : ∀ b, ¬Corrupt o f b
  data : ∀ b i, i < o.blockBytes b → f.byte (o.dataOffset b + i) = c (o.blockStart b + i)
  zero : ∀ b i, recorded o f b ≤ i → i < o.blockBytes b → c (o.blockStart b + i) = 0

/-- The file reaches as far as the array has been written. -/
def Reaching (o : Object) (f : SparseFile UInt8) (top : Nat) : Prop :=
  ∀ b i, i < o.blockBytes b → o.blockStart b + i < top → o.dataOffset b + i < f.size

variable {o : Object} {f : SparseFile UInt8} {c : Nat → UInt8} {top b offset : Nat}

theorem splice_shift {f g} (p q offset : Nat) (bs : List UInt8) {i} (h : f (p + i) = g (q + i)) :
    splice f (p + offset) bs (p + i) = splice g (q + offset) bs (q + i) := by
  by_cases hi : i < offset ∨ offset + bs.length ≤ i
  · rw [splice_outside _ _ _ (by omega), splice_outside _ _ _ (by omega), h]
  · obtain ⟨k, rfl⟩ : ∃ k, i = offset + k := ⟨i - offset, by omega⟩
    rw [← add_assoc, ← add_assoc, splice_inside _ _ _ (by omega),
      splice_inside _ _ _ (by omega)]

/-- Writing into a block writes into the array. -/
theorem Stores.putBlock (hst : Stores o f c) (hsmall : o.Small) {bs}
    (hfit : offset + bs.length ≤ o.blockBytes b) (hne : bs ≠ []) :
    Stores o (putBlock o f b offset bs) (splice c (o.blockStart b + offset) bs) := by
  have hlt := hsmall.blockBytes_lt b
  have hfits := hst.shaped.fits b
  have hap : ∀ {b'}, b' ≠ b → ∀ {i}, i < o.blockBytes b' →
      o.blockStart b' + i < o.blockStart b + offset ∨
        o.blockStart b + offset + bs.length ≤ o.blockStart b' + i := by
    intro b' hb' i hi
    rcases lt_or_gt_of_ne hb' with hlt | hgt
    · have := o.blockStart_le_of_lt hlt
      omega
    · have := o.blockStart_le_of_lt hgt
      omega
  refine ⟨hst.shaped.putBlock hsmall hfit hne, ?_, ?_, ?_⟩
  · intro b'
    by_cases hb' : b' = b
    · rw [hb']
      exact not_corrupt_putBlock (by omega)
    · rw [corrupt_putBlock_other hfit hb' (hst.shaped.fits b')]
      exact hst.clean b'
  · intro b' i hi
    by_cases hb' : b' = b
    · subst hb'
      rw [byte_putBlock_data]
      exact splice_shift _ _ _ _ (hst.data b' i hi)
    · have hoff := o.dataOffset_eq b'
      rw [splice_outside _ _ _ (hap hb' hi), ← hst.data b' i hi]
      exact byte_putBlock_other hfit hb' (by omega) (by omega)
  · intro b' i hrec hi
    by_cases hb' : b' = b
    · subst hb'
      rw [recorded_putBlock (by omega)] at hrec
      rw [splice_outside _ _ _ (by omega)]
      exact hst.zero b' i (by omega) hi
    · rw [recorded_putBlock_other hfit hb'] at hrec
      rw [splice_outside _ _ _ (hap hb' hi)]
      exact hst.zero b' i hrec hi

theorem Reaching.putBlock (hr : Reaching o f top) {bs}
    (hfit : offset + bs.length ≤ o.blockBytes b) (hne : bs ≠ []) :
    Reaching o (putBlock o f b offset bs) (max top (o.blockStart b + offset + bs.length)) := by
  intro b' i hi htop
  have hsize : f.size ≤ (Osd.putBlock o f b offset bs).size := le_size_putBlock
  have hend : o.dataOffset b + offset + bs.length ≤ (Osd.putBlock o f b offset bs).size :=
    end_le_size_putBlock hne
  by_cases hold : o.blockStart b' + i < top
  · exact lt_of_lt_of_le (hr b' i hi hold) hsize
  · rcases lt_trichotomy b' b with hlt | rfl | hgt
    · have hle := o.objOffset_le_of_lt hlt
      have hoff := o.dataOffset_eq b
      omega
    · omega
    · have hle := o.blockStart_le_of_lt hgt
      omega

/-- What a block shows is what the array has. -/
theorem Stores.slice_shown_eq (hst : Stores o f c) {len} (hfit : offset + len ≤ o.blockBytes b) :
    slice (shown o f b) offset len = slice c (o.blockStart b + offset) len := by
  refine slice_congr _ _ fun i hi => ?_
  rw [shown, add_assoc]
  split
  · exact hst.data b _ (by omega)
  · exact (hst.zero b _ (by omega) (by omega)).symm

theorem Stores.slice_data_eq (hst : Stores o f c) {len} (hfit : offset + len ≤ o.blockBytes b) :
    slice f.byte (o.dataOffset b + offset) len = slice c (o.blockStart b + offset) len := by
  refine slice_congr _ _ fun i hi => ?_
  rw [add_assoc, add_assoc]
  exact hst.data b _ (by omega)

/-- How much of the caller's buffer is done when `b` is the next block. -/
def Mapping.doneAt (o : Object) (len : Nat) (m : Mapping) (b : Nat) : Nat :=
  if b ≤ m.endBlock then m.bposOf o b else len

section

variable {len : Nat} {m : Mapping} (hm : m.Covers o offset len)
include hm

theorem Mapping.Covers.doneAt_first : m.doneAt o len (m.startBlock + 1) = m.startSize := by
  rw [doneAt]
  split
  · exact bposOf_next
  · have hle := hm.le
    exact (hm.one (by omega)).symm

theorem Mapping.Covers.doneAt_middle {b} (hlo : m.startBlock < b) (hhi : b < m.endBlock) :
    m.doneAt o len (b + 1) = m.bposOf o b + o.blocksize := by
  have hthis := hm.bposOf_eq hlo (le_of_lt hhi)
  have hnext := hm.bposOf_eq (show m.startBlock < b + 1 by omega) hhi
  rw [o.blockStart_succ, Object.blockBytes, if_neg (by omega)] at hnext
  rw [doneAt, if_pos (show b + 1 ≤ m.endBlock from hhi)]
  omega

theorem Mapping.Covers.doneAt_last (hlt : m.startBlock < m.endBlock) :
    m.doneAt o len (m.endBlock + 1) = m.bposOf o m.endBlock + m.endSize := by
  have hthis := hm.bposOf_eq hlt le_rfl
  have hfinish := hm.finish hlt
  rw [doneAt, if_neg (by omega)]
  omega

theorem Mapping.Covers.doneAt_start : m.doneAt o len m.startBlock = 0 := by
  rw [doneAt, if_pos hm.le, bposOf_start]

omit hm in
theorem Mapping.doneAt_end : m.doneAt o len (m.endBlock + 1) = len := if_neg (by omega)

omit hm in
theorem Mapping.doneAt_eq_bposOf {b} (hb : b ≤ m.endBlock) :
    m.doneAt o len b = m.bposOf o b := if_pos hb

theorem Mapping.Covers.doneAt_le (b : Nat) (hb : m.startBlock ≤ b) : m.doneAt o len b ≤ len := by
  rw [doneAt]
  split_ifs with hle
  · by_cases heq : b = m.startBlock
    · rw [heq, bposOf_start]
      exact Nat.zero_le _
    · have hpos := hm.bposOf_eq (show m.startBlock < b by omega) hle
      have hfinish := hm.finish (by omega)
      by_cases hlast : b = m.endBlock
      · subst hlast
        omega
      · have hbelow := o.blockStart_le_of_lt (show b < m.endBlock by omega)
        omega
  · exact le_rfl

end

variable {data : List UInt8} {m : Mapping}
variable {v : WriteVars}

/-- What a write has done when `p` bytes of its data are stored. -/
structure Written (o : Object) (c : Nat → UInt8) (top offset : Nat) (data : List UInt8) (p : Nat)
    (v : WriteVars) : Prop where
  good : v.err = .good
  stores : Stores o v.file (splice c offset (data.take p))
  reaching : Reaching o v.file (if p = 0 then top else max top (offset + p))

/-- A block of the write is stored. -/
theorem Written.next {p n b off} (h : Written o c top offset data p v) (hsmall : o.Small)
    (hplace : offset + p = o.blockStart b + off) (hfit : off + n ≤ o.blockBytes b) (hn : 1 ≤ n)
    (hdata : p + n ≤ data.length) :
    Written o c top offset data (p + n)
      (v.after b (.good, putBlock o v.file b off ((data.drop p).take n))) := by
  have hlen : ((data.drop p).take n).length = n := by
    rw [length_take, length_drop]
    omega
  have htake : (data.take p).length = p := by
    rw [length_take]
    omega
  have hne : (data.drop p).take n ≠ [] := ne_nil_of_length_pos (by omega)
  have hfit' : off + ((data.drop p).take n).length ≤ o.blockBytes b := by omega
  refine ⟨h.good, ?_, ?_⟩
  · have hput := h.stores.putBlock hsmall hfit' hne
    rw [← hplace] at hput
    have hsplice := splice_append c offset (data.take p) ((data.drop p).take n)
    rw [htake, ← take_add] at hsplice
    rw [hsplice]
    exact hput
  · have hput := h.reaching.putBlock hfit' hne
    rw [← hplace, hlen] at hput
    intro b' i hi hp
    rw [if_neg (by omega)] at hp
    refine hput b' i hi ?_
    split <;> omega

theorem Written.mergedWrite {p n b off} (h : Written o c top offset data p v) (hsmall : o.Small)
    (hplace : offset + p = o.blockStart b + off) (hfit : off + n ≤ o.blockBytes b) (hn : 1 ≤ n)
    (hdata : p + n ≤ data.length) :
    Written o c top offset data (p + n)
      (v.after b (chksumMergedWrite o v.file b off n (data.drop p))) := by
  rw [chksumMergedWrite_eq hsmall h.stores.shaped hfit hn (by rw [length_drop]; omega),
    if_neg (h.stores.clean b)]
  exact h.next hsmall hplace hfit hn hdata

theorem Written.fullWrite {p b} (h : Written o c top offset data p v) (hsmall : o.Small)
    (hplace : offset + p = o.blockStart b) (hb : b ≠ 0) (hdata : p + o.blocksize ≤ data.length) :
    Written o c top offset data (p + o.blocksize)
      (v.after b (chksumFullWrite o v.file b (data.drop p))) := by
  have hbytes : o.blockBytes b = o.blocksize := if_neg hb
  rw [chksumFullWrite_eq hsmall h.stores.shaped hb (by rw [length_drop]; omega)]
  exact h.next hsmall hplace (by omega) o.blocksize_pos hdata

/-- A write stores its data. -/
theorem fsChksumWrite_flat (hsmall : o.Small) {d} (hst : Stores o d.file c)
    (hr : Reaching o d.file top) (hlen : 1 ≤ data.length)
    (hmap : m = fsMapping o offset data.length) (hint : m.IntMiddle) (env : CallEnv)
    (hgrants : Grants m.endBlock m.startBlock env.grants) :
    (fsChksumWrite o env d offset data).1 = .good ∧
      Stores o (fsChksumWrite o env d offset data).2.file (splice c offset data) ∧
      Reaching o (fsChksumWrite o env d offset data).2.file (max top (offset + data.length)) := by
  have hm : m.Covers o offset data.length := hmap ▸ fsMapping_covers o offset hlen
  rw [fsChksumWrite, ← hmap]
  have hend : Written o c top offset data (m.doneAt o data.length (m.endBlock + 1))
      (walk o (writeHandlers o m data) m env.grants
        ⟨m.startBlock, 0, ⟨d.file, d.cache, .good, .good⟩⟩).inner := by
    refine walk_rule (I := fun b v => Written o c top offset data (m.doneAt o data.length b) v)
      (K := fun _ _ => True) hm.size_pos hint ?_ ?_ ?_ hgrants
      ⟨rfl, le_rfl, fun _ => bposOf_start.symm, ?_⟩ (keyed_true _ _)
    · intro v hv
      have hle := hm.doneAt_le (m.startBlock + 1) (by omega)
      rw [hm.doneAt_first] at hle ⊢
      rw [hm.doneAt_start] at hv
      rw [← zero_add m.startSize] at hle ⊢
      exact hv.mergedWrite hsmall hm.start hm.start_fits hm.size_pos hle
    · intro _ b v hlo hhi _ hv
      have hle := hm.doneAt_le (b + 1) (by omega)
      rw [hm.doneAt_middle hlo hhi] at hle ⊢
      rw [doneAt_eq_bposOf (le_of_lt hhi)] at hv
      exact hv.fullWrite hsmall (hm.bposOf_eq hlo (le_of_lt hhi)) (by omega) hle
    · intro _ v hlt _ hv
      have hle := hm.doneAt_le (m.endBlock + 1) (by omega)
      rw [hm.doneAt_last hlt] at hle ⊢
      rw [doneAt_eq_bposOf le_rfl] at hv
      exact hv.mergedWrite hsmall (hm.bposOf_eq hlt le_rfl)
        (by rw [zero_add]; exact hm.end_fits hlt) hm.end_pos hle
    · rw [hm.doneAt_start]
      exact ⟨rfl, by simpa using hst, by simpa using hr⟩
  rw [doneAt_end] at hend
  refine ⟨hend.good, ?_, ?_⟩
  · have hstores := hend.stores
    rw [take_length] at hstores
    rw [Depot.file_record]
    exact hstores
  · have hreach := hend.reaching
    rw [if_neg (by omega)] at hreach
    rw [Depot.file_record]
    exact hreach

/-- What a read has done when `p` bytes are in the buffer. -/
structure Served (c : Nat → UInt8) (offset : Nat) (mem : Mem) (p : Nat) (v : ReadVars) : Prop where
  good : v.err = .good
  mem : v.mem = splice mem 0 (slice c offset p)

/-- A block of the read arrives. -/
theorem Served.next {mem p n v} (h : Served c offset mem p v) (cache : Option Cache)
    (checks : List (Nat × Int)) :
    Served c offset mem (p + n)
      (v.after cache checks (.good, splice v.mem p (slice c (offset + p) n))) := by
  refine ⟨h.good, ?_⟩
  have hnext := splice_slice_next mem 0 (g := c) offset p n
  rw [zero_add, ← h.mem] at hnext
  exact hnext

/-- The `n` bytes at an offset of a block, the bytes at `pos` of the array, can be read in each
way. -/
structure Readable (o : Object) (f : SparseFile UInt8) (c : Nat → UInt8) (b off n pos : Nat) :
    Prop where
  direct : ∀ mem bpos, chksumDirectRead o f b off n mem bpos =
    (.good, splice mem bpos (slice c pos n))
  merged : ∀ mem bpos, chksumMergedRead o f b off n mem bpos =
    (.good, splice mem bpos (slice c pos n))
  full : b ≠ 0 → off = 0 → n = o.blocksize → ∀ mem bpos, chksumFullRead o f b mem bpos =
    (.good, splice mem bpos (slice c pos n))

/-- What is written as far as it is read can be read in each way. -/
theorem Stores.readable (hst : Stores o f c) (hsmall : o.Small) (hr : Reaching o f top)
    {b off n pos} (hpos : pos = o.blockStart b + off) (hfit : off + n ≤ o.blockBytes b)
    (hn : 1 ≤ n) (htop : pos + n ≤ top) : Readable o f c b off n pos := by
  subst hpos
  have hin : o.dataOffset b + (off + n - 1) < f.size := hr b _ (by omega) (by omega)
  refine ⟨?_, ?_, ?_⟩
  · intro mem bpos
    rw [chksumDirectRead_eq mem bpos (by omega), hst.slice_data_eq hfit]
  · intro mem bpos
    rw [chksumMergedRead_eq hsmall hst.shaped, if_neg (hst.clean b), hst.slice_shown_eq hfit]
  · intro hb hoff hsize mem bpos
    have hbytes : o.blockBytes b = o.blocksize := if_neg hb
    subst hoff hsize
    rw [chksumFullRead_eq hsmall hst.shaped hb, if_neg (not_or.mpr ⟨by omega, hst.clean b⟩),
      hst.slice_shown_eq hfit]

theorem Served.through {mem p n v} (h : Served c offset mem p v) (env : CallEnv) (key block : Nat)
    {direct checked}
    (hdirect : ∀ mem, direct mem = (.good, splice mem p (slice c (offset + p) n)))
    (hchecked : ∀ mem, checked mem = (.good, splice mem p (slice c (offset + p) n))) :
    Served c offset mem (p + n) (v.through env key block direct checked) := by
  rw [ReadVars.through]
  dsimp only
  split
  · rw [hdirect]
    exact h.next _ _
  · rw [hchecked]
    exact h.next _ _

/-- A read gets the bytes of the array, whatever the cache holds. -/
theorem fsChksumRead_flat (hsmall : o.Small) {d} (hst : Stores o d.file c)
    (hr : Reaching o d.file top) {len} (hlen : 1 ≤ len) (htop : offset + len ≤ top)
    (hmap : m = fsMapping o offset len) (hint : m.IntMiddle) (env : CallEnv)
    (hgrants : Grants m.endBlock m.startBlock env.grants) (mem : Mem) :
    (fsChksumRead o env d offset len mem).1 = .good ∧
      slice (fsChksumRead o env d offset len mem).2.1 0 len = slice c offset len ∧
      (fsChksumRead o env d offset len mem).2.2.file = d.file := by
  have hm : m.Covers o offset len := hmap ▸ fsMapping_covers o offset hlen
  rw [fsChksumRead, readVars, ← hmap]
  have hend : Served c offset mem (m.doneAt o len (m.endBlock + 1))
      (walk o (readHandlers o d.file env m) m env.grants
        ⟨m.startBlock, 0, ⟨d.cache, mem, 0, .good, .good, []⟩⟩).inner := by
    refine walk_rule (I := fun b v => Served c offset mem (m.doneAt o len b) v)
      (K := fun _ _ => True) hm.size_pos hint ?_ ?_ ?_ hgrants
      ⟨rfl, le_rfl, fun _ => bposOf_start.symm, ?_⟩ (keyed_true _ _)
    · intro v hv
      have hle := hm.doneAt_le (m.startBlock + 1) (by omega)
      rw [hm.doneAt_first] at hle ⊢
      rw [hm.doneAt_start] at hv
      have hblock := hst.readable hsmall hr hm.start hm.start_fits hm.size_pos (by omega)
      rw [← zero_add m.startSize, readHandlers_first]
      exact hv.through env _ _ (fun mem => hblock.direct mem 0) (fun mem => hblock.merged mem 0)
    · intro key b v hlo hhi _ hv
      have hle := hm.doneAt_le (b + 1) (by omega)
      rw [hm.doneAt_middle hlo hhi] at hle ⊢
      rw [doneAt_eq_bposOf (le_of_lt hhi)] at hv
      have hbytes : o.blockBytes b = o.blocksize := if_neg (by omega)
      have hpos := hm.bposOf_eq hlo (le_of_lt hhi)
      have hblock : Readable o d.file c b 0 o.blocksize (offset + m.bposOf o b) :=
        hst.readable hsmall hr (by omega) (by omega) o.blocksize_pos (by omega)
      have hb : b ≠ 0 := by omega
      rw [readHandlers_middle]
      exact hv.through env key b (fun mem => hblock.direct mem (m.bposOf o b))
        (fun mem => hblock.full hb rfl rfl mem (m.bposOf o b))
    · intro key v hlt _ hv
      have hle := hm.doneAt_le (m.endBlock + 1) (by omega)
      rw [hm.doneAt_last hlt] at hle ⊢
      rw [doneAt_eq_bposOf le_rfl] at hv
      have hfits := hm.end_fits hlt
      have hpos := hm.bposOf_eq hlt le_rfl
      have hblock : Readable o d.file c m.endBlock 0 m.endSize (offset + m.bposOf o m.endBlock) :=
        hst.readable hsmall hr (by omega) (by omega) hm.end_pos (by omega)
      change Served c offset mem _ (v.after _ _ (if _ then _ else _))
      rw [hblock.direct, hblock.merged, ite_self]
      exact hv.next _ _
    · rw [hm.doneAt_start]
      exact ⟨rfl, by simp⟩
  rw [doneAt_end] at hend
  refine ⟨hend.good, ?_, by rw [Depot.file_record]⟩
  have hself := slice_splice_self mem 0 (slice c offset len)
  rw [length_slice, ← hend.mem] at hself
  exact hself

end LStore.Osd
