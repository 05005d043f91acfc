import LStore.Base.Splice
import Mathlib.Data.UInt

/-!
# Growing an allocation

An allocation is stored as an object of the device: its record, room up to `ALLOC_HEADER`, and
the data. `modify_allocation_resource` stores a changed record and, when the allocation grows,
has `make_space` find room and then reserves or blanks the new part. What `make_space` does to
the object itself is an outcome it is given: it may remove the object when it has expired.
-/

namespace LStore.Ibp

open Splice Option SparseFile

/-- `ALLOC_HEADER` -/
def allocHeader : Nat := 4096

/-- `sizeof(Allocation_t)` -/
def allocationSize : Nat := 312

/-- `_RESOURCE_BUF_SIZE` -/
def resourceBufSize : Nat := 1048576

/-- The fields of an `Allocation_t` that decide on its space, and its bytes. -/
structure AllocRecord where
  size : Nat
  maxSize : Nat
  reliability : Nat
  bytes : List UInt8
  length_bytes : bytes.length = allocationSize

/-- The settings of a `Resource_t` that are read here. -/
structure ResourceConfig where
  updateAlloc : Bool
  preallocate : Nat

/-- `RES_RESERVE_FALLOCATE` and `RES_RESERVE_BLANK` of the setting. -/
def ResourceConfig.reserves (r : ResourceConfig) : Bool := r.preallocate.testBit 0

@[inherit_doc ResourceConfig.reserves]
def ResourceConfig.blanks (r : ResourceConfig) : Bool := r.preallocate.testBit 1

/-- What `make_space` comes to: no room, or room, perhaps by removing the allocation. -/
inductive SpaceOutcome where
  | refused
  | granted (evicted : Bool)
  deriving DecidableEq

abbrev ObjectFile := SparseFile UInt8

/-- The loop of `blank_space` over whole buffers. -/
def blankLoop : Nat → Nat → ObjectFile → ObjectFile
  | 0, _, f => f
  | bcount + 1, offset, f =>
    blankLoop bcount (offset + resourceBufSize)
      (f.fwrite offset (List.replicate resourceBufSize 0))

def blankSpace (f : ObjectFile) (off size : Nat) : ObjectFile :=
  let bcount := size / resourceBufSize
  let remainder := size - bcount * resourceBufSize
  let f := blankLoop bcount off f
  if 0 < remainder then
    f.fwrite (off + bcount * resourceBufSize) (List.replicate remainder 0)
  else f

/-- `osd_reserve`: the object has at least `len` bytes. -/
def osdReserve (f : ObjectFile) (len : Nat) : ObjectFile := f.resize (max f.size len)

def writeAllocationHeader (a : AllocRecord) (f : ObjectFile) : ObjectFile := f.fwrite 0 a.bytes

/-- `read_allocation_header`; nothing when the object is gone or too short. -/
def readAllocationHeader (obj : Option ObjectFile) : Option (List UInt8) :=
  obj.bind fun f =>
    if (f.fread 0 allocationSize).length = allocationSize then some (f.fread 0 allocationSize)
    else none

/-- `read_allocation` of one byte. -/
def readAllocation (obj : Option ObjectFile) (offset : Nat) : Option UInt8 :=
  obj.bind fun f => (f.fread (offset + allocHeader) 1).head?

/-- What is done to the object once there is room for `size` more bytes. -/
def fillSpace (r : ResourceConfig) (oldMax size : Nat) (f : ObjectFile) : ObjectFile :=
  if 0 < r.preallocate ∧ 0 < size then
    let f := if r.reserves then osdReserve f size else f
    if r.blanks then blankSpace f oldMax size else f
  else f

/-- `modify_allocation_resource` on an allocation that is no alias: whether it returns 0, and
the object. The record of the database, what `make_space` comes to, and whether the
database takes the record are given. -/
def modifyAllocationResource (r : ResourceConfig) (space : SpaceOutcome) (stored : Bool)
    (old : Option AllocRecord) (a : AllocRecord) (f : ObjectFile) : Bool × Option ObjectFile :=
  let f := if r.updateAlloc then writeAllocationHeader a f else f
  match old with
  | none => (false, some f)
  | some old =>
    if old.reliability ≠ a.reliability ∨ old.maxSize ≠ a.maxSize then
      if old.maxSize < a.maxSize then
        match space with
        | .refused => (false, some f)
        | .granted true => (stored, none)
        | .granted false =>
          (stored, some (fillSpace r old.maxSize (a.maxSize - old.maxSize) f))
      else if a.maxSize < a.size then (stored, some (f.resize (a.maxSize + allocHeader)))
      else (stored, some f)
    else (stored, some f)

/-- The data of a grown allocation: what could be read before is still there, with blanking the
new bytes are zero, the header is the new record, and nothing lies beyond the new end. -/
structure GrowKept (r : ResourceConfig) (oldMax : Nat) (a : AllocRecord) (f : ObjectFile)
    (obj : Option ObjectFile) : Prop where
  data : ∀ k < oldMax, ∀ b, readAllocation (some f) k = some b → readAllocation obj k = some b
  blank : r.blanks = true → ∀ k, oldMax ≤ k → k < a.maxSize → readAllocation obj k = some 0
  header : r.updateAlloc = true → readAllocationHeader obj = some a.bytes
  bounded : ∀ f' ∈ obj, f'.size ≤ allocHeader + a.maxSize

theorem readAllocation_some (f : ObjectFile) (k : Nat) :
    readAllocation (some f) k =
      if k + allocHeader < f.size then some (f.byte (k + allocHeader)) else none := by
  rw [readAllocation, bind_some, head?_fread_one]

@[simp] theorem readAllocation_none (k : Nat) : readAllocation none k = none := rfl

theorem size_fwrite_zeros (f : ObjectFile) (off : Nat) {n} (hn : 0 < n) :
    (f.fwrite off (List.replicate n 0)).size = max f.size (off + n) := by
  rw [size_fwrite _ _ _ (by simp; omega), List.length_replicate]

theorem size_blankLoop (bcount off : Nat) (f : ObjectFile) :
    (blankLoop bcount off f).size ≤ max f.size (off + bcount * resourceBufSize) := by
  induction bcount generalizing off f with
  | zero => exact le_max_left _ _
  | succ bcount ih =>
    have hnext := ih (off + resourceBufSize) (f.fwrite off (List.replicate resourceBufSize 0))
    rw [size_fwrite_zeros f off (by decide)] at hnext
    rw [blankLoop, Nat.succ_mul]
    omega

/-- Blanking makes an object no longer than its last byte. -/
theorem size_blankSpace (f : ObjectFile) (off size : Nat) :
    (blankSpace f off size).size ≤ max f.size (off + size) := by
  have hloop := size_blankLoop (size / resourceBufSize) off f
  have hle := Nat.div_mul_le_self size resourceBufSize
  simp only [blankSpace]
  split
  · rw [size_fwrite_zeros _ _ ‹_›]
    omega
  · omega

theorem byte_blankSpace (f : ObjectFile) (off : Nat) {size p} (hsize : size < resourceBufSize)
    (hle : off ≤ p) (hlt : p < off + size) : (blankSpace f off size).byte p = 0 := by
  obtain ⟨i, rfl⟩ : ∃ i, p = off + i := ⟨p - off, by omega⟩
  simp only [blankSpace, Nat.div_eq_of_lt hsize, Nat.zero_mul, add_zero, blankLoop]
  rw [if_pos (by omega), byte_fwrite, splice_inside _ _ _ (by simp; omega),
    List.getElem_replicate]

/-- Reserving keeps every byte. -/
theorem byte_osdReserve (f : ObjectFile) (len p : Nat) : (osdReserve f len).byte p = f.byte p := by
  simp only [osdReserve, resize]
  split
  · rfl
  · exact (f.beyond p (by omega)).symm

/-- The object a call works on: with the new record in its header, if headers are kept. -/
def withHeader (r : ResourceConfig) (a : AllocRecord) (f : ObjectFile) : ObjectFile :=
  if r.updateAlloc then writeAllocationHeader a f else f

theorem AllocRecord.bytes_ne_nil (a : AllocRecord) : a.bytes ≠ [] :=
  List.ne_nil_of_length_pos (by rw [a.length_bytes]; decide)

theorem size_withHeader (r : ResourceConfig) (a : AllocRecord) (f : ObjectFile) :
    f.size ≤ (withHeader r a f).size ∧ (withHeader r a f).size ≤ max f.size allocHeader := by
  have hlen := a.length_bytes
  simp only [withHeader]
  split
  · rw [writeAllocationHeader, size_fwrite _ _ _ a.bytes_ne_nil, hlen]
    simp only [allocationSize, allocHeader]
    omega
  · omega

theorem byte_withHeader (r : ResourceConfig) (a : AllocRecord) (f : ObjectFile) {p}
    (hp : allocHeader ≤ p) : (withHeader r a f).byte p = f.byte p := by
  simp only [withHeader]
  split
  · rw [writeAllocationHeader, byte_fwrite]
    refine splice_outside _ _ _ (.inr ?_)
    rw [a.length_bytes, zero_add]
    exact le_trans (by decide) hp
  · rfl

theorem readAllocationHeader_withHeader {r} (a : AllocRecord) (f : ObjectFile)
    (hu : r.updateAlloc = true) {g} (hsize : (withHeader r a f).size ≤ g.size)
    (hbyte : ∀ p, g.byte p = (withHeader r a f).byte p) :
    readAllocationHeader (some g) = some a.bytes := by
  have hwrite : withHeader r a f = f.fwrite 0 a.bytes := if_pos hu
  have hlen := a.length_bytes
  have hend : 0 + a.bytes.length ≤ (f.fwrite 0 a.bytes).size :=
    end_le_size_fwrite _ _ _ a.bytes_ne_nil
  have hread : g.fread 0 allocationSize = a.bytes := by
    rw [hwrite] at hsize hbyte
    rw [fread_eq (by omega), ← hlen, slice_congr 0 a.bytes.length fun i _ => hbyte _]
    exact slice_splice_self f.byte 0 a.bytes
  rw [readAllocationHeader, bind_some, hread, if_pos hlen]

variable {r : ResourceConfig} {space : SpaceOutcome} {stored : Bool} {old a : AllocRecord}
  {f : ObjectFile} {obj : Option ObjectFile}

/-- A grow that succeeds had room, and the object is gone or filled up. -/
theorem modifyAllocationResource_grow (hgrow : old.maxSize < a.maxSize)
    (hrun : modifyAllocationResource r space stored (some old) a f = (true, obj)) :
    space = .granted true ∧ obj = none ∨
      space = .granted false ∧
        obj = some (fillSpace r old.maxSize (a.maxSize - old.maxSize) (withHeader r a f)) := by
  have hmax : old.reliability ≠ a.reliability ∨ old.maxSize ≠ a.maxSize := .inr (by omega)
  simp only [modifyAllocationResource, if_pos hmax, if_pos hgrow] at hrun
  cases space with
  | refused => exact absurd (Prod.mk.inj hrun).1 (by decide)
  | granted evicted =>
    cases evicted with
    | true => exact .inl ⟨rfl, (congrArg Prod.snd hrun).symm⟩
    | false => exact .inr ⟨rfl, (congrArg Prod.snd hrun).symm⟩

/-- Blanking starts a header's length too early, so that it ends before the new end. -/
theorem not_growKept_of_blanks (hb : r.blanks = true) (hgrow : old.maxSize < a.maxSize)
    (hfit : f.size ≤ allocHeader + old.maxSize) :
    ¬GrowKept r old.maxSize a f
      (some (fillSpace r old.maxSize (a.maxSize - old.maxSize) (withHeader r a f))) := by
  intro h
  have hlast := h.blank hb (a.maxSize - 1) (by omega) (by omega)
  have hheader := (size_withHeader r a f).2
  rw [readAllocation_some] at hlast
  split at hlast
  case isFalse => exact absurd hlast (by simp)
  case isTrue hin =>
    have hfilled : (fillSpace r old.maxSize (a.maxSize - old.maxSize) (withHeader r a f)).size ≤
        max (max f.size allocHeader) a.maxSize := by
      have hreserve (g : ObjectFile) :
          (if r.reserves = true then osdReserve g (a.maxSize - old.maxSize) else g).size ≤
            max g.size (a.maxSize - old.maxSize) := by
        split
        · exact le_rfl
        · exact le_max_left _ _
      have hkept := hreserve (withHeader r a f)
      simp only [fillSpace]
      split
      · have hblank := size_blankSpace
          (if r.reserves = true then osdReserve (withHeader r a f) (a.maxSize - old.maxSize)
            else withHeader r a f) old.maxSize (a.maxSize - old.maxSize)
        omega
      · omega
    have hpos : 0 < allocHeader := by decide
    omega

/-- Without blanking a grow adds at most zeros behind the data. -/
theorem fillSpace_of_not_blanks (hb : r.blanks = false) (oldMax size : Nat) (g : ObjectFile) :
    (∀ p, (fillSpace r oldMax size g).byte p = g.byte p) ∧
      g.size ≤ (fillSpace r oldMax size g).size ∧
      (fillSpace r oldMax size g).size ≤ max g.size size := by
  have hno : ¬r.blanks = true := by simp [hb]
  simp only [fillSpace, if_neg hno]
  split_ifs
  · exact ⟨byte_osdReserve g size, le_max_left _ _, le_rfl⟩
  · exact ⟨fun _ => rfl, le_rfl, le_max_left _ _⟩
  · exact ⟨fun _ => rfl, le_rfl, le_max_left _ _⟩

theorem growKept_of_not_blanks (hb : r.blanks = false) (hgrow : old.maxSize < a.maxSize)
    (hfit : f.size ≤ allocHeader + old.maxSize) :
    GrowKept r old.maxSize a f
      (some (fillSpace r old.maxSize (a.maxSize - old.maxSize) (withHeader r a f))) := by
  obtain ⟨hbyte, hge, hle⟩ :=
    fillSpace_of_not_blanks hb old.maxSize (a.maxSize - old.maxSize) (withHeader r a f)
  obtain ⟨hkeep, hheader⟩ := size_withHeader r a f
  constructor
  case data =>
    intro k _ b hread
    rw [readAllocation_some] at hread ⊢
    split at hread
    · rw [if_pos (by omega), hbyte, byte_withHeader r a f (by omega)]
      exact hread
    · simp at hread
  case blank =>
    intro hblank
    rw [hb] at hblank
    exact Bool.noConfusion hblank
  case header => exact fun hu => readAllocationHeader_withHeader a f hu hge hbyte
  case bounded =>
    intro f' hf'
    cases hf'
    omega

/-- A grow that succeeds keeps the data exactly when blanking is off and `make_space` has not
removed the allocation itself, or has when it had no data and headers are not kept. -/
theorem growKept_iff (hgrow : old.maxSize < a.maxSize) (hfit : f.size ≤ allocHeader + old.maxSize)
    (hrun : modifyAllocationResource r space stored (some old) a f = (true, obj)) :
    GrowKept r old.maxSize a f obj ↔
      r.blanks = false ∧
        (space = .granted true → f.size ≤ allocHeader ∧ r.updateAlloc = false) := by
  rcases modifyAllocationResource_grow hgrow hrun with ⟨rfl, rfl⟩ | ⟨rfl, rfl⟩
  · constructor
    · intro h
      refine ⟨Bool.eq_false_iff.mpr fun hb => ?_, fun _ => ⟨?_, Bool.eq_false_iff.mpr fun hu => ?_⟩⟩
      · exact absurd (h.blank hb old.maxSize le_rfl hgrow) (by simp)
      · by_contra hdata
        have hread := readAllocation_some f 0
        rw [if_pos (by omega)] at hread
        exact absurd (h.data 0 (by omega) _ hread) (by simp)
      · exact absurd (h.header hu) (by simp [readAllocationHeader])
    · rintro ⟨hb, hgone⟩
      obtain ⟨hsize, hu⟩ := hgone rfl
      refine ⟨fun k _ b hread => ?_, fun h => ?_, fun h => ?_, fun f' hf' => nomatch hf'⟩
      · rw [readAllocation_some, if_neg (by omega)] at hread
        simp at hread
      · exact absurd h (by simp [hb])
      · exact absurd h (by simp [hu])
  · constructor
    · intro h
      refine ⟨Bool.eq_false_iff.mpr fun hb => ?_, fun hgone => ?_⟩
      · exact not_growKept_of_blanks hb hgrow hfit h
      · simp at hgone
    · rintro ⟨hb, -⟩
      exact growKept_of_not_blanks hb hgrow hfit

/-- A record of a given size, without caps. -/
def plainRecord (maxSize : Nat) : AllocRecord :=
  ⟨0, maxSize, 0, List.replicate allocationSize 0, List.length_replicate⟩

/-- An object with the first byte of its data only. -/
def oneByteObject : ObjectFile := SparseFile.empty.fwrite allocHeader [7]

theorem size_oneByteObject : oneByteObject.size = allocHeader + 1 := by
  rfl

theorem growKept_reserved :
    oneByteObject.size ≤ allocHeader + (plainRecord 1).maxSize ∧
      GrowKept ⟨true, 1⟩ 1 (plainRecord 2) oneByteObject
        (some (fillSpace ⟨true, 1⟩ 1 1 (withHeader ⟨true, 1⟩ (plainRecord 2) oneByteObject))) := by
  have hfit : oneByteObject.size ≤ allocHeader + (plainRecord 1).maxSize :=
    le_of_eq size_oneByteObject
  have hrun : modifyAllocationResource _ (.granted false) true (some (plainRecord 1))
      (plainRecord 2) oneByteObject = (true, some (fillSpace _ 1 1
        (withHeader ⟨true, 1⟩ _ oneByteObject))) := rfl
  have hgrow : (plainRecord 1).maxSize < (plainRecord 2).maxSize := by decide
  refine ⟨hfit, (growKept_iff hgrow hfit hrun).mpr ⟨rfl, fun h => ?_⟩⟩
  exact absurd h (by decide)

/-- A full allocation of one byte grows to 5000 with blanking: its byte is overwritten. -/
theorem grow_blanks_data :
    modifyAllocationResource ⟨false, 2⟩ (.granted false) true (some (plainRecord 1))
        (plainRecord 5000) oneByteObject = (true, some (blankSpace oneByteObject 1 4999)) ∧
      readAllocation (some oneByteObject) 0 = some 7 ∧
      (blankSpace oneByteObject 1 4999).byte allocHeader = 0 ∧
      ¬GrowKept ⟨false, 2⟩ 1 (plainRecord 5000) oneByteObject
        (some (blankSpace oneByteObject 1 4999)) := by
  have hread : readAllocation (some oneByteObject) 0 = some 7 := by
    rw [readAllocation_some, if_pos (by rw [size_oneByteObject]; omega)]
    rfl
  have hzero : (blankSpace oneByteObject 1 4999).byte allocHeader = 0 :=
    byte_blankSpace _ _ (by decide) (by decide) (by decide)
  refine ⟨?_, hread, hzero, fun h => ?_⟩
  · have hblanks : ResourceConfig.blanks ⟨false, 2⟩ = true := by decide
    have hreserves : ResourceConfig.reserves ⟨false, 2⟩ = false := by decide
    simp [modifyAllocationResource, fillSpace, plainRecord, hblanks, hreserves]
  have hkept := h.data 0 one_pos 7 hread
  rw [readAllocation_some] at hkept
  split at hkept
  · rw [zero_add, hzero] at hkept
    exact absurd (some.inj hkept) (by decide)
  · simp at hkept

end LStore.Ibp
