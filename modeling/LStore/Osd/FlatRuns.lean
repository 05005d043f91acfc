import LStore.Osd.FlatObject

/-!
# Sequences of reads and writes

Every sequence of calls on a fresh object gives the results of the same calls on a flat array of
zeros, as long as the sizes and block numbers that the code keeps in an `int` fit there.
-/

namespace LStore.Osd

open Splice

/-- A call on the object, with what it gets from outside. -/
inductive Call where
  | write (env : CallEnv) (offset : Nat) (data : List UInt8)
  | read (env : CallEnv) (offset len : Nat) (mem : Mem)

/-- The result of a call and the object after it: a read gives the first `len` bytes of the
caller's buffer. -/
def Call.exec (o : Object) (d : Depot) : Call → (OsdState × List UInt8) × Depot
  | .write env offset data =>
    let res := fsChksumWrite o env d offset data
    ((res.1, []), res.2)
  | .read env offset len mem =>
    let res := fsChksumRead o env d offset len mem
    ((res.1, slice res.2.1 0 len), res.2.2)

/-- The results of calls, one after the other. -/
def results (o : Object) : Depot → List Call → List (OsdState × List UInt8)
  | _, [] => []
  | d, call :: calls => (call.exec o d).1 :: results o (call.exec o d).2 calls

/-- A flat array: its bytes and the end of what has been written. -/
structure Flat where
  content : Nat → UInt8
  top : Nat

/-- Nothing is written yet. -/
def Flat.empty : Flat := ⟨fun _ => 0, 0⟩

/-- The call on a flat array. -/
def Call.flat (s : Flat) : Call → (OsdState × List UInt8) × Flat
  | .write _ offset data =>
    ((.good, []), ⟨splice s.content offset data, max s.top (offset + data.length)⟩)
  | .read _ offset len _ => ((.good, slice s.content offset len), s)

/-- The results of calls on a flat array. -/
def flatResults : Flat → List Call → List (OsdState × List UInt8)
  | _, [] => []
  | s, call :: calls => (call.flat s).1 :: flatResults (call.flat s).2 calls

/-- The blocks of a call. -/
def Call.mapping (o : Object) : Call → Mapping
  | .write _ offset data => fsMapping o offset data.length
  | .read _ offset len _ => fsMapping o offset len

/-- What a call gets from outside. -/
def Call.env : Call → CallEnv
  | .write env _ _ => env
  | .read env _ _ _ => env

/-- A call that moves at least one byte, reads only what lies below the highest offset written,
and gets grants from the lock. -/
structure Call.Admitted (o : Object) (s : Flat) (call : Call) : Prop where
  bytes : match call with
    | .write _ _ data => 1 ≤ data.length
    | .read _ offset len _ => 1 ≤ len ∧ offset + len ≤ s.top
  grants : Grants (call.mapping o).endBlock (call.mapping o).startBlock call.env.grants

/-- Calls that are admitted one after the other. -/
def AllAdmitted (o : Object) : Flat → List Call → Prop
  | _, [] => True
  | s, call :: calls => call.Admitted o s ∧ AllAdmitted o (call.flat s).2 calls

/-- The object is the flat array. -/
structure Refines (o : Object) (d : Depot) (s : Flat) : Prop where
  stores : Stores o d.file s.content
  reaching : Reaching o d.file s.top

/-- A call does to the object what it does to the flat array. -/
theorem Refines.exec {o} {d : Depot} {s} (h : Refines o d s) (hsmall : o.Small) {call : Call}
    (hadm : call.Admitted o s) (hint : (call.mapping o).IntMiddle) :
    (call.exec o d).1 = (call.flat s).1 ∧ Refines o (call.exec o d).2 (call.flat s).2 := by
  cases call with
  | write env offset data =>
    obtain ⟨hgood, hstores, hreach⟩ := fsChksumWrite_flat hsmall h.stores h.reaching hadm.bytes
      rfl hint env hadm.grants
    refine ⟨?_, hstores, hreach⟩
    change ((fsChksumWrite o env d offset data).1, []) = (OsdState.good, [])
    rw [hgood]
  | read env offset len mem =>
    obtain ⟨hgood, hmem, hfile⟩ := fsChksumRead_flat hsmall h.stores h.reaching hadm.bytes.1
      hadm.bytes.2 rfl hint env hadm.grants mem
    refine ⟨?_, ?_, ?_⟩
    · change ((fsChksumRead o env d offset len mem).1,
        slice (fsChksumRead o env d offset len mem).2.1 0 len) =
        (OsdState.good, slice s.content offset len)
      rw [hgood, hmem]
    · change Stores o (fsChksumRead o env d offset len mem).2.2.file s.content
      rw [hfile]
      exact h.stores
    · change Reaching o (fsChksumRead o env d offset len mem).2.2.file s.top
      rw [hfile]
      exact h.reaching

theorem byte_fsCreateId (o : Object) (cache : Option Cache) (header : List UInt8) {p}
    (hp : magicHeader ≤ p) : (fsCreateId o cache header).file.byte p = 0 := by
  have hheader : splice (fun _ => (0 : UInt8)) 0 (header.take magicHeader) p = 0 := by
    rw [splice_outside _ _ _ (by rw [List.length_take]; omega)]
  change splice (splice (fun _ => 0) 0 (header.take magicHeader)) magicHeader
    (List.replicate (4 + o.chksum.size) 0) p = 0
  rw [splice, if_pos hp, hheader, List.getElem?_replicate]
  split <;> rfl

theorem Object.magicHeader_le_objOffset (o : Object) (b : Nat) : magicHeader ≤ o.objOffset b := by
  unfold Object.objOffset
  split <;> omega

/-- The blocks of a fresh object are empty. -/
theorem recorded_fsCreateId (o : Object) (cache : Option Cache) (header : List UInt8) (b : Nat) :
    recorded o (fsCreateId o cache header).file b = 0 := by
  have hle := o.magicHeader_le_objOffset b
  rw [recorded, slice_eq_replicate _ _ fun i _ => byte_fsCreateId o cache header (by omega)]
  exact ofLe_append_zeros [] 4

/-- A fresh object is an empty array. -/
theorem refines_fsCreateId (o : Object) (cache : Option Cache) (header : List UInt8) :
    Refines o (fsCreateId o cache header) Flat.empty := by
  have hrec := recorded_fsCreateId o cache header
  refine ⟨⟨⟨?_, ?_⟩, ?_, ?_, ?_⟩, ?_⟩
  · exact fun b => by rw [hrec]; exact Nat.zero_le _
  · exact fun b hpos => absurd (hrec b) (Nat.ne_of_gt hpos)
  · exact fun b hc => absurd (hrec b) (Nat.ne_of_gt hc.recorded_pos)
  · intro b i _
    have hle := o.magicHeader_le_objOffset b
    have hdata := o.dataOffset_eq b
    exact byte_fsCreateId o cache header (by omega)
  · exact fun _ _ _ _ => rfl
  · exact fun b i _ htop => absurd htop (Nat.not_lt_zero _)

theorem Refines.results_eq {o} (hsmall : o.Small) {d : Depot} {s} (h : Refines o d s)
    {calls : List Call} (hadm : AllAdmitted o s calls)
    (hint : ∀ call ∈ calls, (call.mapping o).IntMiddle) :
    results o d calls = flatResults s calls := by
  induction calls generalizing d s with
  | nil => rfl
  | cons call calls ih =>
    obtain ⟨hres, hnext⟩ := h.exec hsmall hadm.1 (hint call List.mem_cons_self)
    rw [results, flatResults, hres,
      ih hnext hadm.2 fun call hmem => hint call (List.mem_cons_of_mem _ hmem)]

/-- Every sequence of calls on a fresh object gives the results of a flat array of zeros, if the
block sizes and the numbers of the whole blocks of each call fit into an `int`. -/
theorem results_eq_flatResults (o : Object) (hsmall : o.Small) (cache : Option Cache)
    (header : List UInt8) (calls : List Call) (hadm : AllAdmitted o Flat.empty calls)
    (hint : ∀ call ∈ calls, (call.mapping o).IntMiddle) :
    results o (fsCreateId o cache header) calls = flatResults Flat.empty calls :=
  (refines_fsCreateId o cache header).results_eq hsmall hadm hint

/-- A checksum of one byte, the sum of the word. -/
def sumChksum : Chksum := ⟨1, fun w => [w.sum], fun _ => rfl⟩

/-- An object with blocks of one byte. -/
def byteObject : Object := ⟨1, 1, sumChksum, by decide, by decide⟩

/-- A call gets one grant for all its blocks. -/
def wholeGrant (endBlock : Nat) : CallEnv := ⟨[endBlock], fun _ => 0, fun _ => 0, fun _ _ => false⟩

/-- Three bytes are written over three blocks and read back. -/
theorem results_three_bytes :
    results byteObject (fsCreateId byteObject none []) [.write (wholeGrant 2) 0 [7, 8, 9],
        .read (wholeGrant 2) 0 3 fun _ => 5] = [(.good, []), (.good, [7, 8, 9])] := by
  have hgrants : Grants 2 0 [2] := .last (by decide)
  refine results_eq_flatResults byteObject ⟨by decide, by decide⟩ none [] _ ?_ ?_
  · exact ⟨⟨by decide, hgrants⟩, ⟨by decide, hgrants⟩, trivial⟩
  · intro call hcall
    simp only [List.mem_cons, List.not_mem_nil, or_false] at hcall
    rcases hcall with rfl | rfl
    · exact .inr (by decide)
    · exact .inr (by decide)

/-- Of three bytes written where the block numbers do not fit into an `int` the second one is
lost. -/
theorem middle_block_skipped :
    results byteObject (fsCreateId byteObject none [])
        [.write (wholeGrant 2147483650) 2147483648 [7, 8, 9],
          .read (wholeGrant 2147483650) 2147483648 3 fun _ => 5] ≠
      [(.good, []), (.good, [7, 8, 9])] := by
  decide +kernel

end LStore.Osd
