import LStore.Log.Truncate

/-!
# Replaying the table

`_slog_load` rebuilds the mapping and the file size from the table segment. The
live segment applied the same ranges one operation at a time, so the two agree as
long as both decode each record alike. Writes and shrinks do. A grow inserts its
record undecoded, and the two readings of it coincide only at a file size of two.

## Implementation notes

`insertCore` is `_slog_insert_range` on the two fields it changes. The mapping is
carried as a list through the proofs, because the truncate loop depends on the
ranges and not only on the offset map they give.
-/

namespace LStore.Log

open IntervalList List Option

variable {table : List SlogRange}

/-- `_slog_insert_range` on the mapping and the file size. -/
def insertCore (p : Mapping × Int) (r : SlogRange) : Option (Mapping × Int) :=
  if r.lo = -1 then
    (truncateMapping r.hi p.2 p.1).map fun m => (m, r.hi + 1)
  else
    (insertMapping r p.1).map fun m => (m, if p.2 ≤ r.hi then r.hi + 1 else p.2)

/-- A table record applied to the mapping and the file size. -/
def replayRecord (p : Mapping × Int) (r : SlogRange) : Option (Mapping × Int) :=
  insertCore p (recordRange r)

/-- A segment with a new mapping and file size. -/
def Seglog.withCore (s : Seglog) (p : Mapping × Int) : Seglog :=
  { s with mapping := p.1, fileSize := p.2 }

theorem slogInsertRange_eq (s : Seglog) (r : SlogRange) :
    slogInsertRange s r = (insertCore (s.mapping, s.fileSize) r).map s.withCore := by
  unfold slogInsertRange insertCore slogTruncateRange
  split_ifs <;> rw [Option.map_map] <;> rfl

theorem completeWrite_eq (s : Seglog) (records : List SlogRange) :
    completeWrite s records =
      (records.foldlM replayRecord (s.mapping, s.fileSize)).map s.withCore := by
  induction records generalizing s with
  | nil => rfl
  | cons r rest ih =>
    rw [completeWrite_cons, slogInsertRange_eq, foldlM_cons]
    cases h : replayRecord (s.mapping, s.fileSize) r with
    | none =>
      rw [replayRecord] at h
      simp [h]
    | some p =>
      have hrest := ih (s.withCore p)
      rw [replayRecord] at h
      simp only [h, map_some, bind_some, bind_eq_bind, hrest]
      rfl

theorem foldlM_loadRecord (h : ∀ r ∈ table, ¬blankRecord r) (s : Seglog) (n : Nat) :
    table.foldlM loadRecord ⟨s, false, n⟩ =
      (table.foldlM replayRecord (s.mapping, s.fileSize)).map fun p => ⟨s.withCore p, false, n⟩ := by
  induction table generalizing s with
  | nil => rfl
  | cons r table ih =>
    obtain ⟨hr, h'⟩ := forall_mem_cons.mp h
    rw [foldlM_cons, foldlM_cons]
    simp only [loadRecord, hr, if_false, slogInsertRange_eq]
    cases hrep : replayRecord (s.mapping, s.fileSize) r with
    | none =>
      rw [replayRecord] at hrep
      simp [hrep]
    | some p =>
      have hrest := ih h' (s.withCore p)
      rw [replayRecord] at hrep
      simp only [hrep, map_some, bind_some, bind_eq_bind, hrest]
      rfl

/-- Loading a table without blank records replays them all and reports success. -/
theorem slogLoad_eq (h : ∀ r ∈ table, ¬blankRecord r) (data base : Child) :
    slogLoad table data base =
      (table.foldlM replayRecord ([], base.size)).map fun p =>
        ({ mapping := p.1, fileSize := p.2, logSize := table.length * sizeofSlogRange,
           dataSize := data.size, tableSeg := table, dataSeg := data, baseSeg := base }, 0) := by
  rw [slogLoad, foldlM_loadRecord h, Option.map_map]
  rfl

theorem writeTable_append (table records : List SlogRange) :
    writeTable table (table.length * sizeofSlogRange) records = table ++ records := by
  have hi : ((table.length : Int) * sizeofSlogRange / sizeofSlogRange).toNat = table.length := by
    rw [Int.mul_ediv_cancel _ (by decide)]
    exact Int.toNat_natCast _
  simp [writeTable, hi]

theorem length_writeRecords (d : Int) (iov : List ExIovec) :
    (writeRecords d iov).length = iov.length := by
  induction iov generalizing d with
  | nil => rfl
  | cons v iov ih => rw [writeRecords, length_cons, length_cons, ih]

/-- The live segment is what its table replays to. -/
structure Synced (s : Seglog) : Prop where
  inv : LogInv s
  logSize : s.logSize = s.tableSeg.length * sizeofSlogRange
  records : ∀ r ∈ s.tableSeg, ¬blankRecord r
  replay : s.tableSeg.foldlM replayRecord ([], s.baseSeg.size) = some (s.mapping, s.fileSize)

theorem slogMake_synced (data base : Child) : Synced (slogMake data base) where
  inv := slogMake_inv data base
  logSize := by simp [slogMake]
  records := by simp [slogMake]
  replay := rfl

/-- Loading the table rebuilds the offset map and the file size. -/
def Reloads (s : Seglog) : Prop :=
  ∃ s', slogLoad s.tableSeg s.dataSeg s.baseSeg = some (s', 0) ∧
    lookup s'.mapping = lookup s.mapping ∧ s'.fileSize = s.fileSize

theorem Synced.reloads {s : Seglog} (h : Synced s) : Reloads s := by
  have hload := slogLoad_eq h.records s.dataSeg s.baseSeg
  rw [h.replay] at hload
  exact ⟨_, hload, rfl, rfl⟩

/-- An operation of a log segment. -/
inductive LogOp where
  | write (w : WriteReq) (buffer : Int → Byte)
  | truncate (newSize : Nat)

def LogOp.run (s : Seglog) : LogOp → Option Seglog
  | .write w buffer => seglogWriteFunc s w.iov buffer w.boff
  | .truncate newSize => seglogTruncateFunc s newSize

/-- The operation is a growing truncate. -/
def LogOp.Grows (s : Seglog) : LogOp → Prop
  | .write _ _ => False
  | .truncate newSize => s.fileSize < newSize

variable {s s' : Seglog} {newSize : Nat} {r : SlogRange}

theorem Synced.write (h : Synced s) (w : WriteReq) (buffer : Int → Byte)
    (hrun : seglogWriteFunc s w.iov buffer w.boff = some s') : Synced s' := by
  obtain ⟨s'', hrun', hinv, _, _⟩ := seglogWriteFunc_view h.inv w buffer
  obtain rfl : s' = s'' := some.inj (hrun.symm.trans hrun')
  rw [seglogWriteFunc, completeWrite_eq] at hrun
  obtain ⟨p, hfold, rfl⟩ := map_eq_some_iff.mp hrun
  have htable : writeTable s.tableSeg s.logSize (writeRecords s.dataSize w.iov) =
      s.tableSeg ++ writeRecords s.dataSize w.iov := by
    rw [h.logSize, writeTable_append]
  refine ⟨hinv, ?_, ?_, ?_⟩
  · simp only [Seglog.withCore, storeWrite, reserveWrite, htable, length_append,
      length_writeRecords]
    rw [h.logSize]
    exact (Int.add_mul _ _ _).symm
  · intro r hr
    simp only [Seglog.withCore, storeWrite, reserveWrite, htable] at hr
    rcases mem_append.mp hr with hr | hr
    · exact h.records r hr
    · have := isWrite_writeRecords w.nonempty r hr
      simp only [IsWrite] at this
      simp only [blankRecord]
      omega
  · simp only [Seglog.withCore, storeWrite, reserveWrite, htable, foldlM_append, h.replay]
    exact hfold

/-- Appending one record to the table and applying its range keeps the replay. -/
theorem Synced.append (h : Synced s) (hr : ¬blankRecord r) {p : Mapping × Int}
    (hrep : replayRecord (s.mapping, s.fileSize) r = some p) {data : Child} {dataSize : Int}
    (hs' : s' = { s with
      mapping := p.1
      fileSize := p.2
      logSize := s.logSize + sizeofSlogRange
      dataSize := dataSize
      tableSeg := writeTable s.tableSeg s.logSize [r]
      dataSeg := data }) (hinv : LogInv s') : Synced s' := by
  subst hs'
  have htable : writeTable s.tableSeg s.logSize [r] = s.tableSeg ++ [r] := by
    rw [h.logSize, writeTable_append]
  refine ⟨hinv, ?_, ?_, ?_⟩
  · simp only [htable, length_append, length_singleton]
    rw [h.logSize]
    push_cast
    rw [Int.add_mul, Int.one_mul]
  · intro x hx
    simp only [htable] at hx
    rcases mem_append.mp hx with hx | hx
    · exact h.records x hx
    · rw [mem_singleton] at hx
      exact hx ▸ hr
  · simp only [htable, foldlM_append, h.replay]
    simpa using hrep

/-- A shrink applies the range its record decodes to. -/
theorem Synced.shrink (h : Synced s) (hlt : (newSize : Int) < s.fileSize)
    (hrun : seglogTruncateFunc s newSize = some s') : Synced s' := by
  simp only [seglogTruncateFunc, hlt, if_true, slogInsertRange_eq, map_eq_some_iff] at hrun
  obtain ⟨p, hrep, rfl⟩ := hrun
  refine h.append (r := ⟨-1, newSize - 1, -1⟩) ?_ hrep rfl ?_
  · simp only [blankRecord]
    omega
  · simp only [insertCore, if_true, map_eq_some_iff] at hrep
    obtain ⟨m, hm, rfl⟩ := hrep
    obtain ⟨m', hm', hord, hsub, _⟩ := truncateMapping_spec h.inv.ordered
      (-1 + ((newSize : Int) - 1) - 1) s.fileSize
    obtain rfl : m = m' := some.inj (hm.symm.trans hm')
    refine ⟨hord, ?_⟩
    intro o d hd
    exact h.inv.below o d ((lookup_eq_some_iff h.inv.ordered).mpr
      (hsub o d ((lookup_eq_some_iff hord).mp hd)))

/-- At a file size of two a grow inserts the range its record decodes to. -/
theorem Synced.grow (h : Synced s) (hlt : s.fileSize < newSize) (htwo : s.fileSize = 2)
    (hrun : seglogTruncateFunc s newSize = some s') : Synced s' := by
  have hnot : ¬(newSize : Int) < s.fileSize := by omega
  simp only [seglogTruncateFunc, hlt, hnot, if_true, if_false, slogInsertRange_eq,
    map_eq_some_iff] at hrun
  obtain ⟨p, hrep, rfl⟩ := hrun
  have hdecode : recordRange ⟨s.fileSize - 1, newSize - s.fileSize, s.dataSize⟩ =
      ⟨s.fileSize - 1, newSize - s.fileSize, s.dataSize⟩ := by
    simp only [recordRange, SlogRange.mk.injEq, true_and, and_true]
    omega
  refine h.append (r := ⟨s.fileSize - 1, newSize - s.fileSize, s.dataSize⟩) ?_
    (by rw [replayRecord, hdecode]; exact hrep) rfl ?_
  · simp only [blankRecord]
    omega
  · have hlo : ¬s.fileSize - 1 = -1 := by omega
    simp only [insertCore, hlo, if_false, map_eq_some_iff] at hrep
    obtain ⟨m, hm, rfl⟩ := hrep
    obtain ⟨m', hm', hord, hlook⟩ := insertMapping_spec
      (r := ⟨s.fileSize - 1, newSize - s.fileSize, s.dataSize⟩) (by dsimp only; omega)
      h.inv.ordered
    obtain rfl : m = m' := some.inj (hm.symm.trans hm')
    refine ⟨hord, ?_⟩
    intro o d hd
    dsimp only [Seglog.withCore] at hd ⊢
    rw [hlook] at hd
    dsimp only at hd
    split_ifs at hd with hin
    · cases hd
      omega
    · have := h.inv.below o d hd
      omega

theorem maps_of_lookup {m o d} (h : lookup m o = some d) : Maps m o d := by
  obtain ⟨x, hfind, hd⟩ := map_eq_some_iff.mp h
  have hcover := List.find?_some hfind
  simp only [decide_eq_true_eq] at hcover
  exact ⟨x, mem_of_find?_eq_some hfind, hcover.1, hcover.2, hd.symm⟩

/-- Clearing, for whatever range, leaves parts of the old ranges, and so no data
offset beyond theirs. -/
theorem clearRange_below {fuel m m' D} (hm : ∀ x ∈ m, x.dataOffset + (x.hi - x.lo) < D)
    (h : clearRange fuel r m = some m') : ∀ x ∈ m', x.dataOffset + (x.hi - x.lo) < D := by
  induction fuel generalizing m with
  | zero => simp [clearRange] at h
  | succ fuel ih =>
    rw [clearRange] at h
    cases hs : tbxIslSearch r.lo r.hi m with
    | nil =>
      simp only [hs, some.injEq] at h
      exact h ▸ hm
    | cons ir rest =>
      simp only [hs] at h
      obtain ⟨hir, hmeet⟩ := search_head hs
      have hold := hm ir hir
      refine ih (fun x hx => ?_) h
      have hparts : x = frontPart r ir ∧ ir.lo < r.lo ∨ x = backPart r ir ∨
          x ∈ tbxIslRemove ir m := by
        unfold clearStep at hx
        split_ifs at hx <;> simp only [tbxIslInsert, mem_insertByLo] at hx <;> tauto
      rcases hparts with ⟨rfl, hlo⟩ | rfl | hx
      · simp only [frontPart]
        omega
      · simp only [backPart]
        omega
      · exact hm x (mem_of_mem_erase hx)

/-- Inserting an inverted range maps its start to no new data. -/
theorem lookup_insert_inverted {m m'} (hinv : r.hi < r.lo)
    (hm : ∀ x ∈ m, x.dataOffset + (x.hi - x.lo) < r.dataOffset) (h : insertMapping r m = some m') :
    lookup m' r.lo ≠ some r.dataOffset := by
  intro hlook
  obtain ⟨m₁, hclear, rfl⟩ := map_eq_some_iff.mp h
  have hbelow := clearRange_below hm hclear
  have hpart : (combinePrevious r m₁).1.hi = r.hi ∧ ∀ x ∈ (combinePrevious r m₁).2, x ∈ m₁ := by
    unfold combinePrevious
    split
    · exact ⟨rfl, fun _ hx => hx⟩
    · split_ifs
      · exact ⟨rfl, fun _ hx => mem_of_mem_erase hx⟩
      · exact ⟨rfl, fun _ hx => hx⟩
  obtain ⟨x, hx, hlo, hhi, hd⟩ := maps_of_lookup hlook
  rcases mem_insertByLo.mp hx with rfl | hx
  · omega
  · have := hbelow x (hpart.2 x hx)
    omega

/-- At any other file size a completed grow does not reload. The two sizes agree
only when the live range is inverted, and then the loaded segment maps an offset
to new data that the live segment does not. -/
theorem Synced.not_reloads_grow (h : Synced s) (hlt : s.fileSize < newSize)
    (htwo : s.fileSize ≠ 2) (hrun : seglogTruncateFunc s newSize = some s') : ¬Reloads s' := by
  have hnot : ¬(newSize : Int) < s.fileSize := by omega
  simp only [seglogTruncateFunc, hlt, hnot, if_true, if_false, slogInsertRange_eq,
    map_eq_some_iff] at hrun
  obtain ⟨p, hlive, rfl⟩ := hrun
  rintro ⟨s', hload, hlook, hsize⟩
  set r : SlogRange := ⟨s.fileSize - 1, newSize - s.fileSize, s.dataSize⟩ with hr
  have htable : writeTable s.tableSeg s.logSize [r] = s.tableSeg ++ [r] := by
    rw [h.logSize, writeTable_append]
  have hrec : ∀ x ∈ s.tableSeg ++ [r], ¬blankRecord x := by
    intro x hx
    rcases mem_append.mp hx with hx | hx
    · exact h.records x hx
    · rw [mem_singleton] at hx
      simp only [hx, hr, blankRecord]
      omega
  simp only [Seglog.withCore, htable] at hload hlook hsize
  rw [slogLoad_eq hrec, foldlM_append, h.replay] at hload
  obtain ⟨q, hq, heq⟩ := map_eq_some_iff.mp hload
  obtain rfl := (Prod.mk.inj heq).1
  simp only [foldlM_cons, foldlM_nil, Option.bind_eq_bind, Option.bind_some,
    Option.pure_def, Option.bind_fun_some, replayRecord] at hq
  by_cases hzero : s.fileSize = 0
  · have hlo : r.lo = -1 := by rw [hr]; dsimp only; omega
    have hlo' : (recordRange r).lo = -1 := hlo
    simp only [insertCore, hlo, hlo', if_true, map_eq_some_iff] at hlive hq
    obtain ⟨_, _, rfl⟩ := hlive
    obtain ⟨_, _, rfl⟩ := hq
    simp only [recordRange, hr] at hsize
    omega
  · have hlo : ¬r.lo = -1 := by rw [hr]; dsimp only; omega
    have hlo' : ¬(recordRange r).lo = -1 := hlo
    simp only [insertCore, hlo, hlo', if_false, map_eq_some_iff] at hlive hq
    obtain ⟨m₁, hm₁, rfl⟩ := hlive
    obtain ⟨m₂, hm₂, rfl⟩ := hq
    have hcase : (newSize : Int) = s.fileSize + 1 ∧ 3 ≤ s.fileSize := by
      simp only [recordRange, hr] at hsize
      split_ifs at hsize <;> omega
    obtain ⟨m, hm, _, hm_look⟩ := insertMapping_spec (r := recordRange r)
      (by simp only [recordRange, hr]; omega) h.inv.ordered
    obtain rfl : m₂ = m := some.inj (hm₂.symm.trans hm)
    have hnew : lookup m₂ r.lo = some r.dataOffset := by
      rw [hm_look, if_pos (by simp only [recordRange, hr]; omega)]
      simp [recordRange]
    refine lookup_insert_inverted (by simp only [hr]; omega) ?_ hm₁ (hlook ▸ hnew)
    intro x hx
    have hne : x.lo ≤ x.hi := h.inv.ordered.nonempty x hx
    exact h.inv.below x.hi _ ((lookup_eq_some_iff h.inv.ordered).mpr
      ⟨x, hx, hne, le_rfl, rfl⟩)

/-- A property of every state a run goes through, as far as it completes. -/
def Along (P : Seglog → Prop) : Seglog → List LogOp → Prop
  | s, [] => P s
  | s, op :: ops => P s ∧ ∀ s', op.run s = some s' → Along P s' ops

/-- Every completed growing truncate of the run starts from a file of two bytes. -/
def GrowsAtTwo : Seglog → List LogOp → Prop
  | _, [] => True
  | s, op :: ops =>
    ∀ s', op.run s = some s' → (op.Grows s → s.fileSize = 2) ∧ GrowsAtTwo s' ops

theorem Along.head {P : Seglog → Prop} {s} {ops : List LogOp} (h : Along P s ops) : P s := by
  cases ops with
  | nil => exact h
  | cons op ops => exact h.1

theorem Synced.run {s s'} (h : Synced s) {op : LogOp} (hrun : op.run s = some s')
    (hgrow : op.Grows s → s.fileSize = 2) : Synced s' := by
  cases op with
  | write w buffer => exact h.write w buffer hrun
  | truncate newSize =>
    by_cases hlt : (newSize : Int) < s.fileSize
    · exact h.shrink hlt hrun
    · by_cases hgt : s.fileSize < newSize
      · exact h.grow hgt (hgrow hgt) hrun
      · simp only [LogOp.run, seglogTruncateFunc, hlt, hgt, if_false, some.injEq] at hrun
        exact hrun ▸ h

theorem along_reloads_iff {s : Seglog} (h : Synced s) (ops : List LogOp) :
    Along Reloads s ops ↔ GrowsAtTwo s ops := by
  induction ops generalizing s with
  | nil => exact ⟨fun _ => trivial, fun _ => h.reloads⟩
  | cons op ops ih =>
    constructor
    · rintro ⟨_, hrest⟩ s' hrun
      have hgrow : op.Grows s → s.fileSize = 2 := by
        intro hg
        by_contra htwo
        cases op with
        | write w buffer => exact hg
        | truncate newSize => exact h.not_reloads_grow hg htwo hrun (hrest s' hrun).head
      exact ⟨hgrow, (ih (h.run hrun hgrow)).mp (hrest s' hrun)⟩
    · intro hops
      refine ⟨h.reloads, ?_⟩
      intro s' hrun
      obtain ⟨hgrow, hrest⟩ := hops s' hrun
      exact (ih (h.run hrun hgrow)).mpr hrest

/-- In a run of writes and truncates on a new log every state reloads exactly
when every completed grow starts from a file of two bytes. -/
theorem replay_equals_live_iff (data base : Child) (ops : List LogOp) :
    Along Reloads (slogMake data base) ops ↔ GrowsAtTwo (slogMake data base) ops :=
  along_reloads_iff (slogMake_synced data base) ops

/-- A grow of a file of one byte to three: the live segment has three bytes, the
reloaded one has two. -/
theorem replay_differs_after_grow :
    ((LogOp.truncate 3).run (slogMake Child.empty { bytes := fun _ => 7, size := 1 })).map (fun s =>
        (s.fileSize, (slogLoad s.tableSeg s.dataSeg s.baseSeg).map fun p => p.1.fileSize)) =
      some (3, some 2) := by
  decide

end LStore.Log
