import LStore.Base.LastWriter
import LStore.Log.Replay

/-!
# Concurrent writes

`seglog_write_func` holds the segment lock twice: once to reserve its place in
the table and in the data segment, once to insert its ranges. Between the two
other writes may run. The table keeps the writes in the order of reservation, the
live mapping in the order of completion. Since no two writes share a data extent,
replaying the table gives the live mapping exactly when both orders have the same
last write over every offset.
-/

namespace LStore.Log

open IntervalList LastWriter List Option

variable {g : List WriteReq} {cs : List Nat} {y y' : Writers}

/-- A critical section of some writer. A write is known by its ticket, the number
of reservations before its own. -/
inductive Event where
  | reserve (w : WriteReq) (buffer : Int → Byte)
  | complete (ticket : Nat)

/-- A segment with its writers: the reserved writes that have not completed, with
their records. -/
structure Writers where
  seg : Seglog
  reserved : Nat
  pending : List (Nat × List SlogRange)

def Writers.start (data base : Child) : Writers where
  seg := slogMake data base
  reserved := 0
  pending := []

/-- One critical section. A reservation stores its data and records, which go to
space of its own. -/
def Writers.step (y : Writers) : Event → Option Writers
  | .reserve w buffer => some
      { seg := storeWrite (reserveWrite y.seg w.iov) y.seg.logSize y.seg.dataSize w.iov buffer w.boff
        reserved := y.reserved + 1
        pending := y.pending ++ [(y.reserved, writeRecords y.seg.dataSize w.iov)] }
  | .complete i =>
    match y.pending.lookup i with
    | none => none
    | some records => (completeWrite y.seg records).map fun s =>
      { y with seg := s, pending := y.pending.filter fun e => e.1 ≠ i }

def runEvents (y : Writers) (es : List Event) : Option Writers := es.foldlM Writers.step y

/-- The reserved writes, in the order of their tickets. -/
def requests (es : List Event) : List WriteReq :=
  es.filterMap fun
    | .reserve w _ => some w
    | .complete _ => none

/-- The tickets in the order of completion. -/
def completions (es : List Event) : List Nat :=
  es.filterMap fun
    | .reserve _ _ => none
    | .complete i => some i

/-- The last write of the order that covers the offset. -/
def lastCovering (g : List WriteReq) (order : List Nat) (o : Int) : Option Nat :=
  order.reverse.find? fun i => (g[i]?).any fun w => decide (Covers w.iov o)

/-- The bytes reserved by a list of writes. -/
def totalBytes (g : List WriteReq) : Nat := (g.map fun w => nbytes w.iov).sum

/-- The records of each write when the first takes its data space at `d`. -/
def recordsFrom : Int → List WriteReq → List (List SlogRange)
  | _, [] => []
  | d, w :: g => writeRecords d w.iov :: recordsFrom (d + nbytes w.iov) g

/-- The offset map of one write. -/
def writeMap (R : List (List SlogRange)) (i : Nat) : Int → Option Int :=
  ((R[i]?).getD []).foldl place fun _ => none

theorem recordsFrom_concat (d : Int) (g : List WriteReq) (w : WriteReq) :
    recordsFrom d (g ++ [w]) = recordsFrom d g ++ [writeRecords (d + totalBytes g) w.iov] := by
  induction g generalizing d with
  | nil => simp [recordsFrom, totalBytes]
  | cons x g ih =>
    simp only [cons_append, recordsFrom, ih]
    simp [totalBytes, Int.add_assoc]

theorem length_recordsFrom (d : Int) (g : List WriteReq) : (recordsFrom d g).length = g.length := by
  induction g generalizing d with
  | nil => rfl
  | cons x g ih => simp [recordsFrom, ih]

theorem getElem?_recordsFrom (d : Int) (g : List WriteReq) (i : Nat) :
    (recordsFrom d g)[i]? =
      (g[i]?).map fun w => writeRecords (d + totalBytes (g.take i)) w.iov := by
  induction g generalizing d i with
  | nil => simp [recordsFrom]
  | cons x g ih =>
    cases i with
    | zero => simp [recordsFrom, totalBytes]
    | succ i =>
      simp only [recordsFrom, List.getElem?_cons_succ, ih, take_succ_cons]
      simp [totalBytes, Int.add_assoc]

theorem totalBytes_take_succ {i w} (hw : g[i]? = some w) :
    totalBytes (g.take (i + 1)) = totalBytes (g.take i) + nbytes w.iov := by
  rw [take_add_one, hw]
  simp [totalBytes]

theorem totalBytes_take_mono (g : List WriteReq) {i j} (hij : i ≤ j) :
    totalBytes (g.take i) ≤ totalBytes (g.take j) := by
  obtain ⟨k, rfl⟩ := Nat.exists_eq_add_of_le hij
  rw [take_add]
  simp [totalBytes]

theorem place_or (h f : Int → Option Int) (r : SlogRange) :
    place (fun o => (h o).or (f o)) r = fun o => (place h r o).or (f o) := by
  funext o
  simp only [place]
  split_ifs <;> rfl

/-- Records override what was there before them. -/
theorem foldl_place_or (records : List SlogRange) (f : Int → Option Int) :
    records.foldl place f = fun o => (records.foldl place (fun _ => none) o).or (f o) := by
  suffices h : ∀ g : Int → Option Int, records.foldl place (fun o => (g o).or (f o)) =
      fun o => (records.foldl place g o).or (f o) by
    simpa using h fun _ => none
  induction records with
  | nil => exact fun _ => rfl
  | cons r records ih =>
    intro g
    rw [foldl_cons, place_or, ih, foldl_cons]

/-- Replaying the records of all writes is laying their maps down by ticket. -/
theorem foldl_place_flatten (R : List (List SlogRange)) (f : Int → Option Int) :
    R.flatten.foldl place f = resolve (writeMap R) (List.range R.length) f := by
  induction R using List.reverseRecOn with
  | nil => rfl
  | append_singleton R records ih =>
    have hold : resolve (writeMap (R ++ [records])) (List.range R.length) f =
        resolve (writeMap R) (List.range R.length) f := by
      refine resolve_congr (fun i hi => ?_) f
      rw [writeMap, writeMap, List.getElem?_append_left (mem_range.mp hi)]
    have hnew : writeMap (R ++ [records]) R.length = records.foldl place fun _ => none := by
      simp [writeMap]
    rw [flatten_append, foldl_append, ih, length_append, length_singleton,
      range_succ, resolve_concat, hold, hnew, flatten_singleton, foldl_place_or]

theorem isSome_writeMap (d : Int) (g : List WriteReq) (i : Nat) (o : Int) :
    (writeMap (recordsFrom d g) i o).isSome = (g[i]?).any fun w => decide (Covers w.iov o) := by
  rw [writeMap, getElem?_recordsFrom]
  cases g[i]? with
  | none => rfl
  | some w =>
    simp only [map_some, getD_some, any_some]
    rw [Bool.eq_iff_iff, decide_eq_true_iff, isSome_iff_ne_none, ne_eq,
      foldl_place_eq_none]
    tauto

theorem lastCovering_eq_winner (d : Int) (g : List WriteReq) (order : List Nat) (o : Int) :
    lastCovering g order o = winner (writeMap (recordsFrom d g)) order o := by
  simp [lastCovering, winner, isSome_writeMap]

/-- The data a write maps to lies in the extent it reserved. -/
theorem writeMap_extent {d i o e} (h : writeMap (recordsFrom d g) i o = some e) :
    d + totalBytes (g.take i) ≤ e ∧ e < d + totalBytes (g.take (i + 1)) := by
  rw [writeMap, getElem?_recordsFrom] at h
  cases hw : g[i]? with
  | none => simp [hw] at h
  | some w =>
    rw [hw, map_some, getD_some] at h
    rcases foldl_place_writeRecords h with ⟨_, hle, hlt⟩ | ⟨_, hnone⟩
    · refine ⟨hle, ?_⟩
      rw [totalBytes_take_succ hw]
      omega
    · simp at hnone

/-- Two writes never map an offset to the same data. -/
theorem writeMap_injective {d i j o e} (hi : writeMap (recordsFrom d g) i o = some e)
    (hj : writeMap (recordsFrom d g) j o = some e) : i = j := by
  obtain ⟨hile, hilt⟩ := writeMap_extent hi
  obtain ⟨hjle, hjlt⟩ := writeMap_extent hj
  rcases lt_trichotomy i j with hlt | heq | hlt
  · have := totalBytes_take_mono g (i := i + 1) hlt
    omega
  · exact heq
  · have := totalBytes_take_mono g (i := j + 1) hlt
    omega

/-- What holds after any interleaving in which the writes `g` were reserved and
the tickets `cs` completed. -/
structure Ledger (y : Writers) (g : List WriteReq) (cs : List Nat) : Prop where
  reserved : y.reserved = g.length
  dataSize : y.seg.dataSize = totalBytes g
  table : y.seg.tableSeg = (recordsFrom 0 g).flatten
  logSize : y.seg.logSize = y.seg.tableSeg.length * sizeofSlogRange
  ordered : Ordered y.seg.mapping
  live : lookup y.seg.mapping = resolve (writeMap (recordsFrom 0 g)) cs fun _ => none
  completed : ∀ i ∈ cs, i < g.length
  pending : ∀ e ∈ y.pending, (recordsFrom 0 g)[e.1]? = some e.2

theorem ledger_start (data base : Child) : Ledger (Writers.start data base) [] [] where
  reserved := rfl
  dataSize := rfl
  table := rfl
  logSize := rfl
  ordered := ordered_nil
  live := rfl
  completed := by simp
  pending := by simp [Writers.start]

/-- The records in the table are those of writes. -/
theorem isWrite_recordsFrom {d records} (h : records ∈ recordsFrom d g) :
    ∀ r ∈ records, IsWrite r := by
  obtain ⟨i, hi⟩ := List.getElem?_of_mem h
  rw [getElem?_recordsFrom] at hi
  obtain ⟨w, _, rfl⟩ := map_eq_some_iff.mp hi
  exact isWrite_writeRecords w.nonempty

section

variable (h : Ledger y g cs)
include h

theorem Ledger.reserve (w : WriteReq) (buffer : Int → Byte)
    (hstep : y.step (.reserve w buffer) = some y') : Ledger y' (g ++ [w]) cs := by
  simp only [Writers.step, some.injEq] at hstep
  subst hstep
  have hrec : recordsFrom 0 (g ++ [w]) =
      recordsFrom 0 g ++ [writeRecords y.seg.dataSize w.iov] := by
    rw [recordsFrom_concat, h.dataSize, Int.zero_add]
  have hlen := length_recordsFrom 0 g
  have htable : writeTable y.seg.tableSeg y.seg.logSize (writeRecords y.seg.dataSize w.iov) =
      y.seg.tableSeg ++ writeRecords y.seg.dataSize w.iov := by
    rw [h.logSize, writeTable_append]
  constructor
  · simp [h.reserved]
  · simp [storeWrite, reserveWrite, h.dataSize, totalBytes]
  · simp only [storeWrite, reserveWrite, htable, hrec]
    simp [h.table]
  · simp only [storeWrite, reserveWrite, htable, length_append, length_writeRecords]
    rw [h.logSize]
    exact (Int.add_mul _ _ _).symm
  · exact h.ordered
  · refine h.live.trans (resolve_congr (fun i hi => ?_) _)
    rw [writeMap, writeMap, hrec, List.getElem?_append_left (by rw [hlen]; exact h.completed i hi)]
  · intro i hi
    have := h.completed i hi
    rw [length_append]
    omega
  · intro e he
    rw [hrec]
    rcases mem_append.mp he with he | he
    · have hold := h.pending e he
      rw [List.getElem?_append_left (List.getElem?_eq_some_iff.mp hold).1]
      exact hold
    · rw [mem_singleton] at he
      subst he
      simp [h.reserved, ← hlen]

theorem Ledger.complete (i : Nat) (hstep : y.step (.complete i) = some y') :
    Ledger y' g (cs ++ [i]) := by
  cases hp : y.pending.lookup i with
  | none => simp [Writers.step, hp] at hstep
  | some records =>
    obtain ⟨l₁, l₂, heq, _⟩ := List.lookup_eq_some_iff.mp hp
    have hrec := h.pending (i, records) (by rw [heq]; simp)
    have hi : i < g.length := by
      rw [← length_recordsFrom 0 g]
      exact (List.getElem?_eq_some_iff.mp hrec).1
    obtain ⟨m, hrun, hord, hlook⟩ := completeWrite_spec h.ordered
      (isWrite_recordsFrom (mem_of_getElem? hrec))
    simp only [Writers.step, hp, hrun, map_some, some.injEq] at hstep
    subst hstep
    refine ⟨h.reserved, h.dataSize, h.table, h.logSize, hord, ?_, ?_, ?_⟩
    · rw [hlook, h.live, resolve_concat, foldl_place_or, writeMap, hrec, getD_some]
    · exact forall_mem_append.mpr ⟨h.completed, forall_mem_singleton.mpr hi⟩
    · exact fun e he => h.pending e (mem_filter.mp he).1

theorem ledger_run {es} (hrun : runEvents y es = some y') :
    Ledger y' (g ++ requests es) (cs ++ completions es) := by
  induction es generalizing y g cs with
  | nil =>
    cases hrun
    simpa [requests, completions] using h
  | cons e es ih =>
    obtain ⟨y₁, hstep, hrest⟩ := bind_eq_some_iff.mp hrun
    cases e with
    | reserve w buffer =>
      have := ih (h.reserve w buffer hstep) hrest
      simpa [requests, completions] using this
    | complete i =>
      have := ih (h.complete i hstep) hrest
      simpa [requests, completions] using this

/-- Loading the table of a ledger replays all reserved writes by ticket. -/
theorem Ledger.load :
    ∃ s', slogLoad y.seg.tableSeg y.seg.dataSeg y.seg.baseSeg = some (s', 0) ∧
      lookup s'.mapping =
        resolve (writeMap (recordsFrom 0 g)) (List.range g.length) fun _ => none := by
  have hwrites : ∀ r ∈ y.seg.tableSeg, IsWrite r := by
    intro r hr
    rw [h.table] at hr
    obtain ⟨records, hrecords, hr⟩ := mem_flatten.mp hr
    exact isWrite_recordsFrom hrecords r hr
  have hblank : ∀ r ∈ y.seg.tableSeg, ¬blankRecord r := by
    intro r hr
    have := hwrites r hr
    simp only [IsWrite] at this
    simp only [blankRecord]
    omega
  obtain ⟨m, hrun, _, hlook⟩ := completeWrite_spec
    (s := slogMake y.seg.dataSeg y.seg.baseSeg) ordered_nil hwrites
  rw [completeWrite_eq] at hrun
  obtain ⟨p, hfold, hp⟩ := map_eq_some_iff.mp hrun
  have hmap : p.1 = m := congrArg Seglog.mapping hp
  have hload := slogLoad_eq hblank y.seg.dataSeg y.seg.baseSeg
  rw [show (([], y.seg.baseSeg.size) : Mapping × Int) = ((slogMake y.seg.dataSeg
    y.seg.baseSeg).mapping, (slogMake y.seg.dataSeg y.seg.baseSeg).fileSize) from rfl, hfold] at hload
  refine ⟨_, hload, ?_⟩
  rw [hmap, hlook, h.table, foldl_place_flatten, length_recordsFrom]
  rfl

end

/-- After any interleaving, loading the table gives the live offset map exactly
when over every offset the last write to be reserved is the last to complete. -/
theorem concurrent_replay_iff (data base : Child) {es : List Event} {y : Writers}
    (hrun : runEvents (Writers.start data base) es = some y) :
    (∃ s', slogLoad y.seg.tableSeg y.seg.dataSeg y.seg.baseSeg = some (s', 0) ∧
        lookup s'.mapping = lookup y.seg.mapping) ↔
      ∀ o, lastCovering (requests es) (List.range (requests es).length) o =
        lastCovering (requests es) (completions es) o := by
  have h : Ledger y (requests es) (completions es) := ledger_run (ledger_start data base) hrun
  obtain ⟨s', hload, hlook⟩ := h.load
  have hinj (o : Int) (i j : Nat) (b : Int) :
      writeMap (recordsFrom 0 (requests es)) i o = some b →
        writeMap (recordsFrom 0 (requests es)) j o = some b → i = j := writeMap_injective
  have hpoint : lookup s'.mapping = lookup y.seg.mapping ↔
      ∀ o, lastCovering (requests es) (List.range (requests es).length) o =
        lastCovering (requests es) (completions es) o := by
    rw [hlook, h.live, funext_iff]
    refine forall_congr' fun o => ?_
    rw [resolve_eq_iff (hinj o), ← lastCovering_eq_winner, ← lastCovering_eq_winner]
  rw [← hpoint]
  refine ⟨?_, fun heq => ⟨s', hload, heq⟩⟩
  rintro ⟨s'', hload', heq⟩
  obtain ⟨rfl, _⟩ := Prod.mk.inj (some.inj (hload.symm.trans hload'))
  exact heq

/-- Two writes of offset 0, completed in the order they were reserved. -/
theorem concurrent_replay_in_order :
    let w : WriteReq := ⟨[⟨0, 1⟩], 0, by simp⟩
    let es : List Event :=
      [.reserve w fun _ => 1, .reserve w fun _ => 2, .complete 0, .complete 1]
    ∃ y, runEvents (Writers.start Child.empty Child.empty) es = some y ∧
      ((∃ s', slogLoad y.seg.tableSeg y.seg.dataSeg y.seg.baseSeg = some (s', 0) ∧
          lookup s'.mapping = lookup y.seg.mapping) ↔
        ∀ o, lastCovering (requests es) (List.range (requests es).length) o =
          lastCovering (requests es) (completions es) o) :=
  ⟨_, rfl, concurrent_replay_iff _ _ rfl⟩

/-- Two writes of offset 0, the second completed first: the live mapping has the
data of the first, the loaded mapping the data of the second. -/
theorem concurrent_replay_overtaken :
    let w : WriteReq := ⟨[⟨0, 1⟩], 0, by simp⟩
    (runEvents (Writers.start Child.empty Child.empty)
        [.reserve w fun _ => 1, .reserve w fun _ => 2, .complete 1, .complete 0]).map (fun y =>
          (y.pending.length, lookup y.seg.mapping 0,
            (slogLoad y.seg.tableSeg y.seg.dataSeg y.seg.baseSeg).map fun p =>
              lookup p.1.mapping 0)) =
      some (0, some 0, some (some 1)) := by
  decide

end LStore.Log
