import LStore.Jerasure.Inspect

/-!
# The repairs of a scan

`segjerase_inspect_scan` compares the stripes in batches of 1024 and has each run of bad stripes
of a batch repaired by an operation of its own. `segjeraseInspectScan_repaired` takes the runs and
the statuses of these operations out of the scan of the segment.
-/

namespace LStore.Jerasure

open List MachineInt

/-- The runs of each batch. -/
def scanRuns (bad : Nat → Bool) : Nat → Nat → Nat → List (List (Nat × Nat))
  | 0, _, _ => []
  | fuel + 1, start, left =>
    if left = 0 then []
    else
      let count := min 1024 left
      batchRuns (fun i => bad (start + i)) start count ::
        scanRuns bad fuel (start + count) (left - count)

/-- The runs that a scan repairs; `total_stripes` and the loop counter are `int` variables. -/
def repairRuns (bad : Nat → Bool) (stripes : Nat) : Option (List (List (Nat × Nat))) :=
  let total := i32 stripes
  -- the counter has to get past the last stripe
  if total = 2147483647 then none else some (scanRuns bad total.toNat 0 total.toNat)

/-- The stripes that `segjerase_inspect_full_func` looks into for a run. -/
def stripesOf (ds : Nat) (run : Nat × Nat) : List Nat :=
  let (lo, hi) := runRange ds run
  range' (lo.tdiv ds).toNat ((hi - lo + 1).tdiv ds).toNat

/-- The status of a scan. Each batch has the statuses of its repairs in the order in which
`opque_waitany` returns them. -/
def scanStatus (taken : List (List Status)) : Status :=
  (taken.foldl RepairQueue.await ⟨⟨true, 0⟩, 0, 0⟩).status

variable {bad : Nat → Bool} {ds : Nat}

/-- The stripes of a run. -/
def expand (run : Nat × Nat) : List Nat := range' run.1 (run.2 - run.1)

theorem badRuns_expand (bad : Nat → Bool) (start count i : Nat) (first : Option Nat)
    (hfirst : ∀ b ∈ first, b < i) :
    (badRuns (fun i => bad (start + i)) count i first).flatMap
        (fun run => range' (start + run.1) (run.2 - run.1)) =
        (first.elim [] fun b => range' (start + b) (i - b)) ++
          (range' (start + i) count).filter bad ∧
      ∀ r ∈ badRuns (fun i => bad (start + i)) count i first, r.1 < r.2 := by
  induction count generalizing i first with
  | zero => cases first <;> simp_all [badRuns]
  | succ count ih =>
    rw [badRuns, range'_succ]
    split_ifs with hbad
    · obtain ⟨hflat, hlt⟩ := ih (i + 1) (some (first.getD i)) (by cases first <;> simp_all; omega)
      refine ⟨?_, hlt⟩
      rw [hflat, filter_cons_of_pos hbad]
      cases first with
      | none => simp [Nat.add_assoc]
      | some b =>
        have hb := hfirst b rfl
        have hlen : i + 1 - b = i - b + 1 := by omega
        have hlast : start + b + (i - b) = start + i := by omega
        simp [hlen, range'_concat, hlast, Nat.add_assoc]
    · obtain ⟨hflat, hlt⟩ := ih (i + 1) none (by simp)
      cases first <;> simp_all [Nat.add_assoc]

/-- The runs are those of the bad stripes among `count`, in order. -/
def Covers (bad : Nat → Bool) (start count : Nat) (runs : List (Nat × Nat)) : Prop :=
  runs.flatMap expand = (range' start count).filter bad ∧ ∀ r ∈ runs, r.1 < r.2

theorem covers_batchRuns (bad : Nat → Bool) (start count : Nat) :
    Covers bad start count (batchRuns (fun i => bad (start + i)) start count) := by
  obtain ⟨hflat, hlt⟩ := badRuns_expand bad start count 0 none (by simp)
  refine ⟨?_, forall_mem_map.mpr fun r hr => Nat.add_lt_add_left (hlt r hr) _⟩
  simpa [batchRuns, flatMap_map, expand, Nat.add_sub_add_left] using hflat

theorem covers_scanRuns (bad : Nat → Bool) (fuel start left : Nat) (hfuel : left ≤ fuel) :
    Covers bad start left (scanRuns bad fuel start left).flatten := by
  induction fuel generalizing start left with
  | zero => simp [Covers, scanRuns, Nat.le_zero.mp hfuel]
  | succ fuel ih =>
    rw [scanRuns]
    split
    · next hleft => simp [Covers, hleft]
    · obtain ⟨hflat, hlt⟩ := covers_batchRuns bad start (min 1024 left)
      obtain ⟨hrest, hlt'⟩ := ih (start + min 1024 left) (left - min 1024 left) (by omega)
      refine ⟨?_, fun r hr => ?_⟩
      · rw [flatten_cons, flatMap_append, hflat, hrest, ← filter_append, range'_append_1,
          Nat.add_sub_cancel' (min_le_right _ _)]
      · rw [flatten_cons, mem_append] at hr
        exact hr.elim (hlt r) (hlt' r)

/-- No product of the bounds overflows. -/
def Fits (ds : Nat) (run : Nat × Nat) : Prop :=
  ∀ c ∈ [run.1, run.2], i32 (c * ds) = c * ds

theorem fits_iff {run : Nat × Nat} (hlt : run.1 < run.2) :
    Fits ds run ↔ run.2 * ds < 2147483648 := by
  have hle : run.1 * ds ≤ run.2 * ds := Nat.mul_le_mul_right _ hlt.le
  simp only [Fits, forall_mem_cons, ← Int.natCast_mul, i32]
  refine ⟨fun h => by omega, fun h => ⟨by omega, by omega, by simp⟩⟩

theorem Fits.stripesOf (hds : 0 < ds) {run : Nat × Nat} (h : Fits ds run) (hlt : run.1 < run.2) :
    stripesOf ds run = expand run := by
  have hend := (fits_iff hlt).mp h
  have hlast : i32 (run.2 * ds - 1) = run.2 * ds - 1 := by
    rw [← Int.natCast_mul, i32]
    omega
  have hlen : run.2 * ds - 1 - run.1 * ds + 1 = (run.2 - run.1 : Int) * ds := by
    rw [Int.sub_mul]
    omega
  have hne : (ds : Int) ≠ 0 := by omega
  rw [Jerasure.stripesOf, runRange, h run.1 (by simp), h run.2 (by simp), hlast]
  simp only [hlen, Int.mul_tdiv_cancel _ hne, expand]
  congr 1
  omega

/-- The loop ends, no bound of a repair overflows, and the repairs hold each bad stripe once and no
other stripe. -/
def RepairsExactly (ds : Nat) (bad : Nat → Bool) (stripes : Nat) : Prop :=
  ∃ runs ∈ repairRuns bad stripes, (∀ run ∈ runs.flatten, Fits ds run) ∧
    runs.flatten.flatMap (stripesOf ds) = (range stripes).filter bad

theorem repairsExactly_iff (hds : 0 < ds) (bad : Nat → Bool) (stripes : Nat) :
    RepairsExactly ds bad stripes ↔ i32 stripes ≠ 2147483647 ∧ ∀ c < stripes, bad c = true →
      (c : Int) < i32 stripes ∧ (c + 1) * ds < 2147483648 := by
  obtain ⟨hflat, hlt⟩ := covers_scanRuns bad (i32 stripes).toNat 0 _ le_rfl
  have hle : (i32 stripes).toNat ≤ stripes := by
    rw [i32]
    omega
  rw [RepairsExactly, repairRuns]
  generalize i32 stripes = total at *
  generalize (scanRuns bad total.toNat 0 total.toNat) = runs at *
  have hexpand (hfits : ∀ run ∈ runs.flatten, Fits ds run) :
      runs.flatten.flatMap (stripesOf ds) = (range' 0 total.toNat).filter bad := by
    rw [← hflat]
    exact flatMap_congr fun run hrun => (hfits run hrun).stripesOf hds (hlt run hrun)
  constructor
  · rintro ⟨runs', hruns, hfits, hcover⟩
    obtain ⟨hmax, rfl⟩ : total ≠ 2147483647 ∧ runs = runs' := by simpa using hruns
    refine ⟨hmax, fun c hc hbad => ?_⟩
    have hin : c ∈ (range stripes).filter bad := mem_filter.mpr ⟨mem_range.mpr hc, hbad⟩
    rw [← hcover, hexpand hfits] at hin
    have hc := mem_range'_1.mp (mem_filter.mp hin).1
    rw [← hflat] at hin
    obtain ⟨run, hrun, hcr⟩ := mem_flatMap.mp hin
    have hend := (fits_iff (hlt run hrun)).mp (hfits run hrun)
    have hcr := mem_range'_1.mp hcr
    have hmul : (c + 1) * ds ≤ run.2 * ds := Nat.mul_le_mul_right _ (by omega)
    exact ⟨by omega, by omega⟩
  · rintro ⟨hmax, hall⟩
    have hfits : ∀ run ∈ runs.flatten, Fits ds run := by
      intro run hrun
      have hrlt := hlt run hrun
      have hlast : run.2 - 1 ∈ runs.flatten.flatMap expand :=
        mem_flatMap.mpr ⟨run, hrun, mem_range'_1.mpr (by omega)⟩
      rw [hflat, mem_filter, mem_range'_1] at hlast
      have hend := (hall (run.2 - 1) (by omega) hlast.2).2
      rw [Nat.sub_add_cancel (by omega)] at hend
      exact (fits_iff hrlt).mpr hend
    refine ⟨runs, by simp [hmax], hfits, ?_⟩
    have hrest : (range' total.toNat (stripes - total.toNat)).filter bad = [] := by
      refine filter_eq_nil_iff.mpr fun c hc hbad => ?_
      have hc := mem_range'_1.mp hc
      have := (hall c (by omega) hbad).1
      omega
    have hsplit : range' 0 total.toNat ++ range' (0 + total.toNat) _ = _ :=
      range'_append_1 (n := stripes - total.toNat)
    rw [Nat.zero_add, Nat.add_sub_cancel' hle] at hsplit
    rw [hexpand hfits, range_eq_range', ← hsplit, filter_append, hrest, append_nil]

/-- The counters of the queue, and that a scan without a failed repair is a success. -/
structure Counts (taken : List (List Status)) (q : RepairQueue) : Prop where
  nsubmitted : q.nsubmitted = taken.flatten.length
  failed : q.failed = (taken.flatten.filter fun st => !st.ok).length
  ok : q.failed = 0 → q.status.ok = true

theorem counts_await (taken : List (List Status)) :
    Counts taken (taken.foldl RepairQueue.await ⟨⟨true, 0⟩, 0, 0⟩) := by
  induction taken using reverseRecOn with
  | nil => exact ⟨rfl, rfl, fun _ => rfl⟩
  | append_singleton taken done ih =>
    rw [foldl_append, foldl_cons, foldl_nil]
    refine ⟨by simp [RepairQueue.await, ih.nsubmitted], by simp [RepairQueue.await, ih.failed],
      fun hzero => ?_⟩
    obtain ⟨hold, hdone⟩ := Nat.add_eq_zero_iff.mp hzero
    simp only [RepairQueue.await, hold, hdone]
    cases done using reverseRecOn with
    | nil => simpa using ih.ok hold
    | append_singleton done st =>
      have hall := filter_eq_nil_iff.mp (length_eq_zero_iff.mp hdone) st (by simp)
      rw [if_pos (by rw [length_append, length_singleton]; omega)]
      simpa using hall

/-- A failed repair is reported if the last batch has no repairs or its status that is taken last
is a failure. -/
theorem scanStatus_iff {taken : List (List Status)} (hfail : ∃ st ∈ taken.flatten, st.ok = false) :
    (scanStatus taken).ok = false ↔
      ∀ done ∈ taken.getLast?, ∀ st ∈ done.getLast?, st.ok = false := by
  have hcounts := counts_await taken
  cases taken using reverseRecOn with
  | nil => simp at hfail
  | append_singleton taken done =>
    obtain ⟨bad, hbad, hok⟩ := hfail
    have hpos := length_pos_of_mem (mem_filter.mpr ⟨hbad, by simp [hok]⟩ :
      bad ∈ (taken ++ [done]).flatten.filter fun st => !st.ok)
    have hsub := length_pos_of_mem hbad
    rw [← hcounts.failed] at hpos
    rw [← hcounts.nsubmitted] at hsub
    rw [foldl_append, foldl_cons, foldl_nil] at hpos hsub
    rw [scanStatus, foldl_append, foldl_cons, foldl_nil, RepairQueue.await]
    simp only [RepairQueue.await] at hpos hsub
    simp only [if_pos hpos, if_pos hsub]
    cases done using reverseRecOn <;> simp

/-- A scan repairs exactly the bad stripes and reports failed repairs exactly when the bad stripes
are counted and end below the largest `int`, and, if a repair fails, the last batch has no repairs
or the status that is taken last is a failure. -/
theorem scan_repairs_iff (bad : Nat → Bool) (ds fsize : Nat) (hds : 0 < ds)
    (taken : List (List Status)) :
    (RepairsExactly ds bad (fsize / ds) ∧
        ((∃ st ∈ taken.flatten, st.ok = false) → (scanStatus taken).ok = false)) ↔
      (i32 (fsize / ds : Nat) ≠ 2147483647 ∧ ∀ c < fsize / ds, bad c = true →
          (c : Int) < i32 (fsize / ds : Nat) ∧ (c + 1) * ds < 2147483648) ∧
        ((∃ st ∈ taken.flatten, st.ok = false) →
          ∀ done ∈ taken.getLast?, ∀ st ∈ done.getLast?, st.ok = false) := by
  rw [repairsExactly_iff hds]
  exact and_congr_right fun _ => imp_congr_right scanStatus_iff

theorem scan_repairs_two : RepairsExactly 4 (· == 1) 3 ∧
    ((∃ st ∈ [[Status.mk false 512]].flatten, st.ok = false) →
      (scanStatus [[⟨false, 512⟩]]).ok = false) :=
  (scan_repairs_iff (· == 1) 4 12 (by decide) [[⟨false, 512⟩]]).mpr ⟨by decide, by simp⟩

/-- Of two repairs in a batch the first fails, and the scan succeeds; and the range of a bad stripe
behind byte 2^31 is wrong. -/
theorem scan_forgets_failure : repairRuns (· != 1) 3 = some [[(0, 1), (2, 3)]] ∧
    (scanStatus [[⟨false, 512⟩, ⟨true, 512⟩]]).ok = true ∧
    runRange 1073741824 (2, 3) = (-2147483648, -1073741825) := by decide

/-- The next batch keeps the failure of an earlier one when it has no repairs. -/
example : (scanStatus [[⟨false, 512⟩, ⟨true, 512⟩], []]).ok = false := by decide

variable {n m cs : Nat}

/-- The course of a scan from stripe `start` on: each batch reads the magics of its stripes over
those of the batch before, and has the runs of bad stripes repaired with the statuses of
`taken`. -/
inductive Repaired (s : Segjerase n m cs) (q : InspectReq n m) (command : InspectCommand)
    (bad : Nat → Bool) :
    Nat → (Nat → Fin (n + m) → Magic) → List (List (Nat × Nat)) → List (List Status) →
      InspectState cs → InspectState cs → Prop
  | done {start old st} : Repaired s q command bad start old [] [] st st
  | batch {start old st st' runs taken} (count : Nat)
      (hbad : ∀ i < count, bad (start + i) =
        inconsistent (readMagics (q.io st.clock) st start count old i))
      (rest : Repaired s q command bad (start + count) (readMagics (q.io st.clock) st start count old)
        runs taken
        (inspectRuns s q command ((batchRuns (fun i => bad (start + i)) start count).map
          (runRange (dataSize n cs))) { st with clock := st.clock + 1 }).1 st') :
      Repaired s q command bad start old (batchRuns (fun i => bad (start + i)) start count :: runs)
        ((inspectRuns s q command ((batchRuns (fun i => bad (start + i)) start count).map
          (runRange (dataSize n cs))) { st with clock := st.clock + 1 }).2.map Prod.fst :: taken)
        st st'

theorem badRuns_congr {bad bad' : Nat → Bool} (count i : Nat) (first : Option Nat)
    (h : ∀ j, i ≤ j → j < i + count → bad j = bad' j) :
    badRuns bad count i first = badRuns bad' count i first := by
  induction count generalizing i first with
  | zero => rfl
  | succ count ih =>
    have hrest (first : Option Nat) := ih (i + 1) first fun j hle hlt => h j (by omega) (by omega)
    rw [badRuns, badRuns, h i le_rfl (by omega), hrest, hrest]

theorem batchRuns_congr {bad bad' : Nat → Bool} (start : Nat) {count : Nat}
    (h : ∀ i < count, bad i = bad' i) : batchRuns bad start count = batchRuns bad' start count := by
  rw [batchRuns, badRuns_congr count 0 none fun j _ hj => h j (by omega), batchRuns]

theorem scanRuns_congr {bad bad' : Nat → Bool} (fuel start left : Nat)
    (h : ∀ c, start ≤ c → bad c = bad' c) :
    scanRuns bad fuel start left = scanRuns bad' fuel start left := by
  induction fuel generalizing start left with
  | zero => rfl
  | succ fuel ih =>
    rw [scanRuns, scanRuns]
    split
    · rfl
    · dsimp only
      rw [ih _ _ fun c hc => h c (by omega), batchRuns_congr start fun i _ => h (start + i) (by omega)]

variable {s : Segjerase n m cs} {q : InspectReq n m} {command : InspectCommand}

theorem Repaired.congr {bad bad' : Nat → Bool} {start old runs taken st st'}
    (hrun : Repaired s q command bad start old runs taken st st')
    (h : ∀ c, start ≤ c → bad c = bad' c) :
    Repaired s q command bad' start old runs taken st st' := by
  induction hrun with
  | done => exact .done
  | @batch start old st st' runs taken count hbad rest ih =>
    have hrest := ih fun c hc => h c (by omega)
    have heq : batchRuns (fun i => bad (start + i)) start count =
        batchRuns (fun i => bad' (start + i)) start count :=
      batchRuns_congr start fun i _ => h (start + i) (by omega)
    rw [heq] at hrest ⊢
    exact .batch count (fun i hi => by rw [← h _ (by omega), hbad i hi]) hrest

theorem scanBatches_repaired (hfix : command.doFix = true) (fuel start left : Nat)
    (st : ScanState n m cs) :
    ∃ bad taken,
      Repaired s q command bad start st.magic (scanRuns bad fuel start left) taken st.seg
        (scanBatches s q command fuel start left st).seg ∧
      (scanBatches s q command fuel start left st).queue =
        taken.foldl RepairQueue.await st.queue := by
  induction fuel generalizing start left st with
  | zero => exact ⟨fun _ => false, [], .done, rfl⟩
  | succ fuel ih =>
    by_cases hleft : left = 0
    · refine ⟨fun _ => false, [], ?_⟩
      rw [scanBatches, if_pos hleft, scanRuns, if_pos hleft]
      exact ⟨.done, rfl⟩
    obtain ⟨rest, taken, hrun, hqueue⟩ := ih (start + min 1024 left) (left - min 1024 left)
      (scanBatch s q command start (min 1024 left) st)
    -- the batch decides about its own stripes, what follows about the others
    obtain ⟨bad, hbad⟩ : ∃ bad : Nat → Bool, bad = fun c =>
        if c < start + min 1024 left then
          inconsistent (readMagics (q.io st.seg.clock) st.seg start (min 1024 left) st.magic
            (c - start))
        else rest c := ⟨_, rfl⟩
    have hhere : ∀ i < min 1024 left, bad (start + i) =
        inconsistent (readMagics (q.io st.seg.clock) st.seg start (min 1024 left) st.magic i) := by
      intro i hi
      simp only [hbad, if_pos (Nat.add_lt_add_left hi start), Nat.add_sub_cancel_left]
    have hlater : ∀ c, start + min 1024 left ≤ c → rest c = bad c := by
      intro c hc
      simp only [hbad, if_neg (Nat.not_lt.mpr hc)]
    have hruns := batchRuns_congr start hhere
    rw [scanRuns_congr _ _ _ hlater] at hrun
    have hseg : (scanBatch s q command start (min 1024 left) st).seg =
        (inspectRuns s q command ((batchRuns (fun i => bad (start + i)) start (min 1024 left)).map
          (runRange (dataSize n cs))) { st.seg with clock := st.seg.clock + 1 }).1 := by
      simp only [scanBatch, hfix, if_true, hruns]
    rw [hseg] at hrun
    have hscan := Repaired.batch _ hhere (hrun.congr hlater)
    rw [scanBatches, if_neg hleft]
    simp only [scanRuns, if_neg hleft]
    refine ⟨bad, _, hscan, ?_⟩
    rw [hqueue, foldl_cons]
    simp only [scanBatch, hfix, if_true, hruns]

/-- A repairing scan of a segment has the runs of some bad stripes repaired, those whose magics
it saw differ, and its status is that of the repairs. -/
theorem segjeraseInspectScan_repaired (s : Segjerase n m cs) (q : InspectReq n m)
    (hfix : command.doFix = true) (st : InspectState cs) (hmax : i32 st.stripes ≠ 2147483647) :
    ∃ bad runs taken, runs ∈ repairRuns bad st.stripes ∧
      Repaired s q command bad 0 (fun _ _ => 0) runs taken st
        (segjeraseInspectScan s q command st).1 ∧
      (segjeraseInspectScan s q command st).2 = scanStatus taken := by
  rw [segjeraseInspectScan]
  obtain ⟨bad, taken, hrun, hqueue⟩ := scanBatches_repaired (s := s) (q := q) hfix
    (i32 st.stripes).toNat 0 (i32 st.stripes).toNat ⟨st, fun _ _ => 0, 0, ⟨⟨true, 0⟩, 0, 0⟩⟩
  refine ⟨bad, _, taken, by simp [repairRuns, hmax], hrun, ?_⟩
  rw [scanStripes, scanStatus, ← hqueue]
  simp [hfix]

end LStore.Jerasure
