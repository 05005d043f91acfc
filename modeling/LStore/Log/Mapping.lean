import LStore.Base.IntervalList

/-!
# The range mapping of a log segment

`src/lio/segment/log.c` keeps the logged ranges of a segment in an interval
list, from segment offsets to offsets of the data segment. Here the interval
list is the ordered list of `IntervalList`, which `Toolbox.IntervalOrdered` relates
to the one of the toolbox; the iterator is the list of values still to be returned.

## Implementation notes

The loop of `_slog_insert_range` restarts its search after every removal and
stops when the search is empty. On an inverted range (`hi < lo`) it need not
stop, so the model carries fuel and an exhausted fuel is `none`. The fuel is one
more than the number of ranges, which suffices for every nonempty range.
-/

namespace LStore.Log

open IntervalList

/-- A range of the log. In memory `hi` is the last offset of the range; in a
table record it is the length. -/
structure SlogRange where
  lo : Int
  hi : Int
  dataOffset : Int
deriving DecidableEq, Repr

instance : Spanned SlogRange := ⟨SlogRange.lo, SlogRange.hi⟩

@[simp] theorem spanned_lo (r : SlogRange) : Spanned.lo r = r.lo := rfl

@[simp] theorem spanned_hi (r : SlogRange) : Spanned.hi r = r.hi := rfl

theorem meets_def {l h} {r : SlogRange} :
    Meets l h r ↔ (r.lo < l ∧ l ≤ r.hi) ∨ (l ≤ r.lo ∧ r.lo ≤ h) := .rfl

abbrev Mapping := List SlogRange

def tbxIslInsert (r : SlogRange) (m : Mapping) : Mapping := insertByLo r m

def tbxIslRemove (r : SlogRange) (m : Mapping) : Mapping := m.erase r

def tbxIslSearch (lo hi : Int) (m : Mapping) : List SlogRange := search lo hi m

/-- The data offset a mapping gives to a segment offset. -/
def lookup (m : Mapping) (o : Int) : Option Int :=
  (m.find? fun x => x.lo ≤ o ∧ o ≤ x.hi).map fun x => x.dataOffset + (o - x.lo)

/-- Some range of the mapping takes `o` to `d`. -/
def Maps (m : Mapping) (o d : Int) : Prop :=
  ∃ x ∈ m, x.lo ≤ o ∧ o ≤ x.hi ∧ d = x.dataOffset + (o - x.lo)

/-- The part of `ir` before `r`. -/
def frontPart (r ir : SlogRange) : SlogRange := { ir with hi := r.lo - 1 }

/-- The part of `ir` after `r`, with its data offset moved along. -/
def backPart (r ir : SlogRange) : SlogRange :=
  { lo := r.hi + 1, hi := ir.hi, dataOffset := ir.dataOffset + (r.hi + 1 - ir.lo) }

/-- One pass of the loop in `_slog_insert_range`: take the overlapping range
`ir` out and put back what `r` does not cover. -/
def clearStep (r ir : SlogRange) (m : Mapping) : Mapping :=
  let m := tbxIslRemove ir m
  if ir.lo < r.lo then
    if r.hi < ir.hi then
      tbxIslInsert (frontPart r ir) (tbxIslInsert (backPart r ir) m)
    else
      tbxIslInsert (frontPart r ir) m
  else if ir.hi ≤ r.hi then
    m
  else
    tbxIslInsert (backPart r ir) m

/-- The loop: search, clear the first range found, search again. -/
def clearRange : Nat → SlogRange → Mapping → Option Mapping
  | 0, _, _ => none
  | fuel + 1, r, m =>
    match tbxIslSearch r.lo r.hi m with
    | [] => some m
    | ir :: _ => clearRange fuel r (clearStep r ir m)

/-- Absorb the range that ends right before `r`, when its data ends where the
data of `r` starts. -/
def combinePrevious (r : SlogRange) (m : Mapping) : SlogRange × Mapping :=
  match tbxIslSearch (r.lo - 1) r.hi m with
  | [] => (r, m)
  | ir :: _ =>
    if ir.dataOffset + ir.hi - ir.lo + 1 = r.dataOffset then
      ({ r with lo := ir.lo, dataOffset := ir.dataOffset }, tbxIslRemove ir m)
    else
      (r, m)

/-- The mapping after `_slog_insert_range` on a range that is not a truncate
record. -/
def insertMapping (r : SlogRange) (m : Mapping) : Option Mapping :=
  (clearRange (m.length + 1) r m).map fun m =>
    tbxIslInsert (combinePrevious r m).1 (combinePrevious r m).2

/-- Remove the collected ranges. -/
def dropBatch (batch : List SlogRange) (m : Mapping) : Mapping :=
  batch.foldl (fun m ir => tbxIslRemove ir m) m

/-- The removal loop of `_slog_truncate_range`: collect up to `bufmax` ranges,
remove them, and search again. -/
def dropLoop (lo hi : Int) : Nat → List SlogRange → List SlogRange → Mapping → Option Mapping
  | 0, _, _, _ => none
  | _ + 1, [], batch, m => some (dropBatch batch m)
  | fuel + 1, ir :: it, batch, m =>
    let batch := batch ++ [ir]
    if batch.length = 100 then
      let m := dropBatch batch m
      dropLoop lo hi fuel (tbxIslSearch lo hi m) [] m
    else
      dropLoop lo hi fuel it batch m

/-- The mapping after `_slog_truncate_range`. After a range that straddles the
new end is shortened the search restarts and the first range it finds is
skipped, as in the source. -/
def truncateMapping (newEnd fileSize : Int) (m : Mapping) : Option Mapping :=
  let lo := newEnd + 1
  match tbxIslSearch lo fileSize m with
  | [] => some m
  | ir :: it =>
    if ir.lo ≤ newEnd then
      let m := tbxIslInsert { ir with hi := newEnd } (tbxIslRemove ir m)
      dropLoop lo fileSize (m.length + 2) (tbxIslSearch lo fileSize m).tail [] m
    else
      dropLoop lo fileSize (m.length + 2) it [ir] m

section Denotation

theorem maps_insert {r : SlogRange} {m : Mapping} {o d : Int} :
    Maps (tbxIslInsert r m) o d ↔
      (r.lo ≤ o ∧ o ≤ r.hi ∧ d = r.dataOffset + (o - r.lo)) ∨ Maps m o d := by
  simp [Maps, tbxIslInsert]

theorem mem_tbxIslRemove {m : Mapping} (hm : Ordered m) {r x : SlogRange} :
    x ∈ tbxIslRemove r m ↔ x ∈ m ∧ x ≠ r := by
  rw [tbxIslRemove, hm.mem_erase, and_comm]

/-- In an ordered mapping at most one range covers an offset. -/
theorem cover_unique {m : Mapping} (hm : Ordered m) {x y : SlogRange} (hx : x ∈ m)
    (hy : y ∈ m) {o : Int} (hxo : x.lo ≤ o ∧ o ≤ x.hi) (hyo : y.lo ≤ o ∧ o ≤ y.hi) :
    x = y := by
  by_contra hne
  have h := hm.disjoint hx hy hne
  simp only [spanned_lo, spanned_hi] at h
  omega

theorem lookup_eq_some_iff {m : Mapping} (hm : Ordered m) {o d : Int} :
    lookup m o = some d ↔ Maps m o d := by
  constructor
  · intro h
    obtain ⟨x, hfind, hd⟩ := Option.map_eq_some_iff.mp h
    have hcover := List.find?_some hfind
    simp only [decide_eq_true_eq] at hcover
    exact ⟨x, List.mem_of_find?_eq_some hfind, hcover.1, hcover.2, hd.symm⟩
  · rintro ⟨x, hx, hlo, hhi, hd⟩
    cases hfind : m.find? (fun x => x.lo ≤ o ∧ o ≤ x.hi) with
    | none =>
      have hnone := List.find?_eq_none.mp hfind x hx
      simp [hlo, hhi] at hnone
    | some y =>
      have hcover := List.find?_some hfind
      simp only [decide_eq_true_eq] at hcover
      have hxy := cover_unique hm hx (List.mem_of_find?_eq_some hfind) ⟨hlo, hhi⟩ hcover
      subst hxy
      rw [lookup, hfind, hd]
      rfl

theorem lookup_eq_none_iff {m : Mapping} {o : Int} :
    lookup m o = none ↔ ∀ x ∈ m, ¬(x.lo ≤ o ∧ o ≤ x.hi) := by
  simp [lookup, List.find?_eq_none]

/-- Ordered mappings with the same pairs look up alike. -/
theorem lookup_congr {m m' : Mapping} (hm : Ordered m) (hm' : Ordered m') {o : Int}
    (h : ∀ d, Maps m' o d ↔ Maps m o d) : lookup m' o = lookup m o := by
  apply Option.ext
  intro d
  rw [lookup_eq_some_iff hm, lookup_eq_some_iff hm', h]

end Denotation

section Clear

variable {r ir : SlogRange} {m : Mapping}

/-- A search finds the ranges that share an offset with the searched range. -/
theorem meets_range (hm : Ordered m) (hr : r.lo ≤ r.hi) {x : SlogRange} (hx : x ∈ m) :
    Meets r.lo r.hi x ↔ x.lo ≤ r.hi ∧ r.lo ≤ x.hi :=
  meets_iff (hm.nonempty x hx) hr

/-- A clearing pass puts back the parts of the range that `r` does not cover. -/
theorem mem_clearStep (hm : Ordered m) {x : SlogRange} :
    x ∈ clearStep r ir m ↔
      (x ∈ m ∧ x ≠ ir) ∨ (ir.lo < r.lo ∧ x = frontPart r ir) ∨
        (r.hi < ir.hi ∧ x = backPart r ir) := by
  have herase : x ∈ tbxIslRemove ir m ↔ x ∈ m ∧ x ≠ ir := mem_tbxIslRemove hm
  unfold clearStep
  by_cases hlo : ir.lo < r.lo
  · by_cases hhi : r.hi < ir.hi
    · simp only [hlo, hhi, if_true, tbxIslInsert, mem_insertByLo, herase, true_and]
      tauto
    · simp only [hlo, hhi, if_true, if_false, tbxIslInsert, mem_insertByLo, herase, true_and,
        false_and, or_false]
      tauto
  · by_cases hhi : r.hi < ir.hi
    · have hle : ¬ir.hi ≤ r.hi := by omega
      simp only [hlo, hhi, hle, if_false, tbxIslInsert, mem_insertByLo, herase, true_and,
        false_and, false_or]
      tauto
    · have hle : ir.hi ≤ r.hi := by omega
      simp only [hlo, hhi, hle, if_true, if_false, herase, false_and, or_false]

/-- Outside `r` a clearing pass changes nothing. -/
theorem maps_clearStep (hm : Ordered m) (hir : ir ∈ m) (hr : r.lo ≤ r.hi)
    (hmeet : Meets r.lo r.hi ir) {o d : Int} (ho : ¬(r.lo ≤ o ∧ o ≤ r.hi)) :
    Maps (clearStep r ir m) o d ↔ Maps m o d := by
  have hover := (meets_range hm hr hir).mp hmeet
  constructor
  · rintro ⟨x, hx, hlo, hhi, hd⟩
    rcases (mem_clearStep hm).mp hx with ⟨hmem, _⟩ | ⟨_, rfl⟩ | ⟨_, rfl⟩
    · exact ⟨x, hmem, hlo, hhi, hd⟩
    · simp only [frontPart] at hlo hhi hd
      exact ⟨ir, hir, hlo, by omega, hd⟩
    · simp only [backPart] at hlo hhi hd
      exact ⟨ir, hir, by omega, hhi, by omega⟩
  · rintro ⟨x, hx, hlo, hhi, hd⟩
    by_cases hxir : x = ir
    · -- the offset lies on one side of `r`, and that part is put back
      subst hxir
      by_cases hside : o < r.lo
      · refine ⟨frontPart r x, (mem_clearStep hm).mpr (Or.inr (Or.inl ⟨by omega, rfl⟩)), ?_⟩
        simp only [frontPart]
        omega
      · refine ⟨backPart r x, (mem_clearStep hm).mpr (Or.inr (Or.inr ⟨by omega, rfl⟩)), ?_⟩
        simp only [backPart]
        omega
    · exact ⟨x, (mem_clearStep hm).mpr (Or.inl ⟨hx, hxir⟩), hlo, hhi, hd⟩

/-- What stays of the mapping when `ir` is taken out lies beside `ir`. -/
theorem apart_of_removed (hm : Ordered m) (hir : ir ∈ m) {x : SlogRange}
    (hx : x ∈ tbxIslRemove ir m) : ir.hi < x.lo ∨ x.hi < ir.lo := by
  obtain ⟨hmem, hne⟩ := (mem_tbxIslRemove hm).mp hx
  exact hm.disjoint hir hmem (Ne.symm hne)

theorem ordered_clearStep (hm : Ordered m) (hir : ir ∈ m) (hr : r.lo ≤ r.hi)
    (hmeet : Meets r.lo r.hi ir) : Ordered (clearStep r ir m) := by
  have hover := (meets_range hm hr hir).mp hmeet
  have hrest : Ordered (tbxIslRemove ir m) := hm.erase ir
  have hback (hhi : r.hi < ir.hi) : Ordered (tbxIslInsert (backPart r ir) (tbxIslRemove ir m)) := by
    refine hrest.insert ?_ ?_
    · simp only [spanned_lo, spanned_hi, backPart]
      omega
    · intro x hx
      have := apart_of_removed hm hir hx
      simp only [spanned_lo, spanned_hi, backPart]
      omega
  unfold clearStep
  split_ifs with hlo hhi hin
  · refine (hback hhi).insert ?_ ?_
    · simp only [spanned_lo, spanned_hi, frontPart]
      omega
    · intro x hx
      rcases mem_insertByLo.mp hx with rfl | hx
      · simp only [spanned_lo, spanned_hi, frontPart, backPart]
        omega
      · have := apart_of_removed hm hir hx
        simp only [spanned_lo, spanned_hi, frontPart]
        omega
  · refine hrest.insert ?_ ?_
    · simp only [spanned_lo, spanned_hi, frontPart]
      omega
    · intro x hx
      have := apart_of_removed hm hir hx
      simp only [spanned_lo, spanned_hi, frontPart]
      omega
  · exact hrest
  · exact hback (by omega)

/-- Each clearing pass leaves one overlapping range fewer. -/
theorem countP_clearStep (hir : ir ∈ m) (hr : r.lo ≤ r.hi)
    (hmeet : Meets r.lo r.hi ir) :
    (clearStep r ir m).countP (fun x => Meets r.lo r.hi x) + 1 =
      m.countP (fun x => Meets r.lo r.hi x) := by
  have herase := countP_erase_add (fun x => decide (Meets r.lo r.hi x)) hir
  have hback : ¬Meets r.lo r.hi (backPart r ir) := by
    simp only [Meets, spanned_lo, spanned_hi, backPart]
    omega
  have hfront (hlo : ir.lo < r.lo) : ¬Meets r.lo r.hi (frontPart r ir) := by
    simp only [Meets, spanned_lo, spanned_hi, frontPart]
    omega
  simp only [hmeet, decide_true, if_true] at herase
  unfold clearStep tbxIslInsert tbxIslRemove
  split_ifs with hlo hhi hin
  · simpa [countP_insertByLo, hback, hfront hlo] using herase
  · simpa [countP_insertByLo, hfront hlo] using herase
  · exact herase
  · simpa [countP_insertByLo, hback] using herase

/-- The clearing loop ends, with nothing left in `r` and everything outside
`r` as it was. The induction is on the fuel; the number of overlapping ranges
stays below it. -/
theorem clearRange_spec (hr : r.lo ≤ r.hi) (fuel : Nat) (hm : Ordered m)
    (hfuel : m.countP (fun x => Meets r.lo r.hi x) < fuel) :
    ∃ m', clearRange fuel r m = some m' ∧ Ordered m' ∧
      (∀ x ∈ m', ¬Meets r.lo r.hi x) ∧
      ∀ o d, ¬(r.lo ≤ o ∧ o ≤ r.hi) → (Maps m' o d ↔ Maps m o d) := by
  induction fuel generalizing m with
  | zero => omega
  | succ fuel ih =>
    cases hs : tbxIslSearch r.lo r.hi m with
    | nil =>
      refine ⟨m, by simp [clearRange, hs], hm, ?_, fun _ _ _ => Iff.rfl⟩
      intro x hx hmeet
      have hmem : x ∈ tbxIslSearch r.lo r.hi m := mem_search.mpr ⟨hx, hmeet⟩
      simp [hs] at hmem
    | cons ir rest =>
      have hmem : ir ∈ tbxIslSearch r.lo r.hi m := by simp [hs]
      obtain ⟨hir, hmeet⟩ := mem_search.mp hmem
      have hcount := countP_clearStep hir hr hmeet
      obtain ⟨m', hrun, hord, hnone, hmaps⟩ :=
        ih (ordered_clearStep hm hir hr hmeet) (by omega)
      refine ⟨m', by simp [clearRange, hs, hrun], hord, hnone, ?_⟩
      intro o d ho
      rw [hmaps o d ho, maps_clearStep hm hir hr hmeet ho]

/-- Absorbing the previous range leaves the pairs of `r` and of the mapping. -/
theorem combinePrevious_spec (hr : r.lo ≤ r.hi) (hm : Ordered m)
    (hnone : ∀ x ∈ m, ¬Meets r.lo r.hi x) :
    Ordered (tbxIslInsert (combinePrevious r m).1 (combinePrevious r m).2) ∧
      ∀ o d, Maps (tbxIslInsert (combinePrevious r m).1 (combinePrevious r m).2) o d ↔
        (r.lo ≤ o ∧ o ≤ r.hi ∧ d = r.dataOffset + (o - r.lo)) ∨ Maps m o d := by
  have hapart (x : SlogRange) (hx : x ∈ m) : r.hi < x.lo ∨ x.hi < r.lo := by
    have := hnone x hx
    rw [meets_range hm hr hx] at this
    omega
  have hplain : Ordered (tbxIslInsert r m) := hm.insert hr hapart
  unfold combinePrevious
  cases hs : tbxIslSearch (r.lo - 1) r.hi m with
  | nil => exact ⟨hplain, fun _ _ => maps_insert⟩
  | cons ir rest =>
    by_cases hjoin : ir.dataOffset + ir.hi - ir.lo + 1 = r.dataOffset
    · have hmem : ir ∈ tbxIslSearch (r.lo - 1) r.hi m := by simp [hs]
      obtain ⟨hir, hmeet⟩ := mem_search.mp hmem
      have hne : ir.lo ≤ ir.hi := hm.nonempty ir hir
      have hover := (meets_iff (h := r.hi) (l := r.lo - 1) hne (by omega)).mp hmeet
      simp only [spanned_lo, spanned_hi] at hover
      -- the range found reaches `r.lo - 1` and not `r.lo`, so it ends there
      have hend : ir.hi = r.lo - 1 := by
        have := hapart ir hir
        omega
      simp only [hjoin, if_true]
      constructor
      · refine (hm.erase ir).insert ?_ ?_
        · simp only [spanned_lo, spanned_hi]
          omega
        · intro x hx
          have hbeside := apart_of_removed hm hir hx
          have := hapart x ((mem_tbxIslRemove hm).mp hx).1
          have : x.lo ≤ x.hi := hm.nonempty x ((mem_tbxIslRemove hm).mp hx).1
          simp only [spanned_lo, spanned_hi]
          omega
      · intro o d
        rw [maps_insert]
        constructor
        · rintro (⟨hlo, hhi, hd⟩ | ⟨x, hx, h⟩)
          · by_cases hin : r.lo ≤ o
            · exact Or.inl ⟨hin, hhi, by simp only at hd; omega⟩
            · exact Or.inr ⟨ir, hir, hlo, by omega, hd⟩
          · exact Or.inr ⟨x, ((mem_tbxIslRemove hm).mp hx).1, h⟩
        · rintro (⟨hlo, hhi, hd⟩ | ⟨x, hx, hlo, hhi, hd⟩)
          · exact Or.inl ⟨by simp only; omega, hhi, by simp only; omega⟩
          · by_cases hxir : x = ir
            · subst hxir
              exact Or.inl ⟨hlo, by simp only; omega, hd⟩
            · exact Or.inr ⟨x, (mem_tbxIslRemove hm).mpr ⟨hx, hxir⟩, hlo, hhi, hd⟩
    · simp only [hjoin, if_false]
      exact ⟨hplain, fun _ _ => maps_insert⟩

/-- Inserting a nonempty range overrides the mapping on that range. -/
theorem insertMapping_spec (hr : r.lo ≤ r.hi) (hm : Ordered m) :
    ∃ m', insertMapping r m = some m' ∧ Ordered m' ∧
      ∀ o, lookup m' o =
        if r.lo ≤ o ∧ o ≤ r.hi then some (r.dataOffset + (o - r.lo)) else lookup m o := by
  have hcount : m.countP (fun x => Meets r.lo r.hi x) ≤ m.length := List.countP_le_length
  obtain ⟨m₁, hrun, hord, hnone, hmaps⟩ := clearRange_spec hr (m.length + 1) hm (by omega)
  obtain ⟨hord', hmaps'⟩ := combinePrevious_spec hr hord hnone
  refine ⟨_, by simp [insertMapping, hrun], hord', ?_⟩
  intro o
  by_cases ho : r.lo ≤ o ∧ o ≤ r.hi
  · rw [if_pos ho, lookup_eq_some_iff hord', hmaps']
    exact Or.inl ⟨ho.1, ho.2, rfl⟩
  · rw [if_neg ho]
    apply lookup_congr hm hord'
    intro d
    rw [hmaps', hmaps o d ho]
    constructor
    · rintro (⟨hlo, hhi, _⟩ | h)
      · exact absurd ⟨hlo, hhi⟩ ho
      · exact h
    · exact Or.inr

end Clear

end LStore.Log
