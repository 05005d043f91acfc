import LStore.Log.Truncate

/-!
# What the mapping updates do to the file

`_slog_insert_range` overrides the partial function from offsets to data offsets
on the inserted range. `_slog_truncate_range` is to restrict it to the offsets
below the new size. When a range lies across the new size it is shortened, the
search starts over and one range is skipped; the shortened range is no longer
among those found, so the skipped one stays unless a later batch searches again.
-/

namespace LStore.Log

open IntervalList List Option

/-- An insertion overrides the mapping on the range and extends the file to it. -/
theorem slogInsertRange_overrides (s : Seglog) (r : SlogRange) (hm : Ordered s.mapping)
    (hlo : 0 ≤ r.lo) (hr : r.lo ≤ r.hi) :
    ∃ m, slogInsertRange s r =
        some { s with mapping := m, fileSize := max s.fileSize (r.hi + 1) } ∧
      Ordered m ∧
      ∀ o, lookup m o =
        if r.lo ≤ o ∧ o ≤ r.hi then some (r.dataOffset + (o - r.lo)) else lookup s.mapping o := by
  obtain ⟨m, hrun, hord, hlook⟩ := insertMapping_spec hr hm
  have hrecord : ¬r.lo = -1 := by omega
  have hsize : (if s.fileSize ≤ r.hi then r.hi + 1 else s.fileSize) = max s.fileSize (r.hi + 1) := by
    split_ifs <;> omega
  refine ⟨m, ?_, hord, hlook⟩
  simp [slogInsertRange, hrecord, hrun, hsize]

/-- A range in the middle of another one splits it. -/
theorem slogInsertRange_overrides_middle :
    ∃ m, slogInsertRange
        { slogMake Child.empty ⟨fun _ => 7, 9⟩ with mapping := [⟨0, 8, 0⟩] } ⟨3, 4, 9⟩ =
        some { slogMake Child.empty ⟨fun _ => 7, 9⟩ with mapping := m, fileSize := max 9 (4 + 1) } ∧
      Ordered m ∧
      ∀ o, lookup m o =
        if 3 ≤ o ∧ o ≤ 4 then some (9 + (o - 3)) else lookup [⟨0, 8, 0⟩] o :=
  slogInsertRange_overrides { slogMake Child.empty ⟨fun _ => 7, 9⟩ with mapping := [⟨0, 8, 0⟩] }
    ⟨3, 4, 9⟩ (ordered_cons.mpr ⟨by decide, by simp, ordered_nil⟩) (by decide) (by decide)

variable {m : Mapping} {n fileSize : Int}

/-- Some range lies across `n`. -/
def Across (n : Int) (m : Mapping) : Prop := ∃ x ∈ m, x.lo < n ∧ n ≤ x.hi

/-- The number of ranges that start at `n` or behind it. -/
def countBehind (n : Int) (m : Mapping) : Nat := m.countP fun x => n ≤ x.lo

/-- What a truncation to `n` is for. -/
structure RestrictedTo (n : Int) (s s' : Seglog) : Prop where
  ordered : Ordered s'.mapping
  lookup : ∀ o, lookup s'.mapping o = if o < n then lookup s.mapping o else none
  below : ∀ x ∈ s'.mapping, x.hi < n
  size : s'.fileSize = n

/-- In a mapping below `fileSize` the search finds what reaches `n`. -/
theorem meets_behind (hm : Ordered m) (hbelow : ∀ x ∈ m, x.hi < fileSize) {x} (hx : x ∈ m) :
    Meets n fileSize x ↔ n ≤ x.hi := by
  have hne : x.lo ≤ x.hi := hm.nonempty x hx
  have := hbelow x hx
  simp only [meets_def]
  omega

/-- After the range across `n` is shortened the search finds the ranges behind `n`. -/
theorem length_search_shortened (hm : Ordered m) (hbelow : ∀ x ∈ m, x.hi < fileSize) {ir}
    (hir : ir ∈ m) (hlo : ir.lo < n) (hhi : n ≤ ir.hi) :
    (tbxIslSearch n fileSize
      (tbxIslInsert { ir with hi := n - 1 } (tbxIslRemove ir m))).length = countBehind n m := by
  have hshort : ¬Meets n fileSize { ir with hi := n - 1 } := by
    simp only [meets_def]
    omega
  have hrest : (tbxIslRemove ir m).countP (fun x => Meets n fileSize x) =
      (tbxIslRemove ir m).countP (fun x => n ≤ x.lo) := by
    refine countP_congr fun x hx => ?_
    have hxm := ((mem_tbxIslRemove hm).mp hx).1
    have hne : x.lo ≤ x.hi := hm.nonempty x hxm
    have := apart_of_removed hm hir hx
    rw [decide_eq_true_eq, decide_eq_true_eq, meets_behind hm hbelow hxm]
    omega
  have hcount := countP_erase_add (fun x => decide (n ≤ x.lo)) hir
  rw [if_neg (by rw [decide_eq_true_eq]; omega)] at hcount
  rw [tbxIslSearch, length_search, tbxIslInsert, countP_insertByLo, hrest,
    if_neg (by rwa [decide_eq_true_eq])]
  exact hcount

/-- With a range across `n`, the ranges behind `n` all go exactly when there are
none of them or when the ones after the first fill a batch. -/
theorem truncateMapping_across (hm : Ordered m) (hbelow : ∀ x ∈ m, x.hi < fileSize)
    (hacross : Across n m) :
    (∃ m', truncateMapping (n - 1) fileSize m = some m' ∧ ∀ x ∈ m', x.hi < n) ↔
      countBehind n m = 0 ∨ 100 < countBehind n m := by
  obtain ⟨ir, hir, hlo, hhi⟩ := hacross
  obtain ⟨it, hs⟩ := search_across hm hir (show ir.lo ≤ n - 1 by omega) (by omega) fileSize
  have hrun := truncateMapping_straddle hs (show ir.lo ≤ n - 1 by omega) rfl
  have hlen := length_search_shortened hm hbelow hir hlo hhi
  have hord := (shorten_spec hm hir (show ir.lo ≤ n - 1 by omega) (by omega)).1
  rw [Int.sub_add_cancel] at hrun
  set m₁ := tbxIslInsert { ir with hi := n - 1 } (tbxIslRemove ir m)
  have hfound : Ordered (tbxIslSearch n fileSize m₁) := hord.search n fileSize
  have hsize : (tbxIslSearch n fileSize m₁).length ≤ m₁.length := length_filter_le _ _
  have hmeets : ∀ x ∈ m₁, Meets n fileSize x ↔ n ≤ x.hi := by
    refine fun x hx => meets_behind hord (fun y hy => ?_) hx
    rcases mem_insertByLo.mp hy with rfl | hy
    · have := hbelow ir hir
      dsimp only
      omega
    · exact hbelow y ((mem_tbxIslRemove hm).mp hy).1
  rw [hrun]
  constructor
  · rintro ⟨m', hrun', hall⟩
    by_contra hcount
    cases hs₁ : tbxIslSearch n fileSize m₁ with
    | nil => simp only [hs₁, length_nil] at hlen; omega
    | cons x rest =>
      obtain ⟨hx, hmeet⟩ := search_head hs₁
      rw [hs₁, length_cons] at hlen hsize
      rw [hs₁] at hfound
      have hnot : x ∉ rest := (nodup_cons.mp hfound.nodup).1
      rw [hs₁, tail_cons, dropLoop_short n fileSize m₁ rest [] (by simp; omega) (by omega),
        nil_append, some.injEq] at hrun'
      have hleft := hall x (hrun' ▸ (mem_dropBatch hord rest).mpr ⟨hx, hnot⟩)
      have := (hmeets x hx).mp hmeet
      omega
  · intro hcount
    have htail := tail_sublist (tbxIslSearch n fileSize m₁)
    have hfuel : m₁.countP (fun x => Meets n fileSize x) ≤ m₁.length := countP_le_length
    obtain ⟨m', hrun', hsub, _, hdrop⟩ := dropLoop_spec n fileSize (m₁.length + 2) hord
      (tbxIslSearch n fileSize m₁).tail [] (hfound.nodup.sublist htail)
      (fun x hx => mem_search.mp (htail.subset hx)) (by rw [length_nil]; omega)
    refine ⟨m', hrun', fun x hx => ?_⟩
    have hgone := hdrop (hcount.imp (fun h y hy hmeet => ?_) (fun h => ?_)) x hx
    · rw [hmeets x (hsub.subset hx)] at hgone
      omega
    · have hmem : y ∈ tbxIslSearch n fileSize m₁ := mem_search.mpr ⟨hy, hmeet⟩
      rw [eq_nil_of_length_eq_zero (hlen.trans h)] at hmem
      exact absurd hmem not_mem_nil
    · rw [nil_append, length_tail, length_nil]
      omega

/-- Once nothing reaches `n`, a truncate has restricted the mapping. -/
theorem lookup_truncateMapping (hm : Ordered m) {m'}
    (hrun : truncateMapping (n - 1) fileSize m = some m') (hbelow : ∀ x ∈ m', x.hi < n) :
    Ordered m' ∧ ∀ o, lookup m' o = if o < n then lookup m o else none := by
  obtain ⟨_, hrun', hord, hsub, hkeep⟩ := truncateMapping_spec hm (n - 1) fileSize
  obtain rfl := some.inj (hrun'.symm.trans hrun)
  refine ⟨hord, fun o => ?_⟩
  split_ifs with ho
  · exact lookup_congr hm hord fun d => ⟨hsub o d, hkeep o d (by omega)⟩
  · rw [lookup_eq_none_iff]
    intro x hx hin
    have := hbelow x hx
    omega

/-- A truncation restricts the mapping exactly when no range lies across the new
size, or none behind it, or more than a batch of them. -/
theorem restrictedTo_iff (s : Seglog) (r : SlogRange) (hm : Ordered s.mapping)
    (hbelow : ∀ x ∈ s.mapping, x.hi < s.fileSize) (hr : r.hi = n - 1) :
    (∃ s', slogTruncateRange s r = some s' ∧ RestrictedTo n s s') ↔
      ¬Across n s.mapping ∨ countBehind n s.mapping = 0 ∨ 100 < countBehind n s.mapping := by
  have hmapping : (∃ s', slogTruncateRange s r = some s' ∧ RestrictedTo n s s') ↔
      ∃ m', truncateMapping (n - 1) s.fileSize s.mapping = some m' ∧ ∀ x ∈ m', x.hi < n := by
    rw [slogTruncateRange, hr]
    constructor
    · rintro ⟨s', hrun, hs'⟩
      obtain ⟨m', hrun', rfl⟩ := map_eq_some_iff.mp hrun
      exact ⟨m', hrun', hs'.below⟩
    · rintro ⟨m', hrun, hall⟩
      obtain ⟨hord, hlook⟩ := lookup_truncateMapping hm hrun hall
      exact ⟨_, by rw [hrun, map_some], hord, hlook, hall, by dsimp only; omega⟩
  rw [hmapping]
  by_cases hacross : Across n s.mapping
  · rw [truncateMapping_across hm hbelow hacross]
    exact ⟨Or.inr, fun h => h.resolve_left (not_not_intro hacross)⟩
  · refine ⟨fun _ => .inl hacross, fun _ => ?_⟩
    obtain ⟨m', hrun, _, hmem⟩ := truncateMapping_drops hm (n - 1) s.fileSize fun x hx hlo => by
      obtain ⟨hxm, hmeet⟩ := mem_search.mp hx
      simp only [meets_def] at hmeet
      exact hacross ⟨x, hxm, by omega, by omega⟩
    refine ⟨m', hrun, fun x hx => ?_⟩
    obtain ⟨hxm, hmeet⟩ := (hmem x).mp hx
    rw [Int.sub_add_cancel, meets_behind hm hbelow hxm] at hmeet
    omega

/-- A log of eight bytes in three ranges, the first across offset two. -/
def threeRanges : Seglog :=
  { slogMake Child.empty ⟨fun _ => 7, 8⟩ with mapping := [⟨0, 3, 0⟩, ⟨4, 5, 10⟩, ⟨6, 7, 20⟩] }

theorem restrictedTo_iff_threeRanges :
    ∃ s', slogTruncateRange threeRanges ⟨-1, 5, -1⟩ = some s' ∧ RestrictedTo 6 threeRanges s' :=
  (restrictedTo_iff threeRanges _ ⟨by decide, by decide⟩ (by decide) (by decide)).mpr
    (.inl (by simp [Across, threeRanges]))

/-- Truncated to two bytes, the log still maps the offsets four and five. -/
theorem truncate_skips_range :
    (slogTruncateRange threeRanges ⟨-1, 1, -1⟩).map (fun s => (s.mapping, s.fileSize)) =
      some ([⟨0, 1, 0⟩, ⟨4, 5, 10⟩], 2) := by
  decide

end LStore.Log
