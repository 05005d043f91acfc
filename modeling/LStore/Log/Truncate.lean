import LStore.Log.Read

/-!
# Truncating a log segment

`_slog_truncate_range` drops ranges in batches, searching again after each full
batch. `seglog_truncate_func` writes one record for a shrink or a grow and then
inserts the record's range. Its record fields and the range it inserts follow two
conventions at once: the shrink is decoded although it holds a last offset, the
grow is not decoded although it holds a length, and it starts one byte early.
-/

namespace LStore.Log

open IntervalList List Option

variable {x : SlogRange}

variable {lo hi : Int} {m : Mapping} {ir : SlogRange} {it : List SlogRange}

theorem search_eq_nil (hs : tbxIslSearch lo hi m = []) : ∀ x ∈ m, ¬Meets lo hi x := by
  simpa [tbxIslSearch, search] using hs

theorem dropBatch_cons (ir : SlogRange) (batch : List SlogRange) (m : Mapping) :
    dropBatch (ir :: batch) m = dropBatch batch (tbxIslRemove ir m) := rfl

theorem dropBatch_sublist (batch : List SlogRange) (m : Mapping) :
    (dropBatch batch m).Sublist m := by
  induction batch generalizing m with
  | nil => exact List.Sublist.refl m
  | cons ir batch ih => exact (ih (tbxIslRemove ir m)).trans erase_sublist

theorem mem_dropBatch (hm : Ordered m) (batch : List SlogRange) :
    x ∈ dropBatch batch m ↔ x ∈ m ∧ x ∉ batch := by
  induction batch generalizing m with
  | nil => simp [dropBatch]
  | cons ir batch ih =>
    rw [dropBatch_cons, ih (show Ordered (tbxIslRemove ir m) from hm.erase ir),
      mem_tbxIslRemove hm, mem_cons]
    tauto

/-- Dropping a batch of visited ranges leaves that many fewer to visit. -/
theorem countP_dropBatch (hm : Ordered m) {batch} (hnd : batch.Nodup)
    (hsub : ∀ x ∈ batch, x ∈ m ∧ Meets lo hi x) :
    (dropBatch batch m).countP (fun x => Meets lo hi x) + batch.length =
      m.countP (fun x => Meets lo hi x) := by
  induction batch generalizing m with
  | nil => rfl
  | cons ir batch ih =>
    obtain ⟨hir, hmeet⟩ := hsub ir (by simp)
    obtain ⟨hnot, hnd'⟩ := nodup_cons.mp hnd
    have hrest := ih (hm.erase ir) hnd' (by
      intro x hx
      obtain ⟨hxm, hxmeet⟩ := hsub x (by simp [hx])
      exact ⟨(mem_tbxIslRemove hm).mpr ⟨hxm, fun h => hnot (h ▸ hx)⟩, hxmeet⟩)
    have herase := countP_erase_add (fun x => decide (Meets lo hi x)) hir
    simp only [hmeet, decide_true, if_true] at herase
    rw [dropBatch_cons, length_cons, tbxIslRemove]
    omega

/-- The removal loop ends. It removes visited ranges only, and all of them when
the batch and the iterator hold them all or fill a batch, after which the search
starts over. The fuel is counted down against the visited ranges that are neither
removed nor in the batch. -/
theorem dropLoop_spec (lo hi : Int) (fuel : Nat) (hm : Ordered m) (it batch : List SlogRange)
    (hnd : (batch ++ it).Nodup) (hsub : ∀ x ∈ batch ++ it, x ∈ m ∧ Meets lo hi x)
    (hfuel : m.countP (fun x => Meets lo hi x) < fuel + batch.length) :
    ∃ m', dropLoop lo hi fuel it batch m = some m' ∧ m'.Sublist m ∧
      (∀ x ∈ m, ¬Meets lo hi x → x ∈ m') ∧
      ((∀ x ∈ m, Meets lo hi x → x ∈ batch ++ it) ∨
          (batch.length < 100 ∧ 100 ≤ (batch ++ it).length) →
        ∀ x ∈ m', ¬Meets lo hi x) := by
  induction fuel generalizing m it batch with
  | zero =>
    have := countP_dropBatch hm hnd.of_append_left (fun x hx => hsub x (by simp [hx]))
    omega
  | succ fuel ih =>
    cases it with
    | nil =>
      rw [append_nil] at hsub hnd
      refine ⟨_, rfl, dropBatch_sublist batch m, ?_, ?_⟩
      · intro x hx hout
        exact (mem_dropBatch hm batch).mpr ⟨hx, fun hb => hout (hsub x hb).2⟩
      · rintro (hall | ⟨hlt, hle⟩) x hx hmeet
        · obtain ⟨hxm, hxb⟩ := (mem_dropBatch hm batch).mp hx
          exact hxb (by simpa using hall x hxm hmeet)
        · rw [append_nil] at hle
          omega
    | cons ir it =>
      have happ : batch ++ ir :: it = (batch ++ [ir]) ++ it := by simp
      rw [happ] at hsub hnd ⊢
      have hlen : (batch ++ [ir]).length = batch.length + 1 := by simp
      by_cases hfull : (batch ++ [ir]).length = 100
      · have hb : ∀ x ∈ batch ++ [ir], x ∈ m ∧ Meets lo hi x := fun x hx =>
          hsub x (mem_append_left it hx)
        have hcount := countP_dropBatch hm hnd.of_append_left hb
        have hm' : Ordered (dropBatch (batch ++ [ir]) m) :=
          hm.sublist (dropBatch_sublist _ m)
        obtain ⟨m', hrun, hsubl, hkeep, hdrop⟩ := ih hm'
          (tbxIslSearch lo hi (dropBatch (batch ++ [ir]) m)) []
          (hm'.search lo hi).nodup (fun x hx => mem_search.mp hx)
          (by rw [length_nil]; omega)
        refine ⟨m', ?_, hsubl.trans (dropBatch_sublist _ m), ?_, ?_⟩
        · simp [dropLoop, hfull, hrun]
        · intro x hx hout
          exact hkeep x ((mem_dropBatch hm _).mpr ⟨hx, fun h => hout (hb x h).2⟩) hout
        · intro _ x hx
          exact hdrop (.inl fun y hy hmeet => mem_search.mpr ⟨hy, hmeet⟩) x hx
      · obtain ⟨m', hrun, hsubl, hkeep, hdrop⟩ := ih hm _ _ hnd hsub (by rw [hlen]; omega)
        refine ⟨m', ?_, hsubl, hkeep, fun h => hdrop (h.imp_right fun hlen' => ⟨?_, hlen'.2⟩)⟩
        · simp only [dropLoop, hfull, if_false, hrun]
        · omega

/-- With less than a batch of ranges in hand the loop removes them and stops. -/
theorem dropLoop_short (lo hi : Int) (m : Mapping) {fuel} (it batch : List SlogRange)
    (hlen : (batch ++ it).length < 100) (hfuel : it.length < fuel) :
    dropLoop lo hi fuel it batch m = some (dropBatch (batch ++ it) m) := by
  induction it generalizing fuel batch with
  | nil =>
    obtain ⟨fuel, rfl⟩ := Nat.exists_eq_succ_of_ne_zero (Nat.ne_of_gt hfuel)
    rw [append_nil, dropLoop]
  | cons ir it ih =>
    obtain ⟨fuel, rfl⟩ := Nat.exists_eq_succ_of_ne_zero (Nat.ne_of_gt (Nat.zero_lt_of_lt hfuel))
    have happ : batch ++ ir :: it = (batch ++ [ir]) ++ it := by simp
    rw [happ] at hlen ⊢
    have hfull : ¬(batch ++ [ir]).length = 100 := by
      rw [length_append] at hlen
      omega
    have hrest := ih (batch ++ [ir]) hlen (by simpa using hfuel)
    simp only [dropLoop, hfull, if_false, hrest]

/-- Shortening a range that reaches past `e` keeps the mapping ordered and the
pairs up to `e`. -/
theorem shorten_spec (hm : Ordered m) (hir : ir ∈ m) {e} (hlo : ir.lo ≤ e) (hhi : e ≤ ir.hi) :
    Ordered (tbxIslInsert { ir with hi := e } (tbxIslRemove ir m)) ∧
      ∀ o d, (Maps (tbxIslInsert { ir with hi := e } (tbxIslRemove ir m)) o d → Maps m o d) ∧
        (o ≤ e → Maps m o d →
          Maps (tbxIslInsert { ir with hi := e } (tbxIslRemove ir m)) o d) := by
  constructor
  · refine (hm.erase ir).insert hlo ?_
    intro x hx
    have := apart_of_removed hm hir hx
    simp only [spanned_lo, spanned_hi]
    omega
  · intro o d
    rw [maps_insert]
    constructor
    · rintro (⟨hol, hoe, hd⟩ | ⟨x, hx, h⟩)
      · exact ⟨ir, hir, hol, by dsimp only at hoe; omega, hd⟩
      · exact ⟨x, ((mem_tbxIslRemove hm).mp hx).1, h⟩
    · rintro hoe ⟨x, hx, hol, hoh, hd⟩
      by_cases hxir : x = ir
      · subst hxir
        exact .inl ⟨hol, hoe, hd⟩
      · exact .inr ⟨x, (mem_tbxIslRemove hm).mpr ⟨hx, hxir⟩, hol, hoh, hd⟩

/-- A range across `e` is the first one a search behind `e` finds. -/
theorem search_across (hm : Ordered m) (hx : x ∈ m) {e} (hlo : x.lo ≤ e) (hhi : e < x.hi)
    (fileSize : Int) : ∃ it, tbxIslSearch (e + 1) fileSize m = x :: it := by
  have hmem : x ∈ tbxIslSearch (e + 1) fileSize m :=
    mem_search.mpr ⟨hx, meets_def.mpr (by omega)⟩
  have hord : Ordered (tbxIslSearch (e + 1) fileSize m) := hm.search _ _
  cases hs : tbxIslSearch (e + 1) fileSize m with
  | nil => simp [hs] at hmem
  | cons ir it =>
    rw [hs] at hmem hord
    have hir := (search_head hs).2
    rcases mem_cons.mp hmem with rfl | hxt
    · exact ⟨it, rfl⟩
    · have hbehind : ir.hi < x.lo := (ordered_cons.mp hord).2.1 x hxt
      have hne : ir.lo ≤ ir.hi := (ordered_cons.mp hord).1
      omega

theorem truncateMapping_straddle {newEnd fileSize}
    (hs : tbxIslSearch (newEnd + 1) fileSize m = ir :: it) (hstr : ir.lo ≤ newEnd) {m₁}
    (hm₁ : m₁ = tbxIslInsert { ir with hi := newEnd } (tbxIslRemove ir m)) :
    truncateMapping newEnd fileSize m =
      dropLoop (newEnd + 1) fileSize (m₁.length + 2)
        (tbxIslSearch (newEnd + 1) fileSize m₁).tail [] m₁ := by
  simp [truncateMapping, hs, hstr, hm₁]

/-- When no range lies across the new end, every range behind it that the search
visits is dropped, and nothing else. -/
theorem truncateMapping_drops (hm : Ordered m) (newEnd fileSize : Int)
    (hclear : ∀ x ∈ tbxIslSearch (newEnd + 1) fileSize m, ¬x.lo ≤ newEnd) :
    ∃ m', truncateMapping newEnd fileSize m = some m' ∧ Ordered m' ∧
      ∀ x, x ∈ m' ↔ x ∈ m ∧ ¬Meets (newEnd + 1) fileSize x := by
  cases hs : tbxIslSearch (newEnd + 1) fileSize m with
  | nil =>
    exact ⟨m, by simp [truncateMapping, hs], hm, fun x =>
      ⟨fun hx => ⟨hx, search_eq_nil hs x hx⟩, fun h => h.1⟩⟩
  | cons ir it =>
    have hnd : ([ir] ++ it).Nodup := by
      have := (hm.search (newEnd + 1) fileSize).nodup
      rw [tbxIslSearch] at hs
      rwa [hs] at this
    have hcount : m.countP (fun x => Meets (newEnd + 1) fileSize x) ≤ m.length :=
      countP_le_length
    obtain ⟨m', hrun, hsub, hkeep, hdrop⟩ := dropLoop_spec (newEnd + 1) fileSize
      (m.length + 2) hm _ _ hnd
      (fun x hx => mem_search.mp (show x ∈ tbxIslSearch (newEnd + 1) fileSize m by rwa [hs]))
      (by rw [length_singleton]; omega)
    have hall : ∀ x ∈ m', ¬Meets (newEnd + 1) fileSize x := by
      refine hdrop (.inl fun x hx hmeet => ?_)
      have hxs : x ∈ tbxIslSearch (newEnd + 1) fileSize m := mem_search.mpr ⟨hx, hmeet⟩
      rwa [hs] at hxs
    refine ⟨m', ?_, hm.sublist hsub, ?_⟩
    · have hbehind := hclear ir (by simp [hs])
      simpa [truncateMapping, hs, hbehind] using hrun
    · exact fun x => ⟨fun hx => ⟨hsub.subset hx, hall x hx⟩, fun h => hkeep x h.1 h.2⟩

/-- A truncate keeps the mapping ordered, adds no pair and keeps the pairs up to
the new end. -/
theorem truncateMapping_spec (hm : Ordered m) (newEnd fileSize : Int) :
    ∃ m', truncateMapping newEnd fileSize m = some m' ∧ Ordered m' ∧
      (∀ o d, Maps m' o d → Maps m o d) ∧
      (∀ o d, o ≤ newEnd → Maps m o d → Maps m' o d) := by
  by_cases hclear : ∀ x ∈ tbxIslSearch (newEnd + 1) fileSize m, ¬x.lo ≤ newEnd
  · obtain ⟨m', hrun, hord, hmem⟩ := truncateMapping_drops hm _ _ hclear
    refine ⟨m', hrun, hord, ?_, ?_⟩
    · rintro o d ⟨x, hx, h⟩
      exact ⟨x, ((hmem x).mp hx).1, h⟩
    · rintro o d ho ⟨x, hx, hxo, hox, hd⟩
      refine ⟨x, (hmem x).mpr ⟨hx, fun hmeet => ?_⟩, hxo, hox, hd⟩
      have := hclear x (mem_search.mpr ⟨hx, hmeet⟩)
      omega
  · push Not at hclear
    obtain ⟨ir, hx, hstr⟩ := hclear
    obtain ⟨hir, hmeet⟩ := mem_search.mp hx
    simp only [meets_def] at hmeet
    obtain ⟨it, hs⟩ := search_across hm hir hstr (by omega) fileSize
    obtain ⟨hord, hmaps⟩ := shorten_spec hm hir hstr (by omega)
    set m₁ := tbxIslInsert { ir with hi := newEnd } (tbxIslRemove ir m) with hm₁
    have hcount : m₁.countP (fun x => Meets (newEnd + 1) fileSize x) ≤ m₁.length :=
      countP_le_length
    have htail : ((tbxIslSearch (newEnd + 1) fileSize m₁).tail).Sublist
        (tbxIslSearch (newEnd + 1) fileSize m₁) := tail_sublist _
    obtain ⟨m', hrun, hsub, hkeep, _⟩ := dropLoop_spec (newEnd + 1) fileSize
      (m₁.length + 2) hord (tbxIslSearch (newEnd + 1) fileSize m₁).tail []
      ((hord.search _ _).nodup.sublist htail)
      (fun x hx => mem_search.mp (htail.subset hx)) (by rw [length_nil]; omega)
    refine ⟨m', by rw [truncateMapping_straddle hs hstr hm₁, hrun], hord.sublist hsub, ?_, ?_⟩
    · rintro o d ⟨y, hy, h⟩
      exact (hmaps o d).1 ⟨y, hsub.subset hy, h⟩
    · intro o d ho h
      obtain ⟨y, hy, hyo, hoy, hd⟩ := (hmaps o d).2 ho h
      refine ⟨y, hkeep y hy (fun hout => ?_), hyo, hoy, hd⟩
      simp only [meets_def] at hout
      rcases mem_insertByLo.mp hy with rfl | hyr
      · dsimp only at hout
        omega
      · have := apart_of_removed hm hir hyr
        omega

variable {s s' : Seglog} {newSize : Int}

/-- The size a truncate leaves behind. A shrink is decoded as if it held a
length; a grow of an empty file writes `lo = -1` and is taken for a truncate; any
other grow ends at `newSize - fileSize`. -/
theorem seglogSize_truncate (h : seglogTruncateFunc s newSize = some s') :
    seglogSize s' =
      if newSize < s.fileSize then newSize - 2
      else if s.fileSize < newSize then
        if s.fileSize = 0 then newSize + 1
        else max s.fileSize (newSize - s.fileSize + 1)
      else s.fileSize := by
  unfold seglogTruncateFunc at h
  unfold seglogSize
  split_ifs at h ⊢ with hshrink hgrow hzero
  · simp only [slogInsertRange, slogTruncateRange, if_true, map_eq_some_iff] at h
    obtain ⟨m, _, rfl⟩ := h
    dsimp only
    omega
  · simp only [slogInsertRange, slogTruncateRange, hzero, Int.zero_sub, if_true,
      map_eq_some_iff] at h
    obtain ⟨m, _, rfl⟩ := h
    dsimp only
    omega
  · have hlo : ¬s.fileSize - 1 = -1 := by omega
    simp only [slogInsertRange, hlo, if_false, map_eq_some_iff] at h
    obtain ⟨m, _, rfl⟩ := h
    dsimp only
    split_ifs <;> omega
  · cases h
    rfl

theorem clearRange_clears {fuel r m m'} (h : clearRange fuel r m = some m') :
    ∀ x ∈ m', ¬Meets r.lo r.hi x := by
  induction fuel generalizing m with
  | zero => simp [clearRange] at h
  | succ fuel ih =>
    rw [clearRange] at h
    cases hs : tbxIslSearch r.lo r.hi m with
    | nil =>
      simp only [hs, some.injEq] at h
      exact h ▸ search_eq_nil hs
    | cons ir rest =>
      simp only [hs] at h
      exact ih h

/-- In any mapping, an insertion leaves one range that the search for the last
offset of `r` finds. It ends with `r`, and it takes that offset to the data of
`r` or to a later place. -/
theorem search_insertMapping_last {r m m'} (hr : r.lo ≤ r.hi) (h : insertMapping r m = some m') :
    ∃ x, tbxIslSearch r.hi r.hi m' = [x] ∧ x.lo ≤ r.lo ∧ x.hi = r.hi ∧
      r.dataOffset + (r.hi - r.lo) ≤ x.dataOffset + (r.hi - x.lo) := by
  obtain ⟨m₁, hclear, rfl⟩ := map_eq_some_iff.mp h
  have hnone := clearRange_clears hclear
  simp only [meets_def] at hnone
  have hpart : (combinePrevious r m₁).1.lo ≤ r.lo ∧ (combinePrevious r m₁).1.hi = r.hi ∧
      r.dataOffset + (r.hi - r.lo) ≤
        (combinePrevious r m₁).1.dataOffset + (r.hi - (combinePrevious r m₁).1.lo) ∧
      ∀ x ∈ (combinePrevious r m₁).2, x ∈ m₁ := by
    unfold combinePrevious
    cases hs : tbxIslSearch (r.lo - 1) r.hi m₁ with
    | nil => exact ⟨by simp, by simp, by simp, by simp⟩
    | cons ir rest =>
      dsimp only
      split_ifs with hjoin
      · obtain ⟨hir, hmeet⟩ := search_head hs
        have := hnone ir hir
        dsimp only
        exact ⟨by omega, rfl, by omega, fun x hx => mem_of_mem_erase hx⟩
      · exact ⟨by simp, by simp, by simp, by simp⟩
  obtain ⟨hlo, hhi, hdata, hmem⟩ := hpart
  refine ⟨(combinePrevious r m₁).1, ?_, hlo, hhi, hdata⟩
  rw [← perm_singleton]
  refine ((insertByLo_perm _ _).filter _).trans ?_
  have hself : Meets r.hi r.hi (combinePrevious r m₁).1 := meets_def.mpr (by omega)
  have hrest : (combinePrevious r m₁).2.filter (fun a => Meets r.hi r.hi a) = [] := by
    rw [filter_eq_nil_iff]
    intro x hx
    have := hnone x (hmem x hx)
    rw [decide_eq_true_eq]
    simp only [meets_def]
    omega
  rw [filter_cons_of_pos (by simpa using hself), hrest]

/-- What a truncate to `newSize` is for: the new size, the old bytes below both
sizes, and the bytes between them read from the data extent it reserved. -/
structure Truncated (s : Seglog) (newSize : Int) (s' : Seglog) : Prop where
  size : seglogSize s' = newSize
  kept : ∀ o : Nat, (o : Int) < min s.fileSize newSize → readByte s' o = readByte s o
  filled : ∀ o : Nat, s.fileSize ≤ o → (o : Int) < newSize →
    ∃ k, readTasks s'.mapping 0 [⟨o, 1⟩] = [⟨.data, k, 1, 0⟩] ∧
      s.dataSize ≤ k ∧ k < s.dataSize + (newSize - s.fileSize)

/-- The task of a one-byte read that finds one range, across its offset. -/
theorem readTasks_single {m} {o : Nat} (hs : tbxIslSearch o o m = [x]) (hlo : x.lo < o)
    (hhi : x.hi = o) : readTasks m 0 [⟨o, 1⟩] = [⟨.data, x.dataOffset + (o - x.lo), 1, 0⟩] := by
  have hprev : ¬(o : Int) = -1 := by omega
  have hgap : ¬(o : Int) < x.lo := by omega
  simp [readTasks, readEntry, hs, readRange, readLogged, readHole, firstPrevEnd, readRest,
    ReadCursor.push, hgap, hlo, hhi, hprev]

/-- A grow of a file of one byte reads its last byte from behind the data extent
it reserved. -/
theorem grow_one_not_filled (h : seglogTruncateFunc s newSize = some s') (hone : s.fileSize = 1)
    (hgrow : 1 < newSize) : ¬Truncated s newSize s' := by
  intro hok
  obtain ⟨n, rfl⟩ : ∃ n : Nat, newSize = (n : Int) + 1 := ⟨(newSize - 1).toNat, by omega⟩
  obtain ⟨k, htask, _, hlt⟩ := hok.filled n (by omega) (by omega)
  have hshrink : ¬(n : Int) + 1 < s.fileSize := by omega
  have hgrow' : s.fileSize < (n : Int) + 1 := by omega
  have hlo : ¬s.fileSize - 1 = -1 := by omega
  simp only [seglogTruncateFunc, hshrink, hgrow', if_false, if_true, slogInsertRange, hlo,
    map_eq_some_iff] at h
  obtain ⟨m, hm, rfl⟩ := h
  obtain ⟨x, hs, hxlo, hxhi, hdata⟩ := search_insertMapping_last (by dsimp only; omega) hm
  dsimp only at hs hxlo hxhi hdata htask
  have hlast : (n : Int) + 1 - s.fileSize = n := by omega
  rw [hlast] at hs hxhi hdata
  rw [readTasks_single hs (by omega) hxhi] at htask
  simp only [List.cons.injEq, ReadOp.mk.injEq, and_true, true_and] at htask
  omega

/-- A completed truncate does what it is for exactly when there is nothing to do. -/
theorem truncated_iff (hnew : 0 ≤ newSize) (h : seglogTruncateFunc s newSize = some s') :
    Truncated s newSize s' ↔ newSize = s.fileSize := by
  constructor
  · intro hok
    by_contra hne
    have hsize := seglogSize_truncate h
    rw [hok.size] at hsize
    split_ifs at hsize with hshrink hgrow hzero
    · omega
    · omega
    · have hone : s.fileSize = 1 := by omega
      exact grow_one_not_filled h hone (by omega) hok
    · omega
  · rintro rfl
    simp only [seglogTruncateFunc, Int.lt_irrefl, if_false, some.injEq] at h
    subst h
    exact ⟨rfl, fun _ _ => rfl, fun o hle hlt => by omega⟩

/-- The hypotheses are met by a grow of a fresh log over one byte. -/
theorem truncated_iff_grow :
    ∃ s', seglogTruncateFunc (slogMake Child.empty { bytes := fun _ => 7, size := 1 }) 3 = some s' ∧
      (Truncated (slogMake Child.empty { bytes := fun _ => 7, size := 1 }) 3 s' ↔ (3 : Int) = 1) :=
  ⟨_, rfl, truncated_iff (by decide) rfl⟩

/-- A shrink of a fresh log over four bytes to three leaves a file of one byte. -/
theorem truncate_shrinks_too_far :
    (seglogTruncateFunc (slogMake Child.empty { bytes := fun _ => 7, size := 4 }) 3).map seglogSize =
      some 1 := by
  decide

end LStore.Log
