import LStore.Base.IntervalList
import LStore.Toolbox.IntervalExact
import LStore.Toolbox.IntervalRuns

/-!
# Interval lists of disjoint ranges

The segments keep disjoint ranges in an interval list. On these the interval list of the
toolbox is the ordered list of `IntervalList`: an insertion adds the value, a removal that
keeps the chains takes it out, and an iteration returns what the search of the ordered list
returns, in the same order.
-/

namespace LStore.Toolbox

open IntervalList Spanned List

variable {α : Type*} [Spanned α] {isl : TbxIsl Int α} {m : List α} {a : α}

/-- The interval that a value is stored under. -/
def intervalOf (a : α) : Interval Int α := ⟨lo a, hi a, a⟩

/-- The interval list holds the values of an ordered list. -/
def HoldsRanges (isl : TbxIsl Int α) (m : List α) : Prop :=
  ∃ l chains, Represents isl l chains (m.map intervalOf)

omit [Spanned α] in
theorem Represents.of_perm {l : List (Entry Int)} {chains : List (Labelled Int α)}
    {stored stored' : List (Interval Int α)} (h : Represents isl l chains stored)
    (hperm : stored.Perm stored') : Represents isl l chains stored' where
  chained := h.chained
  listed := h.listed.perm hperm
  perm := h.perm.trans (hperm.filter _)
  used e he := by
    obtain ⟨I, hI, hend⟩ := h.used e he
    exact ⟨I, hperm.mem_iff.mp hI, hend⟩
  count := by rw [h.count, hperm.length_eq]

theorem holdsRanges_new {maxLevels : Nat} (hpos : 0 < maxLevels) :
    HoldsRanges (tbxIslNew maxLevels : TbxIsl Int α) [] :=
  ⟨[], [], represents_new hpos⟩

theorem HoldsRanges.insert (h : HoldsRanges isl m) (ha : lo a ≤ hi a) (flipsHi flipsLo : Nat) :
    HoldsRanges (tbxIslInsert isl (lo a) (hi a) a flipsHi flipsLo) (insertByLo a m) := by
  obtain ⟨l, chains, h⟩ := h
  obtain ⟨l', chains', h'⟩ := h.insert ha a flipsHi flipsLo
  exact ⟨l', chains', h'.of_perm ((insertByLo_perm a m).map intervalOf).symm⟩

theorem HoldsRanges.remove [DecidableEq α] (h : HoldsRanges isl m)
    (hok : RemoveOk isl (m.map intervalOf) (intervalOf a)) :
    (tbxIslRemove isl (lo a) (hi a) a).2 = 0 ∧
      HoldsRanges (tbxIslRemove isl (lo a) (hi a) a).1 (m.erase a) := by
  obtain ⟨l, chains, h⟩ := h
  obtain ⟨hret, l', chains', h'⟩ := h.remove hok
  have hinj : Function.Injective (intervalOf : α → Interval Int α) := fun x y hxy =>
    congrArg Interval.data hxy
  rw [← map_erase hinj] at h'
  exact ⟨hret, l', chains', h'⟩

section

variable (hm : Ordered m)
include hm

/-- Of disjoint ranges only one holds a position. -/
theorem ordered_unique {x y : α} {p : Int} (hx : x ∈ m) (hy : y ∈ m) (hpx : lo x ≤ p ∧ p ≤ hi x)
    (hpy : lo y ≤ p ∧ p ≤ hi y) : x = y := by
  by_contra hne
  have := hm.disjoint hx hy hne
  omega

theorem not_hidden (u : Int) : ¬Hidden (m.map intervalOf) (some u) := by
  rintro ⟨k, -, ⟨I, hI, hlo, hhi⟩, J, hJ, hlo', hlt⟩
  obtain ⟨x, hx, rfl⟩ := mem_map.mp hI
  obtain ⟨y, hy, rfl⟩ := mem_map.mp hJ
  change lo x = k at hlo
  change hi x = k at hhi
  change lo y = k at hlo'
  change k < hi y at hlt
  obtain rfl := ordered_unique hm hx hy (p := k) (by omega) (by omega)
  omega

/-- Values that all hold a position come one at a time. -/
theorem pairwise_of_common {xs : List α} (hnd : xs.Nodup) {p : Int}
    (hxs : ∀ x ∈ xs, x ∈ m ∧ lo x ≤ p ∧ p ≤ hi x) : xs.Pairwise fun x y => lo x < lo y := by
  refine hnd.pairwise_of_forall_ne fun x hx y hy hne => absurd ?_ hne
  exact ordered_unique hm (hxs x hx).1 (hxs y hy).1 (hxs x hx).2 (hxs y hy).2

omit hm in
theorem mem_startsAt {l : List (Entry Int)} (h : Listed isl l (m.map intervalOf)) {e : Entry Int}
    (he : e ∈ l) (ha : a ∈ startsAt isl e) : a ∈ m ∧ lo a = e.key := by
  obtain ⟨I, hI, rfl⟩ := mem_map.mp ((h.lists_perm he).mem_iff.mp ha)
  obtain ⟨hI, hkey⟩ := mem_filter.mp hI
  obtain ⟨x, hx, rfl⟩ := mem_map.mp hI
  exact ⟨hx, of_decide_eq_true hkey⟩

omit hm in
theorem mem_edgeData {es es' : List (Entry Int)} {chains} {l : Int}
    (h : Represents isl (es ++ es') chains (m.map intervalOf))
    (hcut : Cut (cmpLo (some l)) es es')
    (ha : a ∈ edgeData isl (predAt es) (isl.sl.currentMax + 1)) :
    a ∈ m ∧ lo a < l ∧ l ≤ hi a := by
  obtain ⟨I, hI, rfl⟩ := mem_map.mp ((h.over_perm hcut).mem_iff.mp ha)
  obtain ⟨hI, hover⟩ := mem_filter.mp hI
  obtain ⟨x, hx, rfl⟩ := mem_map.mp hI
  exact ⟨hx, by simpa [Over, intervalOf] using hover⟩

omit [Spanned α] hm in
/-- The nodes in front of the upper bound, then the one at it. -/
theorem upTo_sorted {κ : Type*} [LinearOrder κ] {es : List (Entry κ)}
    (h : es.Pairwise fun e f => e.key < f.key) (u : κ) :
    (∀ e ∈ es.filter (fun e => ∀ y ∈ some u, e.key < y) ++ es.filter fun e => some u = some e.key,
      e ∈ es) ∧
    (es.filter (fun e => ∀ y ∈ some u, e.key < y) ++
      es.filter fun e => some u = some e.key).Pairwise fun e f => e.key < f.key := by
  refine ⟨fun e he => (mem_append.mp he).elim mem_of_mem_filter mem_of_mem_filter,
    pairwise_append.mpr ⟨h.filter _, h.filter _, fun e he f hf => ?_⟩⟩
  have hlt : e.key < u := by simpa using (mem_filter.mp he).2
  have heq : u = f.key := by simpa using (mem_filter.mp hf).2
  exact heq ▸ hlt

/-- The nodes list the values in the order of the lower ends. -/
theorem pairwise_startsAt {l es : List (Entry Int)} (h : Listed isl l (m.map intervalOf))
    (hes : ∀ e ∈ es, e ∈ l) (hkeys : es.Pairwise fun e f => e.key < f.key)
    (hnd : (es.flatMap (startsAt isl)).Nodup) :
    (es.flatMap (startsAt isl)).Pairwise fun x y => lo x < lo y := by
  refine pairwise_flatMap.mpr ⟨fun e he => ?_, hkeys.imp_of_mem fun he hf hlt x hx y hy => ?_⟩
  · refine pairwise_of_common hm ((nodup_flatMap.mp hnd).1 e he) (p := e.key) fun x hx => ?_
    obtain ⟨hxm, hlo⟩ := mem_startsAt h (hes e he) hx
    exact ⟨hxm, hlo.le, hlo ▸ hm.nonempty x hxm⟩
  · rw [(mem_startsAt h (hes _ he) hx).2, (mem_startsAt h (hes _ hf) hy).2]
    exact hlt

theorem intersects_data (l u : Int) (hlu : l ≤ u) :
    (((m.map intervalOf).filter fun I => Intersects (some l) (some u) I).map Interval.data) =
      IntervalList.search l u m := by
  rw [filter_map, map_map, IntervalList.search]
  refine (map_id'' (fun _ => rfl) _).trans (filter_congr fun x hx => ?_)
  change decide (Intersects (some l) (some u) (intervalOf x)) = decide (Meets l u x)
  rw [decide_eq_decide, meets_iff (hm.nonempty x hx) hlu]
  simp [Intersects, intervalOf, and_comm]

/-- An iteration returns what the search of the ordered list returns. -/
theorem HoldsRanges.search (h : HoldsRanges isl m) {l u : Int} (hlu : l ≤ u) :
    Drains isl (tbxIslIterSearch isl (some l) (some u)) (IntervalList.search l u m) := by
  obtain ⟨es, chains, h⟩ := h
  obtain ⟨a, b, rfl, hcut⟩ := exists_cut h.chained.wf (some l)
  have hq : ∀ x ∈ some l, ∀ y ∈ some u, x ≤ y := by simpa using hlu
  obtain ⟨res, hres, hdrains, hall, -⟩ := h.query hcut hq
  have hperm : res.Perm (IntervalList.search l u m) :=
    intersects_data hm l u hlu ▸ hall (not_hidden hm u)
  have hnd : res.Nodup := hperm.nodup_iff.mpr (hm.search l u).nodup
  rw [h.nodeData_eq_starts hcut hq (not_hidden hm u), ← flatMap_append] at hres
  rw [hres] at hnd
  obtain ⟨hmem, hkeys⟩ := upTo_sorted (pairwise_append.mp h.chained.wf.sorted).2.1 u
  have hsorted : res.Pairwise fun x y => lo x < lo y := by
    rw [hres]
    obtain ⟨hnd₁, hnd₂, -⟩ := nodup_append.mp hnd
    refine pairwise_append.mpr ⟨?_, ?_, ?_⟩
    · refine pairwise_of_common hm hnd₁ (p := l) fun x hx => ?_
      obtain ⟨hxm, hlt, hle⟩ := mem_edgeData h hcut hx
      exact ⟨hxm, hlt.le, hle⟩
    · exact pairwise_startsAt hm h.listed (fun e he => mem_append_right a (hmem e he)) hkeys hnd₂
    · intro x hx y hy
      obtain ⟨e, he, hy⟩ := mem_flatMap.mp hy
      have habove : ¬e.key < l := fun hlt => hcut.above e (hmem e he) (compare_lt_iff_lt.mpr hlt)
      rw [(mem_startsAt h.listed (mem_append_right a (hmem e he)) hy).2]
      exact (mem_edgeData h hcut hx).2.1.trans_le (not_lt.mp habove)
  have heq : res = IntervalList.search l u m := by
    refine hperm.eq_of_pairwise (fun x y _ _ hxy hyx => absurd hxy (by omega)) hsorted ?_
    refine (hm.search l u).apart.imp_of_mem fun {x y} hx _ hlt => ?_
    exact ((hm.search l u).nonempty x hx).trans_lt hlt
  rwa [heq] at hdrains

end

end LStore.Toolbox
