import LStore.Base.Fuel
import LStore.Base.MachineInt
import LStore.Lun.Decompose
import LStore.Lun.Truncate

/-!
# The sizes of a LUN segment

A LUN segment reports its used size and reserves whole stripes, its total size. A truncate
sets both, a write first reserves what it needs and then raises the used size. The sizes
everything is divided by come from the exnode.

## Implementation notes

Offsets and file sizes are unbounded integers, those of the loop that adds rows included. The
parameters read from an exnode are stored in machine integers, so products of them may wrap.
-/

namespace LStore.Lun

open Base.Fuel IntervalList List MachineInt Option

variable {g : Geometry} {o : Outcome} {s s' : Seglun} {newSize arg : Int} {ok : Bool}

/-- `seglun_size`. -/
def seglunSize (s : Seglun) : Int := s.usedSize

/-- What a grow does: nothing where enough is reserved, no change of the sizes where it fails,
or new sizes and rows. -/
theorem seglunGrow_cases (h : seglunGrow g o s arg = some (s', ok)) :
    (askedSize arg < s.totalSize ∧ arg < 0 ∧ s' = s) ∨
      (ok = false ∧ s'.totalSize = s.totalSize ∧ s'.usedSize = s.usedSize) ∨
      ((arg < 0 → s.totalSize ≤ askedSize arg) ∧
        s'.totalSize = g.roundStripe (askedSize arg) ∧
        s'.usedSize = (if -1 < arg then g.roundStripe (askedSize arg) else s.usedSize) ∧
        ∃ rows lo, growLast g o.padFails s (g.roundStripe (askedSize arg)) = some (rows, lo) ∧
          growRows g o lo (g.roundStripe (askedSize arg)) rows = .ok s'.rows) := by
  change (if arg < 0 ∧ askedSize arg < s.totalSize then some (s, true) else
    (growLast g o.padFails s (g.roundStripe (askedSize arg))).map _) = _ at h
  split at h
  · rename_i hless
    exact .inl ⟨hless.2, hless.1, (Prod.mk.inj (some.inj h)).1.symm⟩
  · rename_i hmore
    obtain ⟨p, hlast, hp⟩ := map_eq_some_iff.mp h
    refine .inr ?_
    split at hp
    · cases hp
      exact .inl ⟨rfl, rfl, rfl⟩
    · rename_i rows hrows
      cases hp
      exact .inr ⟨by omega, rfl, rfl, p.1, p.2, hlast, hrows⟩

/-- A successful grow to more than there is. -/
theorem seglunGrow_success (hle : s.totalSize ≤ askedSize arg)
    (h : seglunGrow g o s arg = some (s', true)) :
    s'.totalSize = g.roundStripe (askedSize arg) ∧
      s'.usedSize = (if -1 < arg then g.roundStripe (askedSize arg) else s.usedSize) ∧
      ∃ rows lo, growLast g o.padFails s (g.roundStripe (askedSize arg)) = some (rows, lo) ∧
        growRows g o lo (g.roundStripe (askedSize arg)) rows = .ok s'.rows := by
  rcases seglunGrow_cases h with hless | hfail | hdone
  · omega
  · exact absurd hfail.1 (by simp)
  · exact hdone.2

theorem seglunShrink_sizes (g : Geometry) (o : Outcome) (s : Seglun) (newSize : Int) :
    (seglunShrink g o s newSize).1.totalSize = g.roundStripe newSize ∧
      (seglunShrink g o s newSize).1.usedSize = newSize := by
  rw [seglunShrink]
  split <;> exact ⟨rfl, rfl⟩

theorem roundStripe_eq_self_iff (h : 0 ≤ newSize) :
    g.roundStripe newSize = newSize ↔ g.stripeSize ∣ newSize := by
  obtain ⟨hdvd, hle, hlt⟩ := roundStripe_spec (g := g) h
  constructor
  · intro heq
    rwa [heq] at hdvd
  · intro hnew
    exact le_antisymm (le_of_dvd_of_lt hdvd hnew hlt) hle

/-- A successful truncate makes the size what it was asked for, and reserves at least the
stripes of it, exactly when it shrinks, or the size is a whole number of stripes and was not
reserved before by more than was used. -/
theorem slunTruncate_size_iff (g : Geometry) (o : Outcome) (s s' : Seglun) (newSize : Int)
    (hnew : 0 ≤ newSize) (h : slunTruncate g o s newSize = some (s', true)) :
    (seglunSize s' = newSize ∧
        (s'.totalSize = g.roundStripe newSize ∨ g.roundStripe newSize < s'.totalSize)) ↔
      newSize < s.totalSize ∨
        g.stripeSize ∣ newSize ∧ (s.totalSize = newSize → s.usedSize = newSize) := by
  have hround := roundStripe_eq_self_iff (g := g) hnew
  have hle := (roundStripe_spec (g := g) hnew).2.1
  rw [slunTruncate, slunTruncateBy, if_neg (by omega)] at h
  split at h
  · -- a shrink sets both sizes, also where removals fail
    rename_i hlt
    have hsizes := seglunShrink_sizes g o s newSize
    rw [some.inj h] at hsizes
    exact iff_of_true ⟨hsizes.2, .inl hsizes.1⟩ (.inl hlt)
  · split_ifs at h with hlt
    · have hasked : askedSize newSize = newSize := if_neg (by omega)
      obtain ⟨htotal, hused, -⟩ := seglunGrow_success (by omega) h
      rw [hasked] at htotal hused
      rw [if_pos (by omega)] at hused
      rw [seglunSize, hused, htotal, hround]
      constructor
      · exact fun hp => .inr ⟨hp.1, fun heq => absurd heq (by omega)⟩
      · rintro (hp | hp)
        · omega
        · exact ⟨hp.1, .inl rfl⟩
    · obtain ⟨rfl, -⟩ := Prod.mk.inj (some.inj h)
      have heq : s.totalSize = newSize := by omega
      rw [seglunSize, heq, ← hround]
      constructor
      · exact fun hp => .inr ⟨by omega, fun _ => hp.1⟩
      · rintro (hp | hp)
        · omega
        · exact ⟨hp.2 rfl, .inl hp.1.symm⟩

/-- Growing an empty segment of two devices to one byte reports a size of two. -/
theorem slunTruncate_size_rounded :
    slunTruncate ⟨2, 1, 1, by decide, by decide, by decide, by decide⟩ Outcome.good
        Seglun.empty 1 = some (⟨[⟨0, 1, 1, 2⟩], 2, 2⟩, true) ∧
      seglunSize ⟨[⟨0, 1, 1, 2⟩], 2, 2⟩ ≠ 1 := by
  decide

theorem slunTruncate_size_shrunk :
    slunTruncate ⟨2, 1, 1, by decide, by decide, by decide, by decide⟩ Outcome.good
        ⟨[⟨0, 1, 1, 2⟩], 2, 2⟩ 1 = some (⟨[⟨0, 1, 1, 2⟩], 2, 1⟩, true) ∧
      seglunSize ⟨[⟨0, 1, 1, 2⟩], 2, 1⟩ = 1 := by
  have h : slunTruncate ⟨2, 1, 1, by decide, by decide, by decide, by decide⟩ Outcome.good
      ⟨[⟨0, 1, 1, 2⟩], 2, 2⟩ 1 = some (⟨[⟨0, 1, 1, 2⟩], 2, 1⟩, true) := by decide
  exact ⟨h, ((slunTruncate_size_iff _ _ _ _ 1 (by decide) h).mpr (.inl (by decide))).1⟩

/-- The largest offset of a write. -/
def maxPos (iov : List ExIovec) : Int :=
  iov.foldl (fun m v => max m (v.offset + v.len - 1)) 0

/-- The growth step of `seglun_rw_func` for a write: the segment and whether it goes on. -/
def growForWrite (g : Geometry) (excess : Nat) (o : Outcome) (s : Seglun) (maxpos : Int) :
    Option (Seglun × Bool) :=
  if s.totalSize ≤ maxpos then
    let newSize := maxpos + g.nDevices * excess
    if s.totalSize < newSize then slunTruncate g o s (-newSize) else some (s, true)
  else some (s, true)

/-- `seglun_rw_func` for a write. The transfers between do not touch the layout. -/
def seglunWrite (g : Geometry) (excess : Nat) (o : Outcome) (s : Seglun) (iov : List ExIovec) :
    Option (Seglun × Bool) :=
  (growForWrite g excess o s (maxPos iov)).map fun p =>
    if p.2 ∧ p.1.usedSize ≤ maxPos iov then ({ p.1 with usedSize := maxPos iov + 1 }, true) else p

/-- A valid segment: rows stacked up to the total size or behind it, which covers what is
used. -/
structure ValidSizes (g : Geometry) (s : Seglun) : Prop where
  stacked : ∃ e, Stacked g 0 s.rows e ∧ s.totalSize ≤ e
  nonneg : 0 ≤ s.totalSize
  used_le : s.usedSize ≤ s.totalSize

theorem maxPos_nonneg (iov : List ExIovec) : 0 ≤ maxPos iov := by
  suffices h : ∀ m : Int, 0 ≤ m → 0 ≤ iov.foldl (fun m v => max m (v.offset + v.len - 1)) m from
    h 0 le_rfl
  induction iov with
  | nil => exact fun _ hm => hm
  | cons v iov ih => exact fun m hm => ih _ (le_trans hm (le_max_left _ _))

/-- The row that holds the byte before `c`. -/
theorem Stacked.row_before {b e c rows} (h : Stacked g b rows e) (hb : b < c) (he : c ≤ e) :
    ∃ pre r post, rows = pre ++ r :: post ∧
      Stacked g b pre r.segOffset ∧ RowOk g r ∧ r.segOffset < c ∧ c ≤ r.segEnd + 1 := by
  obtain ⟨r, hr, hlo, hhi⟩ := h.covers (o := c - 1) (by omega) (by omega)
  obtain ⟨pre, post, rfl⟩ := append_of_mem hr
  obtain ⟨m, hpre, rfl, hrow, -⟩ := h.split
  exact ⟨pre, r, post, rfl, hpre, hrow, by omega, by omega⟩

/-- The rows a grow starts from cover everything before the new ones. -/
theorem growLast_covers (h : ValidSizes g s) (hnew : g.stripeSize ∣ newSize)
    (hle : s.totalSize ≤ newSize) (padFails : Bool) :
    ∃ rows lo, growLast g padFails s newSize = some (rows, lo) ∧ g.stripeSize ∣ lo ∧
      ∀ x, 0 ≤ x → x < lo → ∃ r ∈ rows, r.segOffset ≤ x ∧ x ≤ r.segEnd := by
  obtain ⟨e, hst, he⟩ := h.stacked
  by_cases hpos : 0 < s.totalSize
  · obtain ⟨pre, b, post, hrows, hpre, hb, hlt, hend⟩ := hst.row_before hpos he
    obtain ⟨l, hsearch⟩ := search_last post hpre hlt hend
    rw [← hrows] at hsearch
    have hoff : g.stripeSize ∣ b.segOffset := hpre.dvd ⟨0, rfl⟩
    have hdvd {r : SeglunRow} (hr : RowOk g r) (hsame : r.segOffset = b.segOffset) :
        g.stripeSize ∣ r.segEnd + 1 := by
      have := hr.segEnd
      rw [show r.segEnd + 1 = b.segOffset + r.rowLen by omega]
      exact Int.dvd_add hoff hr.dvd
    by_cases hfull : b.rowLen < g.maxRowSize
    · obtain ⟨hrow, hsame, -⟩ := enlargeRow_spec hb hoff hnew (by omega) padFails
      refine ⟨_, _, by simp only [growLast, hpos, if_true, hsearch, hfull]; rfl, hdvd hrow hsame, ?_⟩
      intro x hx hlo
      simp only [(insertByLo_perm _ _).mem_iff, mem_cons]
      by_cases hxb : x < b.segOffset
      · obtain ⟨r, hr, hcov⟩ := hpre.covers hx hxb
        have hne : r ≠ b := fun heq => by
          have := heq ▸ (hpre.mem hr).2.2
          omega
        have hmem : r ∈ s.rows := hrows ▸ mem_append_left _ hr
        exact ⟨r, .inr ((mem_erase_of_ne hne).mpr hmem), hcov⟩
      · exact ⟨_, .inl rfl, by omega, by omega⟩
    · refine ⟨_, _, by simp only [growLast, hpos, if_true, hsearch, hfull, if_false]; rfl,
        hdvd hb rfl, fun x hx hlo => ?_⟩
      obtain ⟨r, hr, hcov⟩ := (hpre.append (Stacked.single hb)).covers hx hlo
      refine ⟨r, ?_, hcov⟩
      rw [hrows]
      simp only [mem_append, mem_cons, not_mem_nil, or_false] at hr ⊢
      exact hr.imp_right .inl
  · have hzero : s.totalSize = 0 := le_antisymm (by omega) h.nonneg
    refine ⟨s.rows, s.totalSize, by simp only [growLast, hpos, if_false], ?_, by omega⟩
    rw [hzero]
    exact dvd_zero _

/-- The loop that adds rows keeps the ones there. -/
theorem growRows_perm {lo rows rows'} (h : growRows g o lo newSize rows = .ok rows') :
    rows'.Perm (added g lo newSize (newRows g lo newSize) ++ rows) := by
  rw [growRows] at h
  generalize newRows g lo newSize = n at h ⊢
  induction n generalizing rows' with
  | zero =>
    obtain rfl := Except.ok.inj h
    simp [added]
  | succ n ih =>
    rw [range_succ, foldlM_append] at h
    cases hrun : (List.range n).foldlM (fun rows k =>
        if o.alloc k then .ok (insertByLo (newRow g newSize (lo + k * g.maxRowSize)) rows)
        else (.error rows : Except (List SeglunRow) (List SeglunRow))) rows with
    | error r => simp [hrun, bind, Except.bind] at h
    | ok r =>
      rw [hrun] at h
      cases halloc : o.alloc n with
      | false => simp [bind, Except.bind, halloc] at h
      | true =>
        simp only [bind, Except.bind, foldlM_cons, halloc, if_true, foldlM_nil, pure,
          Except.pure, Except.ok.injEq] at h
        rw [← h, added_succ, append_assoc, singleton_append]
        exact ((insertByLo_perm _ _).trans ((ih hrun).cons _)).trans perm_middle.symm

/-- A successful grow of a valid segment covers the size it was asked for. -/
theorem seglunGrow_covers (h : ValidSizes g s) (hle : s.totalSize ≤ askedSize arg)
    (hrun : seglunGrow g o s arg = some (s', true)) :
    ∀ x, 0 ≤ x → x < s'.totalSize → ∃ r ∈ s'.rows, r.segOffset ≤ x ∧ x ≤ r.segEnd := by
  obtain ⟨htotal, -, rows, lo, hlast, hrows⟩ := seglunGrow_success hle hrun
  obtain ⟨hdvd, hround, -⟩ := roundStripe_spec (g := g) (askedSize_nonneg arg)
  obtain ⟨rows', lo', hlast', hlo, hcov⟩ := growLast_covers h hdvd (by omega) o.padFails
  obtain ⟨rfl, rfl⟩ := Prod.mk.inj (some.inj (hlast.symm.trans hlast'))
  intro x hx hxs
  simp only [(growRows_perm hrows).mem_iff, mem_append]
  by_cases hxlo : x < lo
  · obtain ⟨r, hr, hc⟩ := hcov x hx hxlo
    exact ⟨r, .inr hr, hc⟩
  · have hend := le_added_end g lo (g.roundStripe (askedSize arg))
    obtain ⟨r, hr, hc⟩ := (stacked_added hlo hdvd le_rfl).covers (o := x) (by omega)
      (by omega)
    exact ⟨r, .inl hr, hc⟩

/-- A truncate keeps the used size within the total size. -/
theorem slunTruncate_used_le (h : s.usedSize ≤ s.totalSize)
    (hrun : slunTruncate g o s newSize = some (s', ok)) : s'.usedSize ≤ s'.totalSize := by
  have hgrow {arg : Int} (hrun : seglunGrow g o s arg = some (s', ok)) :
      s'.usedSize ≤ s'.totalSize := by
    rcases seglunGrow_cases hrun with ⟨-, -, rfl⟩ | ⟨-, htotal, hused⟩ |
      ⟨hmore, htotal, hused, -⟩
    · exact h
    · omega
    · have := (roundStripe_spec (g := g) (askedSize_nonneg arg)).2.1
      split at hused <;> omega
  rw [slunTruncate, slunTruncateBy] at hrun
  split at hrun
  · exact hgrow hrun
  · split at hrun
    · have hsizes := seglunShrink_sizes g o s newSize
      have := (roundStripe_spec (g := g) (x := newSize) (by omega)).2.1
      simp only [some.inj hrun] at hsizes
      omega
    · split at hrun
      · exact hgrow hrun
      · obtain ⟨rfl, -⟩ := Prod.mk.inj (some.inj hrun)
        exact h

theorem growForWrite_used_le {excess m} (h : s.usedSize ≤ s.totalSize)
    (hrun : growForWrite g excess o s m = some (s', ok)) : s'.usedSize ≤ s'.totalSize := by
  rw [growForWrite] at hrun
  split at hrun
  · simp only at hrun
    split at hrun
    · exact slunTruncate_used_le h hrun
    · rwa [← (Prod.mk.inj (some.inj hrun)).1]
  · rwa [← (Prod.mk.inj (some.inj hrun)).1]

/-- A request to reserve `m` is passed on negated. -/
theorem askedSize_neg {m} (h : 0 < m) : askedSize (-m) = m := by
  rw [askedSize, if_pos (by omega), neg_neg]

/-- A growth that succeeds covers the segment, and reaches the last byte of the write unless
that is the first byte behind the total size or behind a stripe and nothing is added to it. -/
theorem growForWrite_success {excess m} (h : ValidSizes g s) (hm : 0 ≤ m)
    (hrun : growForWrite g excess o s m = some (s', true)) :
    (∀ x, 0 ≤ x → x < s'.totalSize → ∃ r ∈ s'.rows, r.segOffset ≤ x ∧ x ≤ r.segEnd) ∧
      (m < s'.totalSize ↔
        m < s.totalSize ∨ 0 < excess ∨ m ≠ s.totalSize ∧ ¬g.stripeSize ∣ m) := by
  have hnonneg := h.nonneg
  obtain ⟨e, hst, he⟩ := h.stacked
  have hadd : (excess : Int) ≤ g.nDevices * excess :=
    le_mul_of_one_le_left (by omega) (nDevices_pos g)
  rw [growForWrite] at hrun
  split at hrun
  · simp only at hrun
    split_ifs at hrun with hmore
    · have hasked := askedSize_neg (m := m + g.nDevices * excess) (by omega)
      rw [slunTruncate, slunTruncateBy, if_pos (by omega)] at hrun
      refine ⟨seglunGrow_covers h (by omega) hrun, ?_⟩
      obtain ⟨htotal, -⟩ := seglunGrow_success (by omega) hrun
      rw [hasked] at htotal
      obtain ⟨-, hround, -⟩ := roundStripe_spec (g := g) (x := m + g.nDevices * excess) (by omega)
      rw [htotal]
      rcases eq_zero_or_pos excess with rfl | hexcess
      · have hself := roundStripe_eq_self_iff (g := g) hm
        simp only [Int.natCast_zero, Int.mul_zero, add_zero] at hround hmore ⊢
        rw [← hself]
        omega
      · omega
    · obtain ⟨rfl, -⟩ := Prod.mk.inj (some.inj hrun)
      exact ⟨fun x hx hlt => hst.covers hx (by omega), by omega⟩
  · obtain ⟨rfl, -⟩ := Prod.mk.inj (some.inj hrun)
    exact ⟨fun x hx hlt => hst.covers hx (by omega), by omega⟩

/-- With every operation succeeding the growth succeeds. -/
theorem growForWrite_good (excess : Nat) (m : Int) (h : ValidSizes g s) :
    ∃ s', growForWrite g excess Outcome.good s m = some (s', true) := by
  have hnonneg := h.nonneg
  rw [growForWrite]
  split
  · simp only
    split
    · have hasked := askedSize_neg (m := m + g.nDevices * excess) (by omega)
      obtain ⟨hdvd, hround, -⟩ := roundStripe_spec (g := g) (x := m + g.nDevices * excess) (by omega)
      obtain ⟨rows, lo, hlast, -⟩ := growLast_covers h hdvd (by omega) Outcome.good.padFails
      obtain ⟨rows', hrows, -⟩ := growRows_good (g := g) lo
        (g.roundStripe (m + g.nDevices * excess)) rows
      rw [← hasked] at hlast hrows
      rw [slunTruncate, slunTruncateBy, if_pos (by omega), seglunGrow_eq (by omega) hlast, hrows]
      exact ⟨_, rfl⟩
    · exact ⟨s, rfl⟩
  · exact ⟨s, rfl⟩

/-- Before a write the segment is grown to hold it, and every write and truncate keeps the used
size within the total size, exactly when the write needs no growth, or some excess is reserved,
or its last byte is not the first one behind the total size or behind a stripe. -/
theorem growForWrite_covers_iff (g : Geometry) (excess : Nat) (s : Seglun) (h : ValidSizes g s)
    (iov : List ExIovec) :
    ((∀ o s', growForWrite g excess o s (maxPos iov) = some (s', true) →
        maxPos iov < s'.totalSize ∧
          ∀ x, 0 ≤ x → x ≤ maxPos iov → ∃ r ∈ s'.rows, r.segOffset ≤ x ∧ x ≤ r.segEnd) ∧
      (∀ o s' ok, seglunWrite g excess o s iov = some (s', ok) → s'.usedSize ≤ s'.totalSize) ∧
      ∀ o newSize s' ok, slunTruncate g o s newSize = some (s', ok) →
        s'.usedSize ≤ s'.totalSize) ↔
      maxPos iov < s.totalSize ∨ 0 < excess ∨
        maxPos iov ≠ s.totalSize ∧ ¬g.stripeSize ∣ maxPos iov := by
  have hpos := maxPos_nonneg iov
  constructor
  · rintro ⟨hcover, -, -⟩
    obtain ⟨s', hrun⟩ := growForWrite_good excess (maxPos iov) h
    exact (growForWrite_success h hpos hrun).2.mp (hcover _ _ hrun).1
  · intro hcond
    refine ⟨fun o s' hrun => ?_, fun o s' ok hrun => ?_, fun _ _ _ _ => slunTruncate_used_le h.used_le⟩
    · obtain ⟨hcov, hreach⟩ := growForWrite_success h hpos hrun
      have hreach := hreach.mpr hcond
      exact ⟨hreach, fun x hx hle => hcov x hx (by omega)⟩
    · obtain ⟨p, hgrow, hp⟩ := map_eq_some_iff.mp hrun
      have hused := growForWrite_used_le h.used_le hgrow
      split_ifs at hp with hraise
      · rw [← (Prod.mk.inj hp).1]
        have hsucc : growForWrite g excess o s (maxPos iov) = some (p.1, true) := by
          rw [hgrow, ← hraise.1]
        exact (growForWrite_success h hpos hsucc).2.mpr hcond
      · rwa [hp] at hused

/-- One device with stripes of one byte and no excess: a write of the first byte of an empty
segment finds no row, and uses a byte more than there is. -/
theorem seglunWrite_uncovered :
    seglunWrite ⟨1, 1, 1, by decide, by decide, by decide, by decide⟩ 0 Outcome.good Seglun.empty
      [⟨0, 1⟩] = some (⟨[], 0, 1⟩, true) := by
  decide

theorem growForWrite_covers_excess :
    seglunWrite ⟨1, 1, 1, by decide, by decide, by decide, by decide⟩ 1 Outcome.good Seglun.empty
        [⟨0, 1⟩] = some (⟨[⟨0, 0, 1, 1⟩], 1, 1⟩, true) ∧ (1 : Int) ≤ 1 := by
  have hrun : seglunWrite ⟨1, 1, 1, by decide, by decide, by decide, by decide⟩ 1 Outcome.good
      Seglun.empty [⟨0, 1⟩] = some (⟨[⟨0, 0, 1, 1⟩], 1, 1⟩, true) := by decide
  have hvalid : ValidSizes ⟨1, 1, 1, by decide, by decide, by decide, by decide⟩ Seglun.empty :=
    ⟨⟨0, rfl, by decide⟩, by decide, by decide⟩
  have hall := (growForWrite_covers_iff _ 1 _ hvalid [⟨0, 1⟩]).mpr (.inr (.inl one_pos))
  exact ⟨hrun, hall.2.1 _ _ _ hrun⟩

/-- What the exnode text of a LUN segment says of its sizes: the keys it has, the lengths of its
rows, and whether their data blocks are there. -/
structure LunText where
  nDevices : Option Int
  maxBlockSize : Option Int
  excessBlockSize : Option Int
  chunkSize : Option Int
  nShift : Option Int
  rowLens : List Int
  blocksFound : Bool

/-- The sizes of a segment read from an exnode. -/
structure LunParams where
  nDevices : Int
  nShift : Int
  chunkSize : Int
  excessBlockSize : Int
  maxBlockSize : Int
  maxRowSize : Int
  stripeSize : Int

namespace LunText

variable (t : LunText)

def devices : Int := i32 (t.nDevices.getD 2)

def chunk : Int := t.chunkSize.getD (16 * 1024)

def block : Int := t.maxBlockSize.getD (10 * 1024 * 1024)

/-- `seglun_deserialize_text`: `none` where it divides by 0 or fails. -/
def deserialize : Option LunParams :=
  if t.chunk = 0 ∨ t.rowLens ≠ [] ∧ t.devices = 0 ∨ t.blocksFound = false then none
  else
    let maxBlockSize := i64 (t.block.tdiv t.chunk * t.chunk)
    some
      { nDevices := t.devices
        nShift := i32 (t.nShift.getD 1)
        chunkSize := t.chunk
        excessBlockSize := t.excessBlockSize.getD (t.block.tdiv 4)
        maxBlockSize := maxBlockSize
        maxRowSize := i64 (maxBlockSize * t.devices)
        stripeSize := i64 (t.devices * t.chunk) }

end LunText

namespace LunParams

variable (p : LunParams)

/-- What `lun_row_decompose`, `_seglun_grow` and `_seglun_shrink` divide by. -/
def divisors : List Int := [p.stripeSize, p.nDevices, p.chunkSize]

/-- The loop of `_seglun_grow` that adds rows from `lo` on: whether all were made. -/
def rowLoop (alloc : Nat → Bool) (newSize : Int) : Nat → Int × Nat → Except Fault Bool :=
  loop fun s =>
    if s.1 < newSize then
      if alloc s.2 then .ok (.inl (s.1 + p.maxRowSize, s.2 + 1)) else .ok (.inr false)
    else .ok (.inr true)

end LunParams

/-- A row length above 0 brings the loop to its end. -/
theorem rowLoop_settles {p : LunParams} (hp : 0 < p.maxRowSize) (alloc : Nat → Bool) (lo : Int) :
    ∃ all, Settles (fun n => p.rowLoop alloc newSize n (lo, 0)) (.ok all) := by
  have hend : Ends False (fun n => p.rowLoop alloc newSize n (lo, 0)) fun _ => True := by
    refine Ends.loop (I := fun _ => True) wellFounded_lt (μ := fun s => (newSize - s.1).toNat)
      (fun s _ => ?_) trivial
    by_cases hlt : s.1 < newSize
    · cases halloc : alloc s.2 with
      | true =>
        simp only [hlt, if_true]
        exact Ends.ok ⟨trivial, by simp only; omega⟩
      | false =>
        simp only [hlt, if_true, Bool.false_eq_true, if_false]
        exact Ends.ok trivial
    · simp only [hlt, if_false]
      exact Ends.ok trivial
  obtain ⟨all, hall, -⟩ := hend.settles id
  exact ⟨all, hall⟩

/-- Otherwise a loop whose allocations all succeed makes rows without end. -/
theorem rowLoop_running {p : LunParams} (hp : p.maxRowSize ≤ 0) {s : Int × Nat}
    (hs : s.1 < newSize) (n : Nat) : p.rowLoop (fun _ => true) newSize n s = .error .running := by
  induction n generalizing s with
  | zero => rfl
  | succ n ih =>
    rw [LunParams.rowLoop, loop, if_pos hs]
    exact ih (by simp only; omega)

/-- The parameters of an accepted exnode are safe, nothing divides by 0 and every grow ends its
row loop, exactly when there are devices, a stripe has a size, and so has a row. -/
theorem deserialize_safe_iff (t : LunText) (p : LunParams) (h : t.deserialize = some p) :
    ((∀ d ∈ p.divisors, d ≠ 0) ∧ ∀ alloc lo newSize,
        ∃ all, Settles (fun n => p.rowLoop alloc newSize n (lo, 0)) (.ok all)) ↔
      t.devices ≠ 0 ∧ i64 (t.devices * t.chunk) ≠ 0 ∧
        0 < i64 (i64 (t.block.tdiv t.chunk * t.chunk) * t.devices) := by
  rw [LunText.deserialize] at h
  split at h
  · simp at h
  · rename_i hok
    cases h
    simp only [LunParams.divisors, forall_mem_cons, not_mem_nil, false_imp_iff,
      implies_true, and_true]
    constructor
    · rintro ⟨⟨hstripe, hdev, -⟩, hloop⟩
      refine ⟨hdev, hstripe, ?_⟩
      by_contra hrow
      obtain ⟨all, hall⟩ := hloop (fun _ => true) 0 1
      exact not_settles_ok (rowLoop_running (by simpa using hrow) (by simp)) hall
    · rintro ⟨hdev, hstripe, hrow⟩
      exact ⟨⟨hstripe, hdev, fun hc => hok (.inl hc)⟩,
        fun alloc lo newSize => rowLoop_settles hrow alloc lo⟩

/-- A block size below the chunk size is rounded down to 0. -/
theorem deserialize_unsafe :
    ∃ p, LunText.deserialize ⟨some 1, some 1, none, some 2, none, [], true⟩ = some p ∧
      ∀ n, p.rowLoop (fun _ => true) 1 n (0, 0) = .error .running :=
  ⟨_, rfl, rowLoop_running (by decide) (by decide)⟩

theorem deserialize_safe_default :
    ∃ p, LunText.deserialize ⟨none, none, none, none, none, [], true⟩ = some p ∧
      ∀ d ∈ p.divisors, d ≠ 0 :=
  ⟨_, rfl, ((deserialize_safe_iff ⟨none, none, none, none, none, [], true⟩ _ rfl).mpr
    (by decide)).1⟩

end LStore.Lun
