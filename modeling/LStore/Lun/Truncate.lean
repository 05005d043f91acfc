import LStore.Lun.Layout

/-!
# What truncate calls keep of the layout

Between calls the rows stack up from offset 0, the last row holds the last byte,
and it may reach past the total size only when it is of full length. A shrink
keeps this, and so does a grow that succeeds or fails at its first new row. A grow
that fails later leaves rows behind the total size; the layout is still correct,
but the next grow starts from the old total size and lays rows over them.
-/

namespace LStore.Lun

open IntervalList List Option

variable {g : Geometry}

theorem Geometry.devices_mul_chunk (g : Geometry) (q : Int) :
    g.chunkSize * q * g.nDevices = g.stripeSize * q := by
  rw [stripeSize]
  ring

/-- The list ends with a row of full length. -/
def EndsFull (g : Geometry) (rows : List SeglunRow) : Prop :=
  ∃ init last, rows = init ++ [last] ∧ last.rowLen = g.maxRowSize

/-- What holds between calls. -/
structure LayoutInv (g : Geometry) (s : Seglun) (e : Int) : Prop where
  stacked : Stacked g 0 s.rows e
  reach : s.totalSize ≤ e
  full : e = s.totalSize ∨ EndsFull g s.rows
  dvd : g.stripeSize ∣ s.totalSize
  nonneg : 0 ≤ s.totalSize
  starts : ∀ r ∈ s.rows, r.segOffset < s.totalSize

theorem layoutInv_empty (g : Geometry) : LayoutInv g Seglun.empty 0 where
  stacked := rfl
  reach := le_rfl
  full := .inl rfl
  dvd := ⟨0, rfl⟩
  nonneg := le_rfl
  starts := by simp [Seglun.empty]

theorem LayoutInv.layoutOk {s e} (h : LayoutInv g s e) : LayoutOk g s :=
  h.stacked.layoutOk h.reach

/-- Multiples of the stripe size less than a stripe apart are in order. -/
theorem le_of_dvd_of_lt {a b} (ha : g.stripeSize ∣ a) (hb : g.stripeSize ∣ b)
    (h : a < b + g.stripeSize) : a ≤ b := by
  obtain ⟨x, rfl⟩ := ha
  obtain ⟨y, rfl⟩ := hb
  have hlt : x < y + 1 := by
    refine lt_of_mul_lt_mul_left ?_ (le_of_lt (stripeSize_pos g))
    rwa [mul_add, mul_one]
  exact mul_le_mul_of_nonneg_left (by omega) (le_of_lt (stripeSize_pos g))

variable {s : Seglun} {e newSize : Int}

/-- A stack that reaches a positive offset has a last row. -/
theorem Stacked.last {rows : List SeglunRow} (h : Stacked g 0 rows e) (hpos : 0 < e) :
    ∃ init b, rows = init ++ [b] ∧ Stacked g 0 init b.segOffset ∧ RowOk g b ∧ e = b.segEnd + 1 := by
  rcases eq_nil_or_concat rows with rfl | ⟨init, b, hb⟩
  · exact absurd h (by simp only [Stacked]; omega)
  · rw [concat_eq_append] at hb
    subst hb
    obtain ⟨c, hinit, hoff, hok, hend⟩ := h.split
    exact ⟨init, b, rfl, hoff ▸ hinit, hok, hend.symm⟩

theorem Stacked.eq_nil {rows : List SeglunRow} {t} (h : Stacked g 0 rows e)
    (hstarts : ∀ r ∈ rows, r.segOffset < t) (ht : t ≤ 0) : rows = [] := by
  rw [eq_nil_iff_forall_not_mem]
  intro r hr
  have := hstarts r hr
  have := (h.mem hr).2.1
  omega

/-- Below a positive total size there is a last row, and it holds the last byte. -/
theorem LayoutInv.last (h : LayoutInv g s e) (hpos : 0 < s.totalSize) :
    ∃ init b, s.rows = init ++ [b] ∧ Stacked g 0 init b.segOffset ∧ RowOk g b ∧
      b.segOffset < s.totalSize ∧ e = b.segEnd + 1 := by
  have hreach := h.reach
  obtain ⟨init, b, hb, hinit, hok, hend⟩ := h.stacked.last (by omega)
  exact ⟨init, b, hb, hinit, hok, h.starts b (by simp [hb]), hend⟩

/-- The search for the last byte starts with the row that holds it, also when rows
follow. -/
theorem search_last {init} (rest : List SeglunRow) {b total}
    (hinit : Stacked g 0 init b.segOffset) (hlo : b.segOffset < total)
    (hhi : total ≤ b.segEnd + 1) : ∃ l, search (total - 1) total (init ++ b :: rest) = b :: l := by
  have hmeet : Meets (total - 1) total b := by
    simp only [Meets, spanned_lo, spanned_hi]
    omega
  refine ⟨search (total - 1) total rest, ?_⟩
  rw [hinit.search_skip (by omega), search, filter_cons_of_pos (by simpa using hmeet), search]

theorem growLast_found {b l} (hpos : 0 < s.totalSize)
    (hsearch : search (s.totalSize - 1) s.totalSize s.rows = b :: l) (padFails : Bool) :
    growLast g padFails s newSize =
      if b.rowLen < g.maxRowSize then
        some (insertByLo (enlargeRow g padFails b newSize) (s.rows.erase b),
          (enlargeRow g padFails b newSize).segEnd + 1)
      else some (s.rows, b.segEnd + 1) := by
  simp [growLast, hpos, hsearch]

/-- The enlarged row ends at the new size or is full; with failed padding it is
the old row. -/
theorem enlargeRow_spec {b} (hb : RowOk g b) (hoff : g.stripeSize ∣ b.segOffset)
    (hnew : g.stripeSize ∣ newSize) (hlt : b.segOffset < newSize) (padFails : Bool) :
    RowOk g (enlargeRow g padFails b newSize) ∧
      (enlargeRow g padFails b newSize).segOffset = b.segOffset ∧
      (enlargeRow g padFails b newSize).segEnd + 1 =
        if padFails then b.segEnd + 1 else min (b.segOffset + g.maxRowSize) newSize := by
  cases padFails with
  | true =>
    have hsame : enlargeRow g true b newSize = b := by
      obtain ⟨off, fin, block, row⟩ := b
      have h₁ := hb.rowLen
      have h₂ := hb.segEnd
      dsimp only at h₁ h₂
      subst h₁ h₂
      rfl
    rw [hsame]
    exact ⟨hb, rfl, rfl⟩
  | false =>
    obtain ⟨q, hq⟩ := Int.dvd_sub hnew hoff
    have hd : (newSize - b.segOffset).tdiv g.nDevices = g.chunkSize * q := by
      rw [hq, tdiv_nDevices]
    have hm : (g.chunkSize * q : Int).tmod g.chunkSize = 0 := Int.mul_tmod_right _ _
    have hpos : 0 < g.stripeSize * q := by omega
    by_cases hcap : (g.maxBlockSize : Int) < g.chunkSize * q
    · -- the block is capped, so the row is full and ends before the new size
      obtain ⟨c, hc⟩ := g.chunk_dvd
      have hrow : enlargeRow g false b newSize =
          ⟨b.segOffset, b.segOffset + g.maxRowSize - 1, g.maxBlockSize, g.maxRowSize⟩ := by
        simp [enlargeRow, hd, hm, hcap, Geometry.maxRowSize]
      have hmax : g.stripeSize * (c : Int) = g.maxRowSize := by
        simp only [Geometry.stripeSize, Geometry.maxRowSize, hc]
        push_cast
        ring
      have hle : g.maxRowSize ≤ g.stripeSize * q := by
        rw [Geometry.maxRowSize, Geometry.stripeSize, mul_comm, mul_assoc]
        exact mul_le_mul_of_nonneg_left (by omega) (le_of_lt (nDevices_pos g))
      have hmaxpos := maxRowSize_pos g
      rw [hrow]
      refine ⟨rowOk_of_size (q := c) (by rw [hmax]; exact hmaxpos)
        (by rw [hmax]) (by dsimp only; rw [hc]; push_cast; rfl) rfl rfl, rfl, ?_⟩
      simp only [Bool.false_eq_true, if_false]
      omega
    · have hrow : enlargeRow g false b newSize =
          ⟨b.segOffset, b.segOffset + g.chunkSize * q * g.nDevices - 1, g.chunkSize * q,
            g.chunkSize * q * g.nDevices⟩ := by
        simp [enlargeRow, hd, hm, hcap]
      have hlen := g.devices_mul_chunk q
      have hle : g.stripeSize * q ≤ g.maxRowSize := by
        rw [← hlen, Geometry.maxRowSize]
        exact mul_le_mul_of_nonneg_right (by omega) (le_of_lt (nDevices_pos g))
      rw [hrow]
      refine ⟨rowOk_of_size hpos hle rfl rfl rfl, rfl, ?_⟩
      simp only [Bool.false_eq_true, if_false]
      omega

/-- After the last row is dealt with, the rows stack up to where the new rows
start. -/
theorem growLast_spec (h : LayoutInv g s e) (hnew : g.stripeSize ∣ newSize)
    (hle : s.totalSize ≤ newSize) (padFails : Bool) :
    ∃ rows lo, growLast g padFails s newSize = some (rows, lo) ∧ Stacked g 0 rows lo ∧
      s.totalSize ≤ lo ∧ (∀ r ∈ rows, r.segOffset < s.totalSize) ∧
      (lo = s.totalSize ∨ lo = newSize ∨ EndsFull g rows) := by
  by_cases hpos : 0 < s.totalSize
  · obtain ⟨init, b, hrows, hinit, hb, hlt, he⟩ := h.last hpos
    have hreach := h.reach
    obtain ⟨l, hsearch⟩ := search_last [] hinit hlt (by omega)
    rw [← hrows] at hsearch
    by_cases hfull : b.rowLen < g.maxRowSize
    · have hend : e = s.totalSize := by
        rcases h.full with heq | ⟨init', last, hrows', hlast⟩
        · exact heq
        · have hbl : b = last := by
            have := hrows.symm.trans hrows'
            exact (append_inj_right' this rfl |> singleton_inj.mp)
          subst hbl
          omega
      have hoff : g.stripeSize ∣ b.segOffset := hinit.dvd ⟨0, rfl⟩
      obtain ⟨hrow, hsame, hrowend⟩ := enlargeRow_spec hb hoff hnew (by omega) padFails
      refine ⟨init ++ [enlargeRow g padFails b newSize],
        (enlargeRow g padFails b newSize).segEnd + 1, ?_, ?_, ?_, ?_, ?_⟩
      · rw [growLast_found hpos hsearch, if_pos hfull, hrows, hinit.erase_end le_rfl,
          hinit.insertByLo_end hsame.ge]
      · exact (hsame ▸ hinit).append (Stacked.single hrow)
      · have := hb.segEnd
        rw [hrowend]
        split_ifs <;> omega
      · intro r hr
        rcases mem_append.mp hr with hr | hr
        · exact h.starts r (by simp [hrows, hr])
        · rw [mem_singleton] at hr
          rw [hr, hsame]
          exact hlt
      · rw [hrowend]
        cases padFails with
        | true => exact .inl (by simp only [if_true]; omega)
        | false =>
          by_cases hcap : b.segOffset + g.maxRowSize ≤ newSize
          · refine .inr (.inr ⟨init, _, rfl, ?_⟩)
            have := hrow.segEnd
            simp only [Bool.false_eq_true, if_false] at hrowend
            omega
          · refine .inr (.inl ?_)
            simp only [Bool.false_eq_true, if_false]
            omega
    · refine ⟨s.rows, b.segEnd + 1, ?_, he ▸ h.stacked, by omega, h.starts, ?_⟩
      · rw [growLast_found hpos hsearch, if_neg hfull]
      · exact .inr (.inr ⟨init, b, hrows, by have := hb.le; omega⟩)
  · have hzero : s.totalSize = 0 := by
      have := h.nonneg
      omega
    have hnil : s.rows = [] := h.stacked.eq_nil h.starts (le_of_eq hzero)
    refine ⟨[], s.totalSize, ?_, hzero.symm, le_rfl, by simp, .inl rfl⟩
    simp [growLast, hpos, hnil]

variable {o : Outcome} {lo : Int} {rows : List SeglunRow}

/-- The first `k` new rows. -/
def added (g : Geometry) (lo newSize : Int) (k : Nat) : List SeglunRow :=
  (List.range k).map fun (j : Nat) => newRow g newSize (lo + j * g.maxRowSize)

/-- The new row whose allocation fails first. -/
def firstFailure (o : Outcome) (n : Nat) : Option Nat :=
  (List.range n).find? fun k => !o.alloc k

theorem added_succ (lo newSize : Int) (k : Nat) :
    added g lo newSize (k + 1) =
      added g lo newSize k ++ [newRow g newSize (lo + k * g.maxRowSize)] := by
  simp [added, range_succ]

/-- The loop condition: the `k`-th new row is made exactly when it starts below the
new size. -/
theorem lt_newRows_iff (g : Geometry) (lo newSize : Int) (k : Nat) :
    k < newRows g lo newSize ↔ lo + k * g.maxRowSize < newSize := by
  have hpos := maxRowSize_pos g
  have hle : (k : Int) + 1 ≤ (newSize - lo + g.maxRowSize - 1) / g.maxRowSize ↔
      ((k : Int) + 1) * g.maxRowSize ≤ newSize - lo + g.maxRowSize - 1 :=
    Int.le_ediv_iff_mul_le hpos
  rw [add_mul, one_mul] at hle
  rw [newRows]
  omega

theorem newRow_spec (hlo : g.stripeSize ∣ lo) (hnew : g.stripeSize ∣ newSize) {k}
    (hk : k < newRows g lo newSize) :
    RowOk g (newRow g newSize (lo + k * g.maxRowSize)) ∧
      (newRow g newSize (lo + k * g.maxRowSize)).segOffset = lo + k * g.maxRowSize ∧
      (newRow g newSize (lo + k * g.maxRowSize)).segEnd + 1 =
        min (lo + ((k + 1 : Nat) : Int) * g.maxRowSize) newSize := by
  have hlt := (lt_newRows_iff _ _ _ _).mp hk
  have hmax := stripeSize_dvd_maxRowSize g
  have hoff : g.stripeSize ∣ lo + k * g.maxRowSize := Int.dvd_add hlo (Int.dvd_mul_of_dvd_right hmax)
  have hsize : g.stripeSize ∣ (if newSize < lo + k * g.maxRowSize + g.maxRowSize
      then newSize - (lo + k * g.maxRowSize) else g.maxRowSize) := by
    split_ifs
    · exact Int.dvd_sub hnew hoff
    · exact hmax
  obtain ⟨q, hq⟩ := hsize
  have hrow : newRow g newSize (lo + k * g.maxRowSize) =
      ⟨lo + k * g.maxRowSize, lo + k * g.maxRowSize + g.chunkSize * q * g.nDevices - 1,
        g.chunkSize * q, g.chunkSize * q * g.nDevices⟩ := by
    simp [newRow, hq, tdiv_nDevices]
  have hlen := g.devices_mul_chunk q
  have hmaxpos := maxRowSize_pos g
  have hcast : lo + ((k + 1 : Nat) : Int) * g.maxRowSize =
      lo + k * g.maxRowSize + g.maxRowSize := by
    push_cast
    ring
  have hval : 0 < g.stripeSize * q ∧ g.stripeSize * q ≤ g.maxRowSize ∧
      lo + k * g.maxRowSize + g.stripeSize * q =
        min (lo + k * g.maxRowSize + g.maxRowSize) newSize := by
    rw [← hq]
    split_ifs <;> omega
  rw [hrow]
  refine ⟨rowOk_of_size hval.1 hval.2.1 rfl rfl rfl, rfl, ?_⟩
  dsimp only
  omega

/-- The new rows stack up from `lo`. -/
theorem stacked_added (hlo : g.stripeSize ∣ lo) (hnew : g.stripeSize ∣ newSize) {k}
    (hk : k ≤ newRows g lo newSize) :
    Stacked g lo (added g lo newSize k)
      (if k = 0 then lo else min (lo + k * g.maxRowSize) newSize) := by
  induction k with
  | zero => exact rfl
  | succ k ih =>
    obtain ⟨hrow, hoff, hend⟩ := newRow_spec hlo hnew (show k < newRows g lo newSize by omega)
    have hlt := (lt_newRows_iff _ _ _ _).mp (show k < newRows g lo newSize by omega)
    have hbefore : (if k = 0 then lo else min (lo + k * g.maxRowSize) newSize) =
        lo + k * g.maxRowSize := by
      split_ifs with hzero
      · subst hzero
        simp
      · omega
    have hst := ih (by omega)
    rw [hbefore] at hst
    rw [added_succ, if_neg (by omega), ← hend]
    exact hst.append (hoff ▸ Stacked.single hrow)

/-- The loop over stacked rows stops at the first failed allocation with the rows
before it, or adds them all. -/
theorem growRows_spec (hrows : Stacked g 0 rows lo) (hlo : g.stripeSize ∣ lo)
    (hnew : g.stripeSize ∣ newSize) :
    growRows g o lo newSize rows =
      match firstFailure o (newRows g lo newSize) with
      | none => .ok (rows ++ added g lo newSize (newRows g lo newSize))
      | some k => .error (rows ++ added g lo newSize k) := by
  suffices h : ∀ n ≤ newRows g lo newSize,
      (List.range n).foldlM (fun rows k =>
          if o.alloc k then .ok (insertByLo (newRow g newSize (lo + k * g.maxRowSize)) rows)
          else .error rows) rows =
        match firstFailure o n with
        | none => (.ok (rows ++ added g lo newSize n) : Except (List SeglunRow) (List SeglunRow))
        | some k => .error (rows ++ added g lo newSize k) from h _ le_rfl
  intro n hn
  induction n with
  | zero => simp [firstFailure, added, pure, Except.pure]
  | succ n ih =>
    have hfail : firstFailure o (n + 1) =
        (firstFailure o n).or (if o.alloc n then none else some n) := by
      simp only [firstFailure, range_succ, List.find?_append, List.find?_singleton]
      cases o.alloc n <;> rfl
    rw [range_succ, foldlM_append, ih (by omega), hfail]
    cases firstFailure o n with
    | some k => rfl
    | none =>
      have hins : insertByLo (newRow g newSize (lo + n * g.maxRowSize))
          (rows ++ added g lo newSize n) = rows ++ added g lo newSize (n + 1) := by
        rw [added_succ, ← append_assoc]
        have hst := hrows.append (stacked_added hlo hnew (show n ≤ newRows g lo newSize by omega))
        refine hst.insertByLo_end (r := newRow g newSize (lo + n * g.maxRowSize)) ?_
        show _ ≤ lo + n * g.maxRowSize
        split_ifs with hzero
        · simp [hzero]
        · omega
      cases halloc : o.alloc n with
      | true => simp [bind, Except.bind, pure, Except.pure, halloc, hins]
      | false => simp [bind, Except.bind, halloc]

/-- The new rows reach the new size. -/
theorem le_added_end (g : Geometry) (lo newSize : Int) :
    newSize ≤ if newRows g lo newSize = 0 then lo
      else min (lo + newRows g lo newSize * g.maxRowSize) newSize := by
  have hcount := lt_newRows_iff g lo newSize (newRows g lo newSize)
  have hfirst := lt_newRows_iff g lo newSize 0
  split_ifs <;> omega

variable {arg : Int}

/-- The size a grow is asked for. -/
def askedSize (arg : Int) : Int := if arg < 0 then -arg else arg

/-- The new rows a grow tries to make. -/
def growNeeds (g : Geometry) (o : Outcome) (s : Seglun) (arg : Int) : Nat :=
  match growLast g o.padFails s (g.roundStripe (askedSize arg)) with
  | none => 0
  | some p => newRows g p.2 (g.roundStripe (askedSize arg))

theorem askedSize_nonneg (arg : Int) : 0 ≤ askedSize arg := by
  unfold askedSize
  split_ifs <;> omega

theorem seglunGrow_eq (hle : s.totalSize ≤ askedSize arg) {rows lo}
    (hlast : growLast g o.padFails s (g.roundStripe (askedSize arg)) = some (rows, lo)) :
    seglunGrow g o s arg = some
      (match growRows g o lo (g.roundStripe (askedSize arg)) rows with
      | .error rows => ({ s with rows := rows }, false)
      | .ok rows =>
        ({ rows := rows
           totalSize := g.roundStripe (askedSize arg)
           usedSize := if -1 < arg then g.roundStripe (askedSize arg) else s.usedSize }, true)) := by
  have hnot : ¬(arg < 0 ∧ askedSize arg < s.totalSize) := by omega
  simp only [askedSize] at hnot hlast ⊢
  rw [seglunGrow, seglunGrowFrom]
  simp only [hnot, if_false, hlast]
  rfl

/-- A grow leaves a correct layout, and the invariant unless it fails after its
first new row. -/
theorem LayoutInv.grow (h : LayoutInv g s e) (hle : s.totalSize ≤ askedSize arg) :
    ∃ p, seglunGrow g o s arg = some p ∧ LayoutOk g p.1 ∧
      ((∀ k, firstFailure o (growNeeds g o s arg) ≠ some (k + 1)) → ∃ e', LayoutInv g p.1 e') := by
  obtain ⟨hdvd, hround, _⟩ := roundStripe_spec (g := g) (askedSize_nonneg arg)
  obtain ⟨rows, lo, hlast, hst, htot, hstarts, hend⟩ :=
    growLast_spec h hdvd (by omega) o.padFails
  have hlo : g.stripeSize ∣ lo := hst.dvd ⟨0, rfl⟩
  have hneeds : growNeeds g o s arg = newRows g lo (g.roundStripe (askedSize arg)) := by
    simp [growNeeds, hlast]
  have hrun := seglunGrow_eq hle hlast
  rw [growRows_spec hst hlo hdvd] at hrun
  rw [hneeds]
  cases hfail : firstFailure o (newRows g lo (g.roundStripe (askedSize arg))) with
  | none =>
    simp only [hfail] at hrun
    set N := g.roundStripe (askedSize arg) with hN
    have hall := hst.append (stacked_added hlo hdvd (le_refl (newRows g lo N)))
    have hreach := le_added_end g lo N
    refine ⟨_, hrun, hall.layoutOk hreach, fun _ => ⟨_, hall, hreach, ?_, hdvd, ?_, ?_⟩⟩
    · dsimp only
      split_ifs at hreach ⊢ with hzero
      · rw [hzero]
        rcases hend with heq | heq | hfull
        · exact .inl (by omega)
        · exact .inl heq
        · exact .inr (by simpa [added] using hfull)
      · exact .inl (by omega)
    · have := askedSize_nonneg arg
      dsimp only
      omega
    · intro r hr
      dsimp only at hr ⊢
      rcases mem_append.mp hr with hr | hr
      · have := hstarts r hr
        omega
      · obtain ⟨j, hj, rfl⟩ := mem_map.mp hr
        exact (lt_newRows_iff _ _ _ _).mp (mem_range.mp hj)
  | some k =>
    simp only [hfail] at hrun
    set N := g.roundStripe (askedSize arg) with hN
    have hk : k < newRows g lo N := mem_range.mp (mem_of_find?_eq_some hfail)
    have hall := hst.append (stacked_added hlo hdvd (le_of_lt hk))
    have hlt := (lt_newRows_iff _ _ _ _).mp hk
    have hmax := maxRowSize_pos g
    have hreach : s.totalSize ≤ if k = 0 then lo else min (lo + k * g.maxRowSize) N := by
      have : 0 ≤ (k : Int) * g.maxRowSize := mul_nonneg (by omega) (by omega)
      split_ifs <;> omega
    refine ⟨_, hrun, hall.layoutOk hreach, ?_⟩
    intro hfirst
    obtain rfl : k = 0 := by
      cases k with
      | zero => rfl
      | succ k => exact absurd rfl (hfirst k)
    refine ⟨lo, by simpa [added] using hst, htot, ?_, h.dvd, h.nonneg, by simpa [added] using hstarts⟩
    rcases hend with heq | heq | hfull
    · exact .inl heq
    · omega
    · exact .inr (by simpa [added] using hfull)

/-- A stack is cut at an offset between two rows or inside one. -/
theorem Stacked.cut {b e c : Int} {rows} (h : Stacked g b rows e) (hb : b ≤ c) (he : c ≤ e) :
    (∃ pre post, rows = pre ++ post ∧ Stacked g b pre c ∧ Stacked g c post e) ∨
      ∃ pre r post, rows = pre ++ r :: post ∧ Stacked g b pre r.segOffset ∧ RowOk g r ∧
        r.segOffset < c ∧ c ≤ r.segEnd ∧ Stacked g (r.segEnd + 1) post e := by
  induction rows generalizing b with
  | nil =>
    have heq : b = e := h
    exact .inl ⟨[], [], rfl, show b = c by omega, show c = e by omega⟩
  | cons r rows ih =>
    obtain ⟨hoff, hok, hrest⟩ := h
    by_cases hbc : b = c
    · exact .inl ⟨[], r :: rows, rfl, hbc, ⟨by omega, hok, hrest⟩⟩
    · by_cases hin : c ≤ r.segEnd
      · exact .inr ⟨[], r, rows, rfl, hoff.symm, hok, by omega, hin, hrest⟩
      · rcases ih hrest (by omega) with ⟨pre, post, rfl, hpre, hpost⟩ |
          ⟨pre, x, post, rfl, hpre, hx, hlt, hle, hpost⟩
        · exact .inl ⟨r :: pre, post, rfl, ⟨hoff, hok, hpre⟩, hpost⟩
        · exact .inr ⟨r :: pre, x, post, rfl, ⟨hoff, hok, hpre⟩, hx, hlt, hle, hpost⟩

/-- A search from the cut finds nothing before it and everything behind it. -/
theorem Stacked.search_cut {pre post : List SeglunRow} {b c total} (hpre : Stacked g b pre e)
    (hc : e ≤ c) (hpost : ∀ x ∈ post, Meets c total x) : search c total (pre ++ post) = post := by
  rw [hpre.search_skip hc, search, filter_eq_self]
  intro x hx
  simpa using hpost x hx

theorem foldl_erase_append {pre post : List SeglunRow} (hnd : (pre ++ post).Nodup) :
    post.reverse.foldl List.erase (pre ++ post) = pre := by
  induction post using List.reverseRecOn with
  | nil => simp
  | append_singleton post x ih =>
    rw [← append_assoc] at hnd ⊢
    obtain ⟨hnd', _, hdisj⟩ := nodup_append.mp hnd
    have hnot : x ∉ pre ++ post := fun hx => hdisj x hx x (by simp) rfl
    rw [reverse_append, reverse_singleton, singleton_append, foldl_cons,
      erase_append_right _ hnot]
    simpa using ih hnd'

theorem LayoutInv.shrink (h : LayoutInv g s e) (hnn : 0 ≤ newSize) (hlt : newSize < s.totalSize) :
    LayoutInv g (seglunShrink g o s newSize).1 (g.roundStripe newSize) := by
  obtain ⟨hdvd, hround, hnext⟩ := roundStripe_spec (g := g) hnn
  have hle : g.roundStripe newSize ≤ s.totalSize := le_of_dvd_of_lt hdvd h.dvd (by omega)
  set N := g.roundStripe newSize with hN
  have hreach := h.reach
  have hnd := h.stacked.ordered.nodup
  rcases h.stacked.cut (c := N) (by omega) (by omega) with
    ⟨pre, post, hrows, hpre, hpost⟩ | ⟨pre, r, post, hrows, hpre, hr, hrlt, hrle, hpost⟩
  · have hsearch : search N s.totalSize s.rows = post := by
      rw [hrows]
      refine hpre.search_cut le_rfl fun x hx => ?_
      have := h.starts x (by simp [hrows, hx])
      have := (hpost.mem hx).2.1
      simp only [Meets, spanned_lo, spanned_hi]
      omega
    have hresult : (seglunShrink g o s newSize).1 = ⟨pre, N, newSize⟩ := by
      cases post with
      | nil =>
        simp only [seglunShrink, ← hN, hsearch]
        simp [hrows]
      | cons b rest =>
        have hzero : N - b.segOffset = 0 := by
          have := hpost.1
          omega
        have hdrop : (b :: rest).reverse.foldl List.erase s.rows = pre := by
          rw [hrows] at hnd ⊢
          exact foldl_erase_append hnd
        simp only [seglunShrink, ← hN, hsearch, hzero, if_true, hdrop]
    rw [hresult]
    refine ⟨hpre, le_rfl, .inl rfl, hdvd, by dsimp only; omega, ?_⟩
    intro x hx
    have := hpre.span hx
    dsimp only
    omega
  · have hsearch : search N s.totalSize s.rows = r :: post := by
      rw [hrows]
      refine hpre.search_cut (le_of_lt hrlt) fun x hx => ?_
      simp only [Meets, spanned_lo, spanned_hi]
      rcases mem_cons.mp hx with rfl | hx
      · omega
      · have := h.starts x (by simp [hrows, hx])
        have := (hpost.mem hx).2.1
        omega
    have hsize : ¬N - r.segOffset = 0 := by omega
    have hdrop : post.reverse.foldl List.erase s.rows = pre ++ [r] := by
      have hsplit : s.rows = (pre ++ [r]) ++ post := by rw [hrows]; simp
      rw [hsplit] at hnd ⊢
      exact foldl_erase_append hnd
    have hins (fin block row : Int) : insertByLo ⟨r.segOffset, fin, block, row⟩ pre =
        pre ++ [⟨r.segOffset, fin, block, row⟩] := hpre.insertByLo_end le_rfl
    obtain ⟨q, hq⟩ := Int.dvd_sub hdvd (hpre.dvd ⟨0, rfl⟩)
    have hlen := g.devices_mul_chunk q
    have hrle' := hr.le
    have hrend := hr.segEnd
    have hrow : RowOk g ⟨r.segOffset, r.segOffset + (N - r.segOffset) - 1,
        (N - r.segOffset).tdiv g.nDevices, N - r.segOffset⟩ := by
      refine rowOk_of_size (q := q) (by omega) (by omega) ?_ ?_ rfl
      · rw [hq, tdiv_nDevices]
      · rw [hq, tdiv_nDevices, hlen]
    have hresult : (seglunShrink g o s newSize).1 =
        ⟨pre ++ [⟨r.segOffset, r.segOffset + (N - r.segOffset) - 1,
          (N - r.segOffset).tdiv g.nDevices, N - r.segOffset⟩], N, newSize⟩ := by
      simp [seglunShrink, ← hN, hsearch, hsize, hdrop, hpre.erase_end le_rfl, hins]
    rw [hresult]
    have hst : Stacked g 0 (pre ++ [⟨r.segOffset, r.segOffset + (N - r.segOffset) - 1,
        (N - r.segOffset).tdiv g.nDevices, N - r.segOffset⟩]) N := by
      refine hpre.append ⟨rfl, hrow, ?_⟩
      show r.segOffset + (N - r.segOffset) - 1 + 1 = N
      omega
    refine ⟨hst, le_rfl, .inl rfl, hdvd, by dsimp only; omega, ?_⟩
    intro x hx
    have := hst.span hx
    dsimp only
    omega

variable {c : Int × Outcome} {p : Seglun × Bool}

/-- The call is a grow that does something. -/
def Grows (s : Seglun) (arg : Int) : Prop :=
  (arg < 0 ∧ s.totalSize ≤ -arg) ∨ (0 ≤ arg ∧ s.totalSize < arg)

/-- The call is a grow that fails after it has added a row. -/
def FailsLate (g : Geometry) (s : Seglun) (c : Int × Outcome) : Prop :=
  Grows s c.1 ∧ ∃ k, firstFailure c.2 (growNeeds g c.2 s c.1) = some (k + 1)

theorem slunTruncate_grows (o : Outcome) {arg} (h : Grows s arg) :
    slunTruncate g o s arg = seglunGrow g o s arg ∧ s.totalSize ≤ askedSize arg := by
  rcases h with ⟨hneg, hle⟩ | ⟨hnn, hlt⟩
  · simp only [slunTruncate, slunTruncateBy, askedSize, hneg, if_true, true_and]
    exact hle
  · have h₁ : ¬arg < 0 := by omega
    have h₂ : ¬arg < s.totalSize := by omega
    simp only [slunTruncate, slunTruncateBy, askedSize, h₁, h₂, hlt, if_true, if_false, true_and]
    omega

/-- A call leaves a correct layout, and the invariant unless it fails late. -/
theorem LayoutInv.step (h : LayoutInv g s e) (c : Int × Outcome) :
    ∃ p, slunTruncate g c.2 s c.1 = some p ∧ LayoutOk g p.1 ∧
      (¬FailsLate g s c → ∃ e', LayoutInv g p.1 e') := by
  by_cases hgrow : Grows s c.1
  · obtain ⟨heq, hle⟩ := slunTruncate_grows (g := g) c.2 hgrow
    obtain ⟨p, hrun, hok, hinv⟩ := h.grow (o := c.2) hle
    refine ⟨p, heq.trans hrun, hok, fun hlate => hinv fun k hk => hlate ⟨hgrow, k, hk⟩⟩
  · simp only [Grows, not_or, not_and] at hgrow
    by_cases hneg : c.1 < 0
    · -- a reservation of space the segment already has
      refine ⟨(s, true), ?_, h.layoutOk, fun _ => ⟨e, h⟩⟩
      have hearly : c.1 < 0 ∧ -c.1 < s.totalSize := ⟨hneg, by omega⟩
      simp only [slunTruncate, slunTruncateBy, seglunGrow, seglunGrowFrom, hneg, if_true, hearly]
      simp
    · by_cases hlt : c.1 < s.totalSize
      · have hinv := h.shrink (o := c.2) (by omega) hlt
        refine ⟨_, ?_, hinv.layoutOk, fun _ => ⟨_, hinv⟩⟩
        simp [slunTruncate, slunTruncateBy, hneg, hlt]
      · have hsame : ¬s.totalSize < c.1 := by
          omega
        refine ⟨(s, true), ?_, h.layoutOk, fun _ => ⟨e, h⟩⟩
        simp [slunTruncate, slunTruncateBy, hneg, hlt, hsame]

/-- Every operation succeeds. -/
def Outcome.good : Outcome := ⟨false, fun _ => true, true⟩

theorem growRows_good (lo newSize : Int) (rows : List SeglunRow) :
    ∃ rows', growRows g Outcome.good lo newSize rows = .ok rows' ∧
      rows'.Perm (added g lo newSize (newRows g lo newSize) ++ rows) := by
  unfold growRows
  generalize newRows g lo newSize = n
  induction n with
  | zero => exact ⟨rows, rfl, by simp [added]⟩
  | succ n ih =>
    obtain ⟨rows', hrun, hperm⟩ := ih
    refine ⟨insertByLo (newRow g newSize (lo + n * g.maxRowSize)) rows', ?_, ?_⟩
    · rw [range_succ, foldlM_append, hrun]
      rfl
    · refine (insertByLo_perm _ _).trans ?_
      rw [added_succ, append_assoc, singleton_append]
      exact (hperm.cons _).trans perm_middle.symm

theorem not_layoutOk_of_overlap {s x y l} (hperm : s.rows.Perm (x :: l)) (hy : y ∈ l)
    (hxy : y.segOffset ≤ x.segEnd) (hyx : x.segOffset ≤ y.segEnd) : ¬LayoutOk g s := by
  intro h
  have hsymm : ∀ {a b : SeglunRow}, (a.segEnd < b.segOffset ∨ b.segEnd < a.segOffset) →
      (b.segEnd < a.segOffset ∨ a.segEnd < b.segOffset) := Or.symm
  have hpair := (hperm.pairwise_iff hsymm).mp h.disjoint
  have := (pairwise_cons.mp hpair).1 y hy
  omega

/-- After a late failure the same grow, with every operation succeeding, lays a row
over one that is there. -/
theorem LayoutInv.overlaps (h : LayoutInv g s e) (hlate : FailsLate g s c)
    (hrun : slunTruncate g c.2 s c.1 = some p) :
    ∃ p', slunTruncate g Outcome.good p.1 c.1 = some p' ∧ ¬LayoutOk g p'.1 := by
  obtain ⟨hgrow, k, hfail⟩ := hlate
  obtain ⟨heq, hle⟩ := slunTruncate_grows (g := g) c.2 hgrow
  obtain ⟨hdvd, hround, _⟩ := roundStripe_spec (g := g) (askedSize_nonneg c.1)
  obtain ⟨rows, lo, hlast, hst, htot, hstarts, _⟩ := growLast_spec h hdvd (by omega) c.2.padFails
  set N := g.roundStripe (askedSize c.1) with hN
  have hlo : g.stripeSize ∣ lo := hst.dvd ⟨0, rfl⟩
  simp only [growNeeds, ← hN, hlast] at hfail
  have hk : k + 1 < newRows g lo N := mem_range.mp (mem_of_find?_eq_some hfail)
  rw [heq, seglunGrow_eq hle hlast, ← hN, growRows_spec hst hlo hdvd, hfail] at hrun
  cases hrun
  set x := newRow g N (lo + (0 : Nat) * g.maxRowSize) with hx
  obtain ⟨hxok, hxoff, _⟩ := newRow_spec hlo hdvd (show 0 < newRows g lo N by omega)
  rw [← hx] at hxok hxoff
  have hxend : lo ≤ x.segEnd := by
    have := hxok.pos
    have := hxok.segEnd
    omega
  have hxmem : x ∈ added g lo N (k + 1) := mem_map.mpr ⟨0, by simp, rfl⟩
  have hltN := (lt_newRows_iff _ _ _ _).mp (show 0 < newRows g lo N by omega)
  set s' : Seglun := { s with rows := rows ++ added g lo N (k + 1) } with hs'
  have hgrow' : Grows s' c.1 := hgrow
  obtain ⟨heq', hle'⟩ := slunTruncate_grows (g := g) Outcome.good hgrow'
  -- when the next grow starts its rows at `lo`, the new row there meets `x`
  have hagain (hagain : growLast g Outcome.good.padFails s' N = some (s'.rows, lo)) :
      ∃ p', slunTruncate g Outcome.good s' c.1 = some p' ∧ ¬LayoutOk g p'.1 := by
    obtain ⟨rows', hrows', hperm⟩ := growRows_good (g := g) lo N s'.rows
    refine ⟨_, by rw [heq', seglunGrow_eq hle' hagain, ← hN, hrows'], ?_⟩
    have hsplit : added g lo N (newRows g lo N) ++ s'.rows =
        x :: (((added g lo N (newRows g lo N)).tail) ++ s'.rows) := by
      obtain ⟨n, hn⟩ : ∃ n, newRows g lo N = n + 1 := ⟨newRows g lo N - 1, by omega⟩
      simp [added, hn, range_succ_eq_map, hx]
    rw [hsplit] at hperm
    refine not_layoutOk_of_overlap hperm (y := x) ?_ (by omega) (by omega)
    exact mem_append_right _ (mem_append_right _ hxmem)
  by_cases hpos : 0 < s.totalSize
  · -- the row that holds the last byte is found again
    obtain ⟨init, b, hrows, hinit, hb, hend⟩ := hst.last (by omega)
    have hblt : b.segOffset < s.totalSize := hstarts b (by simp [hrows])
    have hs'rows : s'.rows = init ++ b :: added g lo N (k + 1) := by
      simp [hs', hrows]
    obtain ⟨l, hsearch⟩ := search_last (added g lo N (k + 1)) hinit hblt (by omega)
    rw [← hs'rows] at hsearch
    by_cases hfull : b.rowLen < g.maxRowSize
    · obtain ⟨_, hsame, hrowend⟩ := enlargeRow_spec hb (hinit.dvd ⟨0, rfl⟩) hdvd (by omega) false
      simp only [Bool.false_eq_true, if_false] at hrowend
      have hlast' : growLast g Outcome.good.padFails s' N =
          some (insertByLo (enlargeRow g false b N) (s'.rows.erase b),
            (enlargeRow g false b N).segEnd + 1) := by
        rw [growLast_found (s := s') hpos hsearch, if_pos hfull]
        rfl
      obtain ⟨rows', hrows', hperm⟩ := growRows_good (g := g)
        ((enlargeRow g false b N).segEnd + 1) N
        (insertByLo (enlargeRow g false b N) (s'.rows.erase b))
      refine ⟨_, by rw [heq', seglunGrow_eq hle' hlast', ← hN, hrows'], ?_⟩
      have hbend := hb.segEnd
      have hxne : x ≠ b := fun hxb => by
        rw [hxb] at hxoff
        omega
      refine not_layoutOk_of_overlap (x := enlargeRow g false b N) (y := x)
        (hperm.trans (((insertByLo_perm _ _).append_left _).trans perm_middle)) ?_ ?_ ?_
      · refine mem_append_right _ ((mem_erase_of_ne hxne).mpr ?_)
        rw [hs'rows]
        exact mem_append_right _ (mem_cons_of_mem _ hxmem)
      · omega
      · omega
    · refine hagain ?_
      rw [growLast_found (s := s') hpos hsearch, if_neg hfull, hend]
  · refine hagain ?_
    have hzero : lo = s.totalSize := by
      have hnn := h.nonneg
      rw [hst.eq_nil hstarts (by omega)] at hst
      have : (0 : Int) = lo := hst
      omega
    have hpos' : ¬0 < s'.totalSize := hpos
    simp only [growLast, hpos', if_false, hzero]
    rfl

/-- No call of the run fails late. -/
def Steady (g : Geometry) : Seglun → List (Int × Outcome) → Prop
  | _, [] => True
  | s, c :: calls => ¬FailsLate g s c ∧
      ∀ p, slunTruncate g c.2 s c.1 = some p → Steady g p.1 calls

theorem runCalls_cons (hp : slunTruncate g c.2 s c.1 = some p) (calls : List (Int × Outcome)) :
    runCalls g s (c :: calls) = runCalls g p.1 calls := by
  simp only [runCalls, foldlM_cons, hp, map_some]
  rfl

theorem LayoutInv.survives_iff (h : LayoutInv g s e) (calls : List (Int × Outcome)) :
    (∀ pre post c, calls = pre ++ post →
      ∃ s', runCalls g s (pre ++ [c]) = some s' ∧ LayoutOk g s') ↔ Steady g s calls := by
  induction calls generalizing s e with
  | nil =>
    refine ⟨fun _ => trivial, fun _ pre post c hsplit => ?_⟩
    obtain ⟨rfl, rfl⟩ := append_eq_nil_iff.mp hsplit.symm
    obtain ⟨p, hrun, hok, _⟩ := h.step c
    exact ⟨p.1, by rw [nil_append, runCalls_cons hrun]; rfl, hok⟩
  | cons c calls ih =>
    obtain ⟨p, hrun, hok, hinv⟩ := h.step c
    constructor
    · intro hall
      have hlate : ¬FailsLate g s c := by
        intro hlate
        obtain ⟨p', hrun', hbad⟩ := h.overlaps hlate hrun
        obtain ⟨s', hs', hok'⟩ := hall [c] calls (c.1, Outcome.good) rfl
        rw [singleton_append, runCalls_cons hrun,
          runCalls_cons (c := (c.1, Outcome.good)) hrun'] at hs'
        cases hs'
        exact hbad hok'
      obtain ⟨e', h'⟩ := hinv hlate
      refine ⟨hlate, ?_⟩
      intro p' hp'
      obtain rfl : p = p' := some.inj (hrun.symm.trans hp')
      refine (ih h').mp fun pre post d hsplit => ?_
      obtain ⟨s', hs', hok'⟩ := hall (c :: pre) post d (by rw [hsplit]; rfl)
      rw [cons_append, runCalls_cons hrun] at hs'
      exact ⟨s', hs', hok'⟩
    · rintro ⟨hlate, hrest⟩ pre post d hsplit
      obtain ⟨e', h'⟩ := hinv hlate
      cases pre with
      | nil =>
        obtain ⟨q, hq, hqok, _⟩ := h.step d
        exact ⟨q.1, by rw [nil_append, runCalls_cons hq]; rfl, hqok⟩
      | cons c' pre =>
        obtain ⟨rfl, hcalls⟩ := List.cons.inj hsplit
        rw [cons_append, runCalls_cons hrun]
        exact (ih h').mpr (hrest p hrun) pre post d hcalls

/-- Along a run from the empty segment the layout stays correct, whatever call
comes next, exactly when no grow of the run fails after it has added a row. -/
theorem layout_survives_iff (g : Geometry) (calls : List (Int × Outcome)) :
    (∀ pre post c, calls = pre ++ post →
      ∃ s, runCalls g Seglun.empty (pre ++ [c]) = some s ∧ LayoutOk g s) ↔
      Steady g Seglun.empty calls :=
  (layoutInv_empty g).survives_iff calls

/-- One device with rows of one byte: a grow to two bytes whose second row fails,
repeated with success, stores two rows at offset 0. -/
theorem layout_duplicates_row :
    runCalls ⟨1, 1, 1, by decide, by decide, by decide, by decide⟩ Seglun.empty
        [(2, ⟨false, fun k => k == 0, true⟩), (2, ⟨false, fun _ => true, true⟩)] =
      some ⟨[⟨0, 0, 1, 1⟩, ⟨0, 0, 1, 1⟩, ⟨1, 1, 1, 1⟩], 2, 2⟩ := by
  decide

end LStore.Lun
