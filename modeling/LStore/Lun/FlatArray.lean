import LStore.Lun.ReadWrite
import LStore.Lun.Truncate

/-!
# A LUN segment is a flat byte array

The operations of a request transfer, in request order, exactly the requested
bytes: the parts of an entry in the rows it meets tile it, and the entries of a
row's device collect those of its bytes. So a run of requests reads and writes the
segment as one array, as long as no request needs more table entries than there
are.
-/

namespace LStore.Lun

open ByteSpan IntervalList LStore.Toolbox List RwTable

variable {iov : List ExIovec} {c : Int}

/-- The bytes of an entry in one row. -/
def partBytes (p : ExIovec × SeglunRow) : List Int :=
  span (max p.1.offset p.2.segOffset) (min (p.1.offset + p.1.len) (p.2.segEnd + 1))

/-- The entries of a vector, cut at the rows. -/
def parts (rows : List SeglunRow) (iov : List ExIovec) : List (ExIovec × SeglunRow) :=
  iov.flatMap fun v => (search v.offset (v.offset + v.len - 1) rows).map fun b => (v, b)

theorem assemble_eq (g : Geometry) (nShift : Nat) (rows : List SeglunRow) (buffer : Tbuf)
    (iov : List ExIovec) (boff : Int) :
    assemble g nShift rows buffer iov boff = (parts rows iov).foldlM
      (fun st p => rwRow g nShift buffer p.1.offset (p.1.offset + p.1.len - 1) st p.2)
      (RwTable.onStack, boff) := by
  rw [assemble]
  generalize (onStack, boff) = st
  induction iov generalizing st with
  | nil => rfl
  | cons v iov ih =>
    have hparts : parts rows (v :: iov) =
        (search v.offset (v.offset + v.len - 1) rows).map (fun b => (v, b)) ++ parts rows iov := by
      simp [parts]
    rw [foldlM_cons, hparts, foldlM_append, foldlM_map]
    congr 1
    funext st'
    exact ih st'

/-- Where rows that start at `c` end. -/
def endFrom (c : Int) (rows : List SeglunRow) : Int :=
  rows.foldl (fun _ r => r.segEnd + 1) c

section

variable {rows : List SeglunRow} (hrows : Contiguous c rows)
variable (hne : ∀ r ∈ rows, r.segOffset ≤ r.segEnd)
include hrows hne

theorem le_endFrom : c ≤ endFrom c rows := by
  induction rows generalizing c with
  | nil => exact le_refl c
  | cons r rows ih =>
    obtain ⟨hr, hne'⟩ := forall_mem_cons.mp hne
    have hrest := ih hrows.2 hne'
    have := hrows.1
    simp only [endFrom, foldl_cons] at hrest ⊢
    omega

theorem segEnd_lt_endFrom {r} (hr : r ∈ rows) : r.segEnd < endFrom c rows := by
  induction rows generalizing c with
  | nil => simp at hr
  | cons x rows ih =>
    obtain ⟨-, hne'⟩ := forall_mem_cons.mp hne
    rcases mem_cons.mp hr with rfl | hr
    · have := le_endFrom hrows.2 hne'
      simp only [endFrom, foldl_cons] at this ⊢
      omega
    · exact ih hrows.2 hne' hr

theorem contiguous_ge {r} (hr : r ∈ rows) : c ≤ r.segOffset := by
  induction rows generalizing c with
  | nil => simp at hr
  | cons x rows ih =>
    obtain ⟨hx, hne'⟩ := forall_mem_cons.mp hne
    rcases mem_cons.mp hr with rfl | hr
    · exact hrows.1.ge
    · have := ih hrows.2 hne' hr
      have := hrows.1
      omega

theorem ordered_of_contiguous : Ordered rows := by
  induction rows generalizing c with
  | nil => exact ordered_nil
  | cons r rows ih =>
    obtain ⟨hr, hne'⟩ := forall_mem_cons.mp hne
    refine ordered_cons.mpr ⟨hr, fun b hb => ?_, ih hrows.2 hne'⟩
    have := contiguous_ge hrows.2 hne' hb
    simp only [spanned_hi, spanned_lo]
    omega

/-- The parts of an entry in contiguous rows tile what the rows have of it. -/
theorem flatMap_partBytes {v} (hv : 1 ≤ v.len) :
    ((search v.offset (v.offset + v.len - 1) rows).flatMap fun b => partBytes (v, b)) =
      span (max v.offset c) (min (v.offset + v.len) (endFrom c rows)) := by
  induction rows generalizing c with
  | nil =>
    simp only [search, filter_nil, flatMap_nil, endFrom, foldl_nil]
    rw [span_eq_nil (by omega)]
  | cons r rows ih =>
    obtain ⟨hr, hne'⟩ := forall_mem_cons.mp hne
    have hrest := ih hrows.2 hne'
    have hend : endFrom c (r :: rows) = endFrom (r.segEnd + 1) rows := rfl
    have hle := le_endFrom hrows.2 hne'
    have hc := hrows.1
    have hmeet := meets_iff (l := v.offset) (h := v.offset + v.len - 1) (a := r) hr (by omega)
    simp only [spanned_lo, spanned_hi] at hmeet
    rw [search] at hrest
    rw [search, filter_cons, hend]
    by_cases hm : Meets v.offset (v.offset + v.len - 1) r
    · rw [if_pos (decide_eq_true hm), flatMap_cons, hrest, partBytes]
      have hin := hmeet.mp hm
      simp only []
      by_cases hlast : r.segEnd + 1 ≤ v.offset + v.len
      · rw [min_eq_right hlast, max_eq_right (show v.offset ≤ r.segEnd + 1 by omega), hc,
          span_append (by omega) (by omega)]
      · rw [min_eq_left (show v.offset + v.len ≤ r.segEnd + 1 by omega),
          min_eq_left (show v.offset + v.len ≤ endFrom (r.segEnd + 1) rows by omega), hc,
          span_eq_nil (show v.offset + v.len ≤ max v.offset (r.segEnd + 1) by omega),
          append_nil]
    · rw [if_neg (by simpa using hm), hrest]
      have hout := hmeet.not.mp hm
      by_cases hbefore : r.segEnd < v.offset
      · rw [max_eq_left (show r.segEnd + 1 ≤ v.offset by omega),
          max_eq_left (show c ≤ v.offset by omega)]
      · rw [span_eq_nil (by omega), span_eq_nil (by omega)]

end

namespace ValidLayout

variable {rows : List SeglunRow} {total : Int}

section

variable (h : ValidLayout rows total)
include h

theorem nonempty : ∀ r ∈ rows, r.segOffset ≤ r.segEnd := by
  intro r hr
  have := h.shape r hr
  omega

theorem ordered : Ordered rows :=
  ordered_of_contiguous h.contiguous h.nonempty

/-- The parts of an entry inside the segment are the entry. -/
theorem entry_bytes {v} (hlo : 0 ≤ v.offset) (hlen : 1 ≤ v.len) (hhi : v.offset + v.len ≤ total) :
    ((search v.offset (v.offset + v.len - 1) rows).flatMap fun b => partBytes (v, b)) =
      span v.offset (v.offset + v.len) := by
  obtain ⟨r, hr, _, hend⟩ := h.covers (v.offset + v.len - 1) (by omega) (by omega)
  have := segEnd_lt_endFrom h.contiguous h.nonempty hr
  rw [flatMap_partBytes h.contiguous h.nonempty hlen, max_eq_left hlo, min_eq_left (by omega)]

/-- The parts of a vector inside the segment are its offsets, in order. -/
theorem parts_bytes (hin : ∀ v ∈ iov, 0 ≤ v.offset ∧ 1 ≤ v.len ∧ v.offset + v.len ≤ total) :
    (parts rows iov).flatMap partBytes =
      iov.flatMap fun v => span v.offset (v.offset + v.len) := by
  rw [parts, flatMap_assoc]
  refine flatMap_congr fun v hv => ?_
  obtain ⟨hlo, hlen, hhi⟩ := hin v hv
  rw [flatMap_map]
  exact h.entry_bytes hlo hlen hhi

end

end ValidLayout

/-- The transfers among `ps` that belong to device `i` of row `r`, at their device offsets. -/
def bytesAt (g : Geometry) (nShift : Nat) (r : SeglunRow) (i : Nat) (ps : List (Int × Int)) :
    List (Int × Int) :=
  (ps.filter fun p => decide ((r.segOffset ≤ p.1 ∧ p.1 ≤ r.segEnd) ∧
    deviceOf g nShift (p.1 - r.segOffset) = i)).map
      fun p => (deviceOffset g (p.1 - r.segOffset), p.2)

variable {g : Geometry} {nShift : Nat} {rows : List SeglunRow} {buffer : Tbuf} {boff : Int}
  {r b : SeglunRow} {i : Nat}

variable {st' : RwTable × Int}

theorem bytesAt_append (ps qs : List (Int × Int)) :
    bytesAt g nShift r i (ps ++ qs) = bytesAt g nShift r i ps ++ bytesAt g nShift r i qs := by
  simp [bytesAt]

theorem bytesAt_outside {ps} (h : ∀ p ∈ ps, ¬(r.segOffset ≤ p.1 ∧ p.1 ≤ r.segEnd)) :
    bytesAt g nShift r i ps = [] := by
  rw [bytesAt, filter_eq_nil_iff.mpr, map_nil]
  intro p hp hsel
  exact h p hp (of_decide_eq_true hsel).1

/-- The bytes `[u, w)` of row `b` on a device, in terms of row offsets. -/
theorem bytesAt_part {u w bpos} (hlo : b.segOffset ≤ u) (hhi : w ≤ b.segEnd + 1) :
    bytesAt g nShift b i (paired (addresses buffer.iov) bpos.toNat u w) =
      onDevice g nShift buffer (u - b.segOffset) bpos (w - b.segOffset) i := by
  have hshift := paired_add (addresses buffer.iov) bpos.toNat b.segOffset (u - b.segOffset)
    (w - b.segOffset)
  rw [show b.segOffset + (u - b.segOffset) = u by omega,
    show b.segOffset + (w - b.segOffset) = w by omega] at hshift
  rw [bytesAt, onDevice, hshift, filter_map, map_map]
  have hfilter : (paired (addresses buffer.iov) bpos.toNat (u - b.segOffset)
        (w - b.segOffset)).filter ((fun p : Int × Int =>
          decide ((b.segOffset ≤ p.1 ∧ p.1 ≤ b.segEnd) ∧
            deviceOf g nShift (p.1 - b.segOffset) = i)) ∘
          fun p : Int × Int => (b.segOffset + p.1, p.2)) =
      (paired (addresses buffer.iov) bpos.toNat (u - b.segOffset) (w - b.segOffset)).filter
        fun p => decide (deviceOf g nShift p.1 = i) := by
    refine filter_congr fun p hp => ?_
    have hmem := mem_span_of_paired hp
    simp only [Function.comp_apply, add_sub_cancel_left]
    exact decide_eq_decide.mpr ⟨fun h => h.2, fun h => ⟨by omega, h⟩⟩
  rw [hfilter]
  refine map_congr_left fun p _ => ?_
  simp

/-- Where the first loop stands after the parts `done`. -/
structure Assembled (g : Geometry) (nShift : Nat) (buffer : Tbuf) (boff : Int)
    (done : List (ExIovec × SeglunRow)) (st : RwTable × Int) : Prop where
  bpos : st.2 = boff + (done.flatMap partBytes).length
  rows_nodup : st.1.rows.Nodup
  mem_rows : ∀ b, b ∈ st.1.rows ↔ ∃ p ∈ done, p.2 = b
  sized : st.1.Sized g
  request : ∀ s ∈ st.1.slots, ∀ i < g.nDevices, Request (s.rwBuf i)
    (bytesAt g nShift s.row i
      (listed (addresses buffer.iov) boff.toNat (done.flatMap partBytes)))

theorem assembled_start : Assembled g nShift buffer boff [] (RwTable.onStack, boff) where
  bpos := by simp
  rows_nodup := nodup_nil
  mem_rows := by simp [rows, onStack]
  sized := sized_onStack
  request := by simp [onStack]

/-- A part of a request: a row of the segment that the entry meets. -/
structure IsPart (rows : List SeglunRow) (p : ExIovec × SeglunRow) : Prop where
  mem : p.2 ∈ rows
  some_bytes : 1 ≤ p.1.len
  below : p.2.segOffset < p.1.offset + p.1.len
  above : p.1.offset ≤ p.2.segEnd

variable {total : Int} {done : List (ExIovec × SeglunRow)} {st : RwTable × Int}
  {p : ExIovec × SeglunRow} {t : RwTable}

theorem mem_partBytes {x} (hx : x ∈ partBytes p) : p.2.segOffset ≤ x ∧ x ≤ p.2.segEnd := by
  have := mem_span.mp hx
  omega

theorem isPart_of_mem (hrows : ValidLayout rows total) (hlen : ∀ v ∈ iov, 1 ≤ v.len)
    (hp : p ∈ parts rows iov) : IsPart rows p := by
  simp only [parts, mem_flatMap, mem_map] at hp
  obtain ⟨v, hv, b, hb, rfl⟩ := hp
  obtain ⟨hmem, hmeet⟩ := mem_search.mp hb
  have := hlen v hv
  obtain ⟨hbelow, habove⟩ := (meets_iff (hrows.nonempty b hmem) (by omega)).mp hmeet
  exact ⟨hmem, this, by simp only [spanned_lo] at hbelow; simp only []; omega, habove⟩

/-- A row in use sees only its own parts. -/
theorem bytesAt_done_eq_nil (hord : Ordered rows) (hdone : ∀ q ∈ done, IsPart rows q)
    (hb : b ∈ rows) (hnot : ∀ q ∈ done, q.2 ≠ b) (as : List Int) (n : Nat) :
    bytesAt g nShift b i (listed as n (done.flatMap partBytes)) = [] := by
  refine bytesAt_outside fun x hx hin => ?_
  obtain ⟨q, hq, hxq⟩ := mem_flatMap.mp (of_mem_zip hx).1
  have hown := mem_partBytes hxq
  have hapart := hord.disjoint (hdone q hq).mem hb (hnot q hq)
  simp only [spanned_lo, spanned_hi] at hapart
  omega

theorem rwRow_eq (hshape : p.2.segEnd = p.2.segOffset + p.2.rowLen - 1) {u w}
    (hu : u = max p.1.offset p.2.segOffset) (hw : w = min (p.1.offset + p.1.len) (p.2.segEnd + 1)) :
    rwRow g nShift buffer p.1.offset (p.1.offset + p.1.len - 1) st p.2 =
      (st.1.useRow g p.2).map fun t =>
        (t.decompose g nShift buffer p.2 (u - p.2.segOffset) st.2 (w - u), st.2 + (w - u)) := by
  have hstart : (if p.1.offset ≤ p.2.segOffset then 0 else p.1.offset - p.2.segOffset) =
      u - p.2.segOffset := by
    split_ifs <;> omega
  have hlast : (if p.2.segEnd ≤ p.1.offset + p.1.len - 1 then p.2.rowLen - 1
      else p.1.offset + p.1.len - 1 - p.2.segOffset) = w - p.2.segOffset - 1 := by
    split_ifs <;> omega
  have hblen : w - p.2.segOffset - 1 - (u - p.2.segOffset) + 1 = w - u := by omega
  rw [rwRow]
  simp only [hstart, hlast, hblen]

/-- The table entries with row `b` in use, its requests not yet extended. -/
structure Opened (g : Geometry) (nShift : Nat) (buffer : Tbuf) (boff : Int)
    (done : List (ExIovec × SeglunRow)) (b : SeglunRow) (t : RwTable) : Prop where
  rows_nodup : t.rows.Nodup
  mem_rows : ∀ x, x ∈ t.rows ↔ x = b ∨ ∃ p ∈ done, p.2 = x
  sized : t.Sized g
  request : ∀ s ∈ t.slots, ∀ i < g.nDevices, Request (s.rwBuf i)
    (bytesAt g nShift s.row i
      (listed (addresses buffer.iov) boff.toNat (done.flatMap partBytes)))

theorem Assembled.opened (h : Assembled g nShift buffer boff done st) (hord : Ordered rows)
    (hdone : ∀ q ∈ done, IsPart rows q) (hb : b ∈ rows) (ht : st.1.useRow g b = some t) :
    Opened g nShift buffer boff done b t := by
  by_cases hold : b ∈ st.1.rows
  · rw [useRow_mem hold] at ht
    cases ht
    refine ⟨h.rows_nodup, fun x => ?_, h.sized, h.request⟩
    rw [h.mem_rows]
    constructor
    · exact .inr
    · rintro (rfl | hx)
      · exact (h.mem_rows _).mp hold
      · exact hx
  · have hfit : g.nDevices = 1 ∨ (st.1.slots.length + 1) * g.nDevices ≤ 100 := by
      by_contra hover
      rw [h.sized.useRow_none hold hover] at ht
      simp at ht
    obtain ⟨t', hrun, hslots, hsized⟩ := h.sized.useRow hold hfit
    obtain rfl := Option.some.inj (hrun.symm.trans ht)
    have hrows : t'.rows = st.1.rows ++ [b] := by simp [RwTable.rows, hslots]
    refine ⟨?_, fun x => ?_, hsized, ?_⟩
    · rw [hrows]
      exact nodup_append.mpr ⟨h.rows_nodup, nodup_singleton b, fun x hx y hy => by
        rintro rfl
        exact hold (mem_singleton.mp hy ▸ hx)⟩
    · rw [hrows, mem_append, mem_singleton, h.mem_rows, or_comm]
    · intro s hs i hi
      rw [hslots] at hs
      rcases mem_append.mp hs with hs | hs
      · exact h.request s hs i hi
      · obtain rfl := mem_singleton.mp hs
        have hnot : ∀ q ∈ done, q.2 ≠ b := fun q hq heq => hold ((h.mem_rows b).mpr ⟨q, hq, heq⟩)
        simp only [bytesAt_done_eq_nil hord hdone hb hnot]
        exact request_zero

/-- What a call needs of its buffer. -/
structure Roomy (buffer : Tbuf) (boff : Int) (n : Nat) : Prop where
  total : buffer.totalBytes = totalLen buffer.iov
  boff_nonneg : 0 ≤ boff
  room : boff.toNat + n ≤ buffer.totalBytes
  bytes : buffer.totalBytes ≤ 2147483648

theorem Roomy.left {xs ys : List (ExIovec × SeglunRow)}
    (h : Roomy buffer boff ((xs ++ ys).flatMap partBytes).length) :
    Roomy buffer boff (xs.flatMap partBytes).length := by
  refine ⟨h.total, h.boff_nonneg, ?_, h.bytes⟩
  have := h.room
  rw [flatMap_append, length_append] at this
  omega

section

variable (h : Assembled g nShift buffer boff done st)
include h

/-- One part: its bytes go to the requests of its row. -/
theorem Assembled.step (hlayout : ValidLayout rows total) (hshifts : ShiftsFit g nShift rows)
    (hdone : ∀ q ∈ done, IsPart rows q)
    (hp : IsPart rows p) (hroom : Roomy buffer boff ((done ++ [p]).flatMap partBytes).length)
    (hrun : rwRow g nShift buffer p.1.offset (p.1.offset + p.1.len - 1) st p.2 = some st') :
    Assembled g nShift buffer boff (done ++ [p]) st' := by
  obtain ⟨u, hu⟩ : ∃ u, u = max p.1.offset p.2.segOffset := ⟨_, rfl⟩
  obtain ⟨w, hw⟩ : ∃ w, w = min (p.1.offset + p.1.len) (p.2.segEnd + 1) := ⟨_, rfl⟩
  have hnonempty := hlayout.nonempty p.2 hp.mem
  have huw : u < w := by
    have := hp.some_bytes
    have := hp.below
    have := hp.above
    omega
  have hbytes : partBytes p = span u w := by rw [partBytes, hu, hw]
  have hlen : ((done ++ [p]).flatMap partBytes).length =
      (done.flatMap partBytes).length + (w - u).toNat := by
    rw [flatMap_append, length_append, flatMap_cons, flatMap_nil,
      append_nil, hbytes, length_span]
  have hbpos := h.bpos
  have hboff := hroom.boff_nonneg
  have hfits := hroom.room
  have htotal : (addresses buffer.iov).length = buffer.totalBytes := by
    rw [length_addresses, hroom.total]
  have hlisted : listed (addresses buffer.iov) boff.toNat ((done ++ [p]).flatMap partBytes) =
      listed (addresses buffer.iov) boff.toNat (done.flatMap partBytes) ++
        paired (addresses buffer.iov) st.2.toNat u w := by
    have hpos : st.2.toNat = boff.toNat + (done.flatMap partBytes).length := by omega
    rw [paired_eq_listed, ← hbytes, hpos, ← listed_append]
    · simp
    · rw [length_append, hbytes, length_span]
      omega
  rw [rwRow_eq (hlayout.shape p.2 hp.mem).2 hu hw, Option.map_eq_some_iff] at hrun
  obtain ⟨t, huse, rfl⟩ := hrun
  have hopen := h.opened hlayout.ordered hdone hp.mem huse
  have hsame : (t.decompose g nShift buffer p.2 (u - p.2.segOffset) st.2 (w - u)).rows = t.rows := by
    simp only [RwTable.rows, RwTable.decompose, map_map]
    refine map_congr_left fun s _ => ?_
    simp only [Function.comp_apply]
    split_ifs <;> rfl
  refine ⟨?_, ?_, ?_, ?_, ?_⟩
  · omega
  · rw [hsame]
    exact hopen.rows_nodup
  · intro x
    rw [hsame, hopen.mem_rows]
    simp only [mem_append, mem_singleton, or_and_right, exists_or, exists_eq_left]
    rw [or_comm, eq_comm]
  · have := hopen.sized
    simp only [RwTable.Sized, decompose, length_map] at this ⊢
    exact this
  · intro s hs i hi
    obtain ⟨s₀, hs₀, rfl⟩ := mem_map.mp hs
    have hreq := hopen.request s₀ hs₀ i hi
    rw [hlisted, bytesAt_append]
    split_ifs with hrow
    · have hin : InBuffer g nShift buffer (u - p.2.segOffset)
          (u - p.2.segOffset + (w - u) - 1) st.2 := by
        obtain ⟨hstripe, hshift⟩ := hshifts p.2 hp.mem
        have hle : (u - p.2.segOffset + (w - u) - 1) / g.stripeSize ≤
            (p.2.rowLen - 1) / g.stripeSize := by
          have := (hlayout.shape p.2 hp.mem).2
          exact Int.ediv_le_ediv (stripeSize_pos g) (by omega)
        have hmono := mul_le_mul_of_nonneg_right hle (Int.natCast_nonneg nShift)
        exact ⟨hroom.total, by omega, by omega, by omega, by omega, hroom.bytes, by omega, by omega⟩
      have happ : Appends (s₀.rwBuf i) (lunRowDecompose g nShift buffer s₀.rwBuf
          (u - p.2.segOffset) st.2 (w - u) i) _ := lunRowDecompose_spec hin s₀.rwBuf hi
      rw [show u - p.2.segOffset + (w - u) = w - p.2.segOffset by omega,
        ← bytesAt_part (show p.2.segOffset ≤ u by omega) (by omega)] at happ
      simp only [hrow] at hreq ⊢
      exact hreq.append happ
    · have hother : s₀.row ∈ rows := by
        have hmem : s₀.row ∈ t.rows := mem_map_of_mem hs₀
        rcases (hopen.mem_rows _).mp hmem with heq | ⟨q, hq, heq⟩
        · exact absurd heq hrow
        · exact heq ▸ (hdone q hq).mem
      have hnone : bytesAt g nShift s₀.row i
          (paired (addresses buffer.iov) st.2.toNat u w) = [] := by
        refine bytesAt_outside fun x hx hin => ?_
        have hx' := mem_span_of_paired hx
        have hapart := hlayout.ordered.disjoint hother hp.mem hrow
        simp only [spanned_lo, spanned_hi] at hapart
        omega
      rw [hnone, append_nil]
      exact hreq

/-- A part whose row is in use, or gets entries in the table, goes through. -/
theorem Assembled.runs (p : ExIovec × SeglunRow)
    (hshape : p.2.segEnd = p.2.segOffset + p.2.rowLen - 1)
    (hfit : p.2 ∈ st.1.rows ∨ g.nDevices = 1 ∨ (st.1.slots.length + 1) * g.nDevices ≤ 100) :
    ∃ st', rwRow g nShift buffer p.1.offset (p.1.offset + p.1.len - 1) st p.2 = some st' := by
  rw [rwRow_eq hshape rfl rfl]
  by_cases hold : p.2 ∈ st.1.rows
  · rw [useRow_mem hold]
    exact ⟨_, rfl⟩
  · obtain ⟨t, hrun, _, _⟩ := h.sized.useRow hold (hfit.resolve_left hold)
    rw [hrun]
    exact ⟨_, rfl⟩

/-- The whole first loop: if it comes to an end, the tables hold all parts. -/
theorem Assembled.run (hlayout : ValidLayout rows total) (hshifts : ShiftsFit g nShift rows)
    {todo : List (ExIovec × SeglunRow)}
    (hparts : ∀ q ∈ done ++ todo, IsPart rows q)
    (hroom : Roomy buffer boff ((done ++ todo).flatMap partBytes).length)
    (hrun : todo.foldlM (fun st p =>
      rwRow g nShift buffer p.1.offset (p.1.offset + p.1.len - 1) st p.2) st = some st') :
    Assembled g nShift buffer boff (done ++ todo) st' := by
  induction todo generalizing done st with
  | nil =>
    cases hrun
    simpa using h
  | cons p todo ih =>
    rw [foldlM_cons, Option.bind_eq_bind, Option.bind_eq_some_iff] at hrun
    obtain ⟨st₁, hstep, hrest⟩ := hrun
    rw [append_cons] at hparts hroom ⊢
    have h₁ := h.step hlayout hshifts (fun q hq => hparts q (by simp [hq])) (hparts p (by simp))
      hroom.left hstep
    exact ih h₁ hparts hroom hrest

/-- With enough entries for all rows of the request the first loop comes to its end. -/
theorem Assembled.completes (hlayout : ValidLayout rows total) (hshifts : ShiftsFit g nShift rows)
    (todo : List (ExIovec × SeglunRow))
    (hparts : ∀ q ∈ done ++ todo, IsPart rows q)
    (hroom : Roomy buffer boff ((done ++ todo).flatMap partBytes).length) {hit : List SeglunRow}
    (hhit : ∀ q ∈ done ++ todo, q.2 ∈ hit) (hfit : g.nDevices = 1 ∨ hit.length * g.nDevices ≤ 100) :
    ∃ st', todo.foldlM (fun st p =>
      rwRow g nShift buffer p.1.offset (p.1.offset + p.1.len - 1) st p.2) st = some st' := by
  induction todo generalizing done st with
  | nil => exact ⟨st, rfl⟩
  | cons p todo ih =>
    rw [append_cons] at hparts hroom hhit
    have hp := hparts p (by simp)
    have hnew : p.2 ∈ st.1.rows ∨ g.nDevices = 1 ∨
        (st.1.slots.length + 1) * g.nDevices ≤ 100 := by
      by_cases hold : p.2 ∈ st.1.rows
      · exact .inl hold
      · refine .inr (hfit.imp_right fun hle => ?_)
        have hnd : (p.2 :: st.1.rows).Nodup := nodup_cons.mpr ⟨hold, h.rows_nodup⟩
        have hsub : p.2 :: st.1.rows ⊆ hit := by
          intro x hx
          rcases mem_cons.mp hx with rfl | hx
          · exact hhit p (by simp)
          · obtain ⟨q, hq, rfl⟩ := (h.mem_rows x).mp hx
            exact hhit q (by simp [hq])
        have hcount := (subperm_of_subset hnd hsub).length_le
        rw [length_cons, RwTable.rows, length_map] at hcount
        exact (Nat.mul_le_mul_right _ hcount).trans hle
    obtain ⟨st₁, hstep⟩ := h.runs p (hlayout.shape p.2 hp.mem).2 hnew
    have h₁ := h.step hlayout hshifts (fun q hq => hparts q (by simp [hq])) hp hroom.left hstep
    obtain ⟨st', hrest⟩ := ih h₁ hparts hroom hhit
    refine ⟨st', ?_⟩
    rw [foldlM_cons, hstep]
    exact hrest

end

variable {q : RwReq}

variable {order ops : List DeviceOp} {file : Int → Byte} {devs : Devices} {op : DeviceOp}

/-- The transfers of a request: requested offset and memory address. -/
def RwReq.pairs (q : RwReq) : List (Int × Int) := q.offsets.zip q.memory

theorem mem_parts {p} :
    p ∈ parts rows iov ↔
      p.1 ∈ iov ∧ p.2 ∈ rows ∧ Meets p.1.offset (p.1.offset + p.1.len - 1) p.2 := by
  simp only [parts, mem_flatMap, mem_map, mem_search]
  constructor
  · rintro ⟨v, hv, b, hb, rfl⟩
    exact ⟨hv, hb⟩
  · rintro ⟨hv, hb⟩
    exact ⟨p.1, hv, p.2, hb, rfl⟩

theorem mem_rowsHit {b : SeglunRow} : b ∈ rowsHit rows iov ↔ ∃ p ∈ parts rows iov, p.2 = b := by
  simp only [rowsHit, mem_filter, any_eq_true, decide_eq_true_eq, mem_parts]
  constructor
  · rintro ⟨hb, v, hv, hmeet⟩
    exact ⟨(v, b), ⟨hv, hb, hmeet⟩, rfl⟩
  · rintro ⟨p, ⟨hv, hb, hmeet⟩, rfl⟩
    exact ⟨hb, p.1, hv, hmeet⟩

theorem mem_deviceOps {t} :
    op ∈ deviceOps g t ↔
      ∃ s ∈ t.slots, ∃ i < g.nDevices, deviceOp s.row i (s.rwBuf i) = some op := by
  simp [deviceOps]

theorem deviceOp_key {row i r} (h : deviceOp row i r = some op) : op.row = row ∧ op.dev = i := by
  rw [deviceOp] at h
  split at h
  · simp at h
  · cases h
    exact ⟨rfl, rfl⟩

/-- Each device of each row has one operation at most. -/
theorem nodup_deviceOps {t} (ht : t.rows.Nodup) : ((deviceOps g t).map DeviceOp.key).Nodup := by
  rw [deviceOps, map_flatMap, nodup_flatMap]
  refine ⟨fun s _ => ?_, ?_⟩
  · rw [map_filterMap]
    refine List.Nodup.filterMap ?_ nodup_range
    intro i j k hi hj
    obtain ⟨op, hop, rfl⟩ := Option.map_eq_some_iff.mp hi
    obtain ⟨op', hop', heq⟩ := Option.map_eq_some_iff.mp hj
    have hdev : op'.dev = op.dev := congrArg Prod.snd heq
    rw [← (deviceOp_key hop).2, ← hdev, (deviceOp_key hop').2]
  · refine (pairwise_map.mp ht).imp ?_
    intro s s' hne k hk hk'
    obtain ⟨op, hop, rfl⟩ := mem_map.mp hk
    obtain ⟨op', hop', heq⟩ := mem_map.mp hk'
    obtain ⟨_, _, hi⟩ := mem_filterMap.mp hop
    obtain ⟨_, _, hj⟩ := mem_filterMap.mp hop'
    have hrow : op'.row = op.row := congrArg Prod.fst heq
    exact hne (by rw [← (deviceOp_key hi).1, ← hrow, (deviceOp_key hj).1])

section

variable (hq : q.Ok total) (hlayout : ValidLayout rows total)
include hq hlayout

theorem RwReq.Ok.roomy : Roomy q.buffer q.boff ((parts rows q.iov).flatMap partBytes).length := by
  refine ⟨hq.buffer_total, hq.boff_nonneg, ?_, hq.bytes⟩
  rw [hlayout.parts_bytes hq.inside]
  exact hq.room

theorem RwReq.Ok.isPart : ∀ p ∈ parts rows q.iov, IsPart rows p := fun _ hp =>
  isPart_of_mem hlayout (fun v hv => (hq.inside v hv).2.1) hp

theorem RwReq.Ok.assembled (hshifts : ShiftsFit g nShift rows)
    (hrun : assemble g nShift rows q.buffer q.iov q.boff = some st) :
    Assembled g nShift q.buffer q.boff (parts rows q.iov) st := by
  rw [assemble_eq] at hrun
  exact assembled_start.run hlayout hshifts (hq.isPart hlayout) (hq.roomy hlayout) hrun

/-- A request stays in its tables exactly when they suffice. -/
theorem RwReq.Ok.ops_isSome_iff (hshifts : ShiftsFit g nShift rows) :
    (∃ ops, q.ops g nShift rows = some ops) ↔ TableFits g rows q := by
  constructor
  · rintro ⟨ops, hops⟩
    obtain ⟨st, hrun, _⟩ := Option.map_eq_some_iff.mp hops
    have h := hq.assembled hlayout hshifts hrun
    have hsized := h.sized
    rw [RwTable.Sized] at hsized
    by_cases hn : g.nDevices = 1
    · exact .inl hn
    · rw [if_neg hn] at hsized
      have hnd : (rowsHit rows q.iov).Nodup := hlayout.ordered.nodup.filter _
      have hsub : rowsHit rows q.iov ⊆ st.1.rows := fun b hb =>
        (h.mem_rows b).mpr (mem_rowsHit.mp hb)
      have hcount := (subperm_of_subset hnd hsub).length_le
      rw [RwTable.rows, length_map] at hcount
      exact .inr ((Nat.mul_le_mul_right _ hcount).trans hsized.2.2)
  · intro hfit
    have hstart : Assembled g nShift q.buffer q.boff [] (onStack, q.boff) :=
      assembled_start
    obtain ⟨st, hrun⟩ := hstart.completes hlayout hshifts (parts rows q.iov) (hq.isPart hlayout)
      (hq.roomy hlayout) (fun p hp => mem_rowsHit.mpr ⟨p, hp, rfl⟩) hfit
    exact ⟨deviceOps g st.1, by rw [RwReq.ops, assemble_eq, hrun]; rfl⟩

/-- The transfers of device `i` of row `r`, from the operations of a request. -/
structure Serves (g : Geometry) (nShift : Nat) (rows : List SeglunRow) (q : RwReq)
    (ops : List DeviceOp) : Prop where
  distinct : (ops.map DeviceOp.key).Nodup
  transfers : ∀ op ∈ ops, op.row ∈ rows ∧ op.dev < g.nDevices ∧
    op.transfers = bytesAt g nShift op.row op.dev q.pairs
  complete : ∀ r ∈ rows, ∀ i < g.nDevices, bytesAt g nShift r i q.pairs ≠ [] →
    ∃ op ∈ ops, op.key = (r, i)

theorem RwReq.Ok.listed_eq_pairs :
    listed (addresses q.buffer.iov) q.boff.toNat ((parts rows q.iov).flatMap partBytes) =
      q.pairs := by
  rw [hlayout.parts_bytes hq.inside]
  rfl

/-- The operations of a request inside the segment serve it. -/
theorem RwReq.Ok.serves (hshifts : ShiftsFit g nShift rows)
    (hops : q.ops g nShift rows = some ops) : Serves g nShift rows q ops := by
  obtain ⟨st, hrun, rfl⟩ := Option.map_eq_some_iff.mp hops
  have h := hq.assembled hlayout hshifts hrun
  have hrequest := h.request
  rw [hq.listed_eq_pairs hlayout] at hrequest
  have hrows : ∀ r ∈ st.1.rows, r ∈ rows := by
    intro r hr
    obtain ⟨p, hp, rfl⟩ := (h.mem_rows r).mp hr
    exact (hq.isPart hlayout p hp).mem
  refine ⟨nodup_deviceOps h.rows_nodup, ?_, ?_⟩
  · intro op hop
    obtain ⟨s, hs, i, hi, hdev⟩ := mem_deviceOps.mp hop
    obtain ⟨hkey, htransfers⟩ := (hrequest s hs i hi).transfers hdev
    obtain ⟨hrow, hi'⟩ := deviceOp_key hdev
    rw [hrow, hi', htransfers]
    exact ⟨hrows _ (mem_map_of_mem hs), hi, rfl⟩
  · intro r hr i hi hne
    have hused : r ∈ st.1.rows := by
      by_contra hnot
      have hother : ∀ p ∈ parts rows q.iov, p.2 ≠ r := fun p hp heq =>
        hnot ((h.mem_rows r).mpr ⟨p, hp, heq⟩)
      rw [← hq.listed_eq_pairs hlayout] at hne
      exact hne (bytesAt_done_eq_nil hlayout.ordered (hq.isPart hlayout) hr hother _ _)
    obtain ⟨s, hs, rfl⟩ := mem_map.mp hused
    cases hop : deviceOp s.row i (s.rwBuf i) with
    | none => exact absurd ((hrequest s hs i hi).no_op hop) hne
    | some op =>
      exact ⟨op, mem_deviceOps.mpr ⟨s, hs, i, hi, hop⟩, ((hrequest s hs i hi).transfers hop).1⟩

end

theorem Serves.perm (h : Serves g nShift rows q ops) (hperm : order.Perm ops) :
    Serves g nShift rows q order where
  distinct := (hperm.map _).nodup_iff.mpr h.distinct
  transfers := fun op hop => h.transfers op (hperm.subset hop)
  complete := fun r hr i hi hne => by
    obtain ⟨op, hop, hkey⟩ := h.complete r hr i hi hne
    exact ⟨op, hperm.symm.subset hop, hkey⟩

/-- The devices hold the file: each byte of a row at its place. -/
def Holds (g : Geometry) (nShift : Nat) (rows : List SeglunRow) (file : Int → Byte)
    (devs : Devices) : Prop :=
  ∀ r ∈ rows, ∀ x, r.segOffset ≤ x → x ≤ r.segEnd →
    devs (r, deviceOf g nShift (x - r.segOffset)) (deviceOffset g (x - r.segOffset)) = file x

theorem holds_segmentByte (hord : Ordered rows) (devs : Devices) :
    Holds g nShift rows (segmentByte g nShift rows devs) devs := by
  intro r hr x hlo hhi
  rw [segmentByte]
  cases hfind : rows.find? fun r => r.segOffset ≤ x ∧ x ≤ r.segEnd with
  | none =>
    have := List.find?_eq_none.mp hfind r hr
    simp [hlo, hhi] at this
  | some r' =>
    have hin : r'.segOffset ≤ x ∧ x ≤ r'.segEnd := by simpa using List.find?_some hfind
    obtain rfl : r = r' := by
      by_contra hne
      have hapart := hord.disjoint hr (mem_of_find?_eq_some hfind) hne
      simp only [spanned_lo, spanned_hi] at hapart
      omega
    rfl

/-- What a write leaves on a device of a row. -/
theorem Serves.write_device (h : Serves g nShift rows q order) (devs : Devices) {r}
    (hr : r ∈ rows) {i} (hi : i < g.nDevices) :
    order.foldl (DeviceOp.write q.mem) devs (r, i) =
      writeAll ((bytesAt g nShift r i q.pairs).map fun p => (p.1, q.mem p.2)) (devs (r, i)) := by
  have hrun : order.foldl (DeviceOp.write q.mem) devs = runKeyed DeviceOp.key
      (fun op => writeAll (op.transfers.map fun p => (p.1, q.mem p.2))) order devs := rfl
  rw [hrun]
  by_cases hop : ∃ op ∈ order, op.key = (r, i)
  · obtain ⟨op, hop, hkey⟩ := hop
    obtain ⟨_, _, htransfers⟩ := h.transfers op hop
    obtain ⟨hrow, hdev⟩ := Prod.mk.inj hkey
    rw [← hkey, runKeyed_of_mem _ _ h.distinct hop, htransfers, hrow, hdev]
  · have hnil : bytesAt g nShift r i q.pairs = [] := by
      by_contra hne
      exact hop (h.complete r hr i hi hne)
    rw [hnil, map_nil, writeAll_nil]
    exact runKeyed_of_notMem _ _ (fun op hmem hkey => hop ⟨op, hmem, hkey⟩) devs

/-- A write leaves the devices with the written file. -/
theorem Serves.holds_write (h : Serves g nShift rows q order)
    (hholds : Holds g nShift rows file devs) :
    Holds g nShift rows (q.apply file) (order.foldl (DeviceOp.write q.mem) devs) := by
  intro r hr x hlo hhi
  have hplace := writeAll_filter_place (x := x)
    (fun y => decide ((r.segOffset ≤ y ∧ y ≤ r.segEnd) ∧
      deviceOf g nShift (y - r.segOffset) = deviceOf g nShift (x - r.segOffset)))
    (fun y => deviceOffset g (y - r.segOffset)) (by simp [hlo, hhi])
    (fun y hy hoff => by
      have := place_injective (of_decide_eq_true hy).2 hoff
      omega)
    (q.pairs.map fun p => (p.1, q.mem p.2)) (hholds r hr x hlo hhi)
  have happly : q.apply file = writeAll (q.pairs.map fun p => (p.1, q.mem p.2)) file := by
    rw [RwReq.apply, RwReq.pairs, zip_map_right]
    rfl
  rw [h.write_device devs hr (deviceOf_lt _), happly, ← hplace, bytesAt, filter_map,
    map_map, map_map]
  rfl

/-- The reads of all operations, as single writes to memory. -/
theorem foldl_read (order : List DeviceOp) (devs : Devices) (mem : Int → Byte) :
    order.foldl (DeviceOp.read devs) mem = writeAll
      (order.flatMap fun op => op.transfers.map fun p => (p.2, devs op.key p.1)) mem := by
  induction order generalizing mem with
  | nil => rfl
  | cons op order ih => rw [foldl_cons, ih, flatMap_cons, writeAll_append, DeviceOp.read]

/-- The transfers of an operation are transfers of the request, with the bytes of the file. -/
theorem Serves.read_value (h : Serves g nShift rows q order)
    (hholds : Holds g nShift rows file devs) (hop : op ∈ order) {d a} (hd : (d, a) ∈ op.transfers) :
    ∃ x, (x, a) ∈ q.pairs ∧ devs op.key d = file x := by
  obtain ⟨hrow, _, htransfers⟩ := h.transfers op hop
  rw [htransfers, bytesAt] at hd
  obtain ⟨p, hp, heq⟩ := mem_map.mp hd
  obtain ⟨hmem, hsel⟩ := mem_filter.mp hp
  obtain ⟨⟨hlo, hhi⟩, hdev⟩ := of_decide_eq_true hsel
  cases heq
  refine ⟨p.1, hmem, ?_⟩
  rw [← hholds op.row hrow p.1 hlo hhi, hdev]
  rfl

section

variable (hq : q.Ok total)
include hq

theorem RwReq.Ok.length_memory : q.memory.length = q.offsets.length := by
  refine length_window ?_
  rw [length_addresses, ← hq.buffer_total]
  exact hq.room

theorem RwReq.Ok.pairs_fst : q.pairs.map Prod.fst = q.offsets := by
  rw [RwReq.pairs, map_fst_zip (by rw [hq.length_memory])]

theorem RwReq.Ok.pairs_snd : q.pairs.map Prod.snd = q.memory := by
  rw [RwReq.pairs, map_snd_zip (by rw [hq.length_memory])]

section

variable (hlayout : ValidLayout rows total)
include hlayout

/-- A requested offset lies in a row. -/
theorem RwReq.Ok.row_of_offset {x} (hx : x ∈ q.offsets) :
    ∃ r ∈ rows, r.segOffset ≤ x ∧ x ≤ r.segEnd := by
  obtain ⟨v, hv, hxv⟩ := mem_flatMap.mp hx
  have hin := hq.inside v hv
  have := mem_span.mp hxv
  exact hlayout.covers x (by omega) (by omega)

/-- A read puts the byte of the file at the address of each requested offset. -/
theorem Serves.read_pair (hmode : q.write = false) (h : Serves g nShift rows q order)
    (hholds : Holds g nShift rows file devs) {x a} (hp : (x, a) ∈ q.pairs) :
    order.foldl (DeviceOp.read devs) q.mem a = file x := by
  have hnd : (q.pairs.map Prod.snd).Nodup := by
    rw [hq.pairs_snd]
    exact ((hq.apart hmode).sublist (drop_sublist _ _)).sublist (take_sublist _ _)
  rw [foldl_read]
  refine writeAll_eq ?_ ?_ q.mem
  · have hx : x ∈ q.offsets := hq.pairs_fst ▸ mem_map_of_mem hp
    obtain ⟨r, hr, hlo, hhi⟩ := hq.row_of_offset hlayout hx
    have hat : (deviceOffset g (x - r.segOffset), a) ∈
        bytesAt g nShift r (deviceOf g nShift (x - r.segOffset)) q.pairs :=
      mem_map.mpr ⟨(x, a), mem_filter.mpr ⟨hp, by simp [hlo, hhi]⟩, rfl⟩
    obtain ⟨op, hop, hkey⟩ := h.complete r hr _ (deviceOf_lt _) (ne_nil_of_mem hat)
    obtain ⟨_, _, htransfers⟩ := h.transfers op hop
    obtain ⟨hrow, hdev⟩ := Prod.mk.inj hkey
    refine mem_flatMap.mpr ⟨op, hop, mem_map.mpr
      ⟨(deviceOffset g (x - r.segOffset), a), ?_, ?_⟩⟩
    · rw [htransfers, hrow, hdev]
      exact hat
    · rw [hkey, hholds r hr x hlo hhi]
  · -- a byte of memory is transferred for one offset only
    intro w hw hwa
    obtain ⟨op, hop, hw⟩ := mem_flatMap.mp hw
    obtain ⟨⟨d, a'⟩, hd, rfl⟩ := mem_map.mp hw
    obtain ⟨y, hy, hval⟩ := h.read_value hholds hop hd
    obtain rfl : a' = a := hwa
    have hsame : (y, a') = (x, a') := inj_on_of_nodup_map hnd hy hp rfl
    rw [hval, (Prod.mk.inj hsame).1]

/-- A read returns the file at the requested offsets. -/
theorem Serves.read_back (hmode : q.write = false) (h : Serves g nShift rows q order)
    (hholds : Holds g nShift rows file devs) :
    q.memory.map (order.foldl (DeviceOp.read devs) q.mem) = q.offsets.map file := by
  rw [← hq.pairs_snd, ← hq.pairs_fst, map_map, map_map]
  exact map_congr_left fun p hp => h.read_pair hq hlayout hmode hholds hp

end

end

/-- Requests in sequence on devices that hold the file. -/
theorem readsLatest_of_holds (hlayout : ValidLayout rows total)
    (hshifts : ShiftsFit g nShift rows) (hholds : Holds g nShift rows file devs) {qs}
    (hqs : ∀ q ∈ qs, q.Ok total) :
    ReadsLatest g nShift rows file devs qs ↔ ∀ q ∈ qs, TableFits g rows q := by
  induction qs generalizing file devs with
  | nil => simp [ReadsLatest]
  | cons q qs ih =>
    have hq := hqs q (by simp)
    have hrest : ∀ q ∈ qs, q.Ok total := fun q' hq' => hqs q' (by simp [hq'])
    rw [forall_mem_cons, ← hq.ops_isSome_iff hlayout hshifts, ReadsLatest]
    constructor
    · rintro ⟨ops, hops, hrun⟩
      have hserves := hq.serves hlayout hshifts hops
      refine ⟨⟨ops, hops⟩, ?_⟩
      have hlater := hrun ops (List.Perm.refl ops)
      cases hmode : q.write with
      | true =>
        rw [if_pos hmode] at hlater
        exact (ih (hserves.holds_write hholds) hrest).mp hlater
      | false =>
        rw [if_neg (by simp [hmode])] at hlater
        exact (ih hholds hrest).mp hlater.2
    · rintro ⟨⟨ops, hops⟩, hfits⟩
      refine ⟨ops, hops, fun order hperm => ?_⟩
      have hserves := (hq.serves hlayout hshifts hops).perm hperm
      cases hmode : q.write with
      | true =>
        exact (ih (hserves.holds_write hholds) hrest).mpr hfits
      | false =>
        exact ⟨hserves.read_back hq hlayout hmode hholds, (ih hholds hrest).mpr hfits⟩

/-- A LUN segment is a flat byte array for a run of requests exactly when every request of
the run has table entries for the devices of all its rows. -/
theorem lun_flat_array_iff (g : Geometry) (nShift : Nat) {rows : List SeglunRow} {total : Int}
    (hlayout : ValidLayout rows total) (hshifts : ShiftsFit g nShift rows) (devs : Devices)
    (qs : List RwReq) (hqs : ∀ q ∈ qs, q.Ok total) :
    ReadsLatest g nShift rows (segmentByte g nShift rows devs) devs qs ↔
      ∀ q ∈ qs, TableFits g rows q :=
  readsLatest_of_holds hlayout hshifts (holds_segmentByte hlayout.ordered devs) hqs

/-- A write over two rows of two devices and a read of its last bytes. -/
theorem lun_flat_array_two_rows :
    ReadsLatest ⟨2, 2, 2, by decide, by decide, by decide, by decide⟩ 1
      [⟨0, 3, 2, 4⟩, ⟨4, 7, 2, 4⟩]
      (segmentByte ⟨2, 2, 2, by decide, by decide, by decide, by decide⟩ 1
        [⟨0, 3, 2, 4⟩, ⟨4, 7, 2, 4⟩] fun _ _ => 0)
      (fun _ _ => 0)
      [⟨true, [⟨1, 6⟩], ⟨8, [⟨0, 3⟩, ⟨10, 5⟩]⟩, 1, fun a => UInt8.ofNat a.toNat⟩,
        ⟨false, [⟨5, 2⟩, ⟨0, 1⟩], ⟨3, [⟨0, 3⟩]⟩, 0, fun _ => 0⟩] :=
  (lun_flat_array_iff _ _ (show ValidLayout _ 8 from
    ⟨by decide, by decide, fun x hlo hhi => by simp; omega⟩) (by decide) _ _ (by
      intro q hq
      simp only [mem_cons, not_mem_nil, or_false] at hq
      rcases hq with rfl | rfl
      · exact ⟨by decide, by decide, by decide, by decide, by decide, by decide⟩
      · exact ⟨by decide, by decide, by decide, by decide, fun _ => by decide, by decide⟩)).mpr (by
    intro q hq
    simp only [mem_cons, not_mem_nil, or_false] at hq
    rcases hq with rfl | rfl
    · exact .inr (by decide)
    · exact .inr (by decide))

/-- Twelve rows on nine devices need 108 entries. -/
theorem lun_overruns_table :
    let g : Geometry := ⟨9, 1, 1, by decide, by decide, by decide, by decide⟩
    let rows : List SeglunRow := (List.range 12).map fun k : Nat => ⟨9 * k, 9 * k + 8, 1, 9⟩
    let q : RwReq := ⟨true, [⟨0, 108⟩], ⟨108, [⟨0, 108⟩]⟩, 0, fun _ => 7⟩
    ValidLayout rows 108 ∧ q.Ok 108 ∧
      ¬ReadsLatest g 1 rows (segmentByte g 1 rows fun _ _ => 0) (fun _ _ => 0) [q] := by
  intro g rows q
  refine ⟨⟨by decide, by decide, fun x hlo hhi => ?_⟩,
    ⟨by decide, by decide, by decide, by decide, by decide, by decide⟩, ?_⟩
  · refine ⟨⟨9 * (x / 9), 9 * (x / 9) + 8, 1, 9⟩, ?_, by simp only []; omega, by simp only []; omega⟩
    refine mem_map.mpr ⟨(x / 9).toNat, mem_range.mpr (by omega), ?_⟩
    have : ((x / 9).toNat : Int) = x / 9 := by omega
    rw [this]
  · rintro ⟨ops, hops, _⟩
    have hnone : q.ops g 1 rows = none := by decide
    rw [hnone] at hops
    simp at hops

/-- Requests inside the segment see one byte array as long as they fit in the tables. -/
def FlatArray (g : Geometry) (s : Seglun) : Prop :=
  ∀ nShift devs qs, ShiftsFit g nShift s.rows → (∀ q ∈ qs, RwReq.Ok s.totalSize q) →
    (ReadsLatest g nShift s.rows (segmentByte g nShift s.rows devs) devs qs ↔
      ∀ q ∈ qs, TableFits g s.rows q)

/-- Calls that grow and shrink a segment, none of which fails late, leave a flat array. -/
theorem resized_flat_array {s e} (h : LayoutInv g s e) {calls} (hcalls : Steady g s calls) :
    ∃ s', runCalls g s calls = some s' ∧ FlatArray g s' := by
  induction calls generalizing s e with
  | nil =>
    have hrow {r} (hr : r ∈ s.rows) := (h.stacked.mem hr).1
    have hlayout : ValidLayout s.rows s.totalSize := ⟨h.layoutOk.contiguous,
      fun _ hr => ⟨(hrow hr).pos, (hrow hr).segEnd⟩, h.layoutOk.covers⟩
    exact ⟨s, rfl, fun _ _ _ hshifts =>
      readsLatest_of_holds hlayout hshifts (holds_segmentByte hlayout.ordered _)⟩
  | cons c calls ih =>
    obtain ⟨p, hrun, _, hinv⟩ := h.step c
    obtain ⟨e', h'⟩ := hinv hcalls.1
    rw [runCalls_cons hrun]
    exact ih h' (hcalls.2 p hrun)

/-- Grown to two bytes and cut back to one. -/
theorem resized_flat_array_one_byte :
    let g : Geometry := ⟨1, 1, 1, by decide, by decide, by decide, by decide⟩
    ∃ s, runCalls g Seglun.empty [(2, Outcome.good), (1, Outcome.good)] = some s ∧ FlatArray g s :=
  resized_flat_array (layoutInv_empty _)
    (by simp [Steady, FailsLate, firstFailure, Outcome.good])

end LStore.Lun
