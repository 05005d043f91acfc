import LStore.Linear.RoundTrip

/-!
# What the status of a linear read says

`seglin_read_func` sets a success status on both branches of its test, so a read
reports success whatever became of its operations. The report is true when every
requested byte lies in a block, no operation is dropped on the way to the queue, and
the operations succeed.
-/

namespace LStore.Linear

open IntervalList Segment List

variable (blocks : List SeglinSlot) (iov : List ExIovec) (boff : Int) (outcome : SlotOp → Bool)

/-- A successful operation brings byte `k` of a range to its place in the buffer. -/
def Covers (ops : List SlotOp) (v : ExIovec) (pos k : Int) : Prop :=
  ∃ op ∈ ops, outcome op = true ∧ op.segStart ≤ v.offset + k ∧
    v.offset + k < op.segStart + op.blen ∧ op.bpos + (v.offset + k - op.segStart) = pos + k

/-- A read that reports success has covered every byte. -/
def ReportsTruly (waitall : Option (List SlotOp) → Int) (hardErrors : Int) : Prop :=
  (seglinReadFunc waitall hardErrors blocks iov boff).ok = true →
    ∀ p ∈ placed boff iov, ∀ k, 0 ≤ k → k < p.1.len →
      Covers outcome ((seglinReadFunc waitall hardErrors blocks iov boff).ops.getD []) p.1 p.2 k

/-- No operation that moves bytes is dropped: a range with bytes in one block is not
followed by another range with a block before there is a queue. -/
def KeepsBytes : List ExIovec → Prop
  | [] => True
  | v :: iov =>
    match (blocks.filter fun b => Overlaps v b).length with
    | 0 => KeepsBytes iov
    | 1 => (v.len = 0 ∧ KeepsBytes iov) ∨ ∀ w ∈ iov, ∀ b ∈ blocks, ¬Overlaps w b
    | _ => True

variable {blocks : List SeglinSlot} {iov : List ExIovec} {boff total : Int} {op : SlotOp}
  {st : OpState} {v : ExIovec}

/-- The operations of later ranges lie behind in the buffer. -/
theorem bpos_of_mem (hlen : ∀ v ∈ iov, 0 ≤ v.len) (hop : op ∈ pairOps blocks boff iov) :
    boff ≤ op.bpos := by
  obtain ⟨w, pos, b, hw, _, _, rfl⟩ := mem_pairOps.mp hop
  have := le_of_placed hlen hw
  simp only [pairOp, shared]
  omega

/-- An operation of a range with bytes moves some of them, from its first byte in the
block on. -/
theorem rangeOps_blen (h : Stacked 0 blocks total) {pos} (hop : op ∈ rangeOps blocks pos v) :
    (0 < v.len → 0 < op.blen) ∧ (v.len = 0 → op.blen = 0) ∧
      (0 < v.len → op.bpos < pos + v.len) := by
  obtain ⟨b, hb, rfl⟩ := mem_map.mp hop
  obtain ⟨hb, hover⟩ := mem_filter.mp hb
  obtain ⟨hstart, hreach⟩ : Overlaps v b := by simpa using hover
  obtain ⟨_, hlen, hend, _⟩ := h.mem hb
  simp only [pairOp, shared]
  omega

/-- Without a queue, the operations that move bytes are handed over exactly when none of
them is dropped, whatever operation is remembered from before. -/
theorem keepsBytes_iff (h : Stacked 0 blocks total) (hiov : ∀ v ∈ iov, Fits total v)
    (hq : st.q = none) :
    (∀ op ∈ pairOps blocks st.bpos iov, 0 < op.blen →
      op ∈ (iovLoop blocks iov st).handed.getD []) ↔ KeepsBytes blocks iov := by
  induction iov generalizing st with
  | nil => simp [pairOps, placed, KeepsBytes]
  | cons v iov ih =>
    have htail : ∀ w ∈ iov, Fits total w := fun w hw => hiov w (by simp [hw])
    have hlen : ∀ w ∈ iov, 0 ≤ w.len := fun w hw => (htail w hw).len_nonneg
    obtain ⟨st', hloop, hpos, hcases⟩ := iovLoop_cons h (hiov v (by simp)) iov hq
    rw [hloop, pairOps_cons, ← hpos, KeepsBytes, ← length_rangeOps st.bpos]
    rcases hops : rangeOps blocks st.bpos v with _ | ⟨gop, _ | ⟨gop', rest⟩⟩
    · rw [hops] at hcases
      exact ih htail hcases.1
    · rw [hops] at hcases
      have hnone := iovLoop_none h htail hcases.1
      obtain ⟨hsome, hzero, hbpos⟩ :=
        rangeOps_blen h (show gop ∈ rangeOps blocks st.bpos v by simp [hops])
      have hrest := ih htail hcases.1
      rw [← pairOps_eq_nil_iff st'.bpos, ← hrest, forall_mem_append,
        forall_mem_singleton]
      split_ifs at hnone with hnil
      · rw [hcases.2] at hnone
        simp [hnone, hnil]
      · -- the remembered operation gives way to one of a later range
        have hlost : 0 < v.len → gop ∉ (iovLoop blocks iov st').handed.getD [] := by
          intro hv hmem
          have := bpos_of_mem hlen (hnone.subset hmem)
          omega
        have hnn := (hiov v (by simp)).len_nonneg
        constructor
        · rintro ⟨hgop, hall⟩
          refine .inl ⟨?_, hall⟩
          by_contra hv
          exact hlost (by omega) (hgop (hsome (by omega)))
        · rintro (⟨hv, hall⟩ | hno)
          · refine ⟨fun hblen => ?_, hall⟩
            omega
          · exact absurd hno hnil
    · rw [hops] at hcases
      have hall := iovLoop_some h htail hcases
      rw [OpState.handed, hall]
      simp only [length_cons, iff_true]
      intro op hop _
      exact hop

/-- The bytes of an operation lie in a block. -/
def SlotOp.InBlock (blocks : List SeglinSlot) (op : SlotOp) : Prop :=
  ∃ b ∈ blocks, b.segOffset ≤ op.segStart ∧ op.segStart + op.blen ≤ b.segEnd + 1

/-- A property of the remembered and the queued operations. -/
def OpState.All (P : SlotOp → Prop) (st : OpState) : Prop :=
  (∀ op, st.gop = some op → P op) ∧ ∀ ops, st.q = some ops → ∀ op ∈ ops, P op

theorem OpState.All.slotLoop {P lo hi} (bs : List SeglinSlot) (hst : st.All P)
    (hnew : ∀ b ∈ bs, ∀ bpos, P (slotOp lo hi bpos b)) : (Linear.slotLoop lo hi bs st).All P := by
  induction bs generalizing st with
  | nil => exact hst
  | cons b bs ih =>
    have hb := hnew b (by simp) st.bpos
    refine ih ⟨?_, ?_⟩ fun c hc => hnew c (by simp [hc])
    · rintro op ⟨⟩
      exact hb
    · intro ops hops op hop
      obtain ⟨old, hold, rfl⟩ := Option.map_eq_some_iff.mp hops
      rcases mem_append.mp hop with hop | hop
      · split_ifs at hold
        · cases hold
          simp at hop
        · exact hst.2 old hold op hop
      · rwa [mem_singleton.mp hop]

section

variable (h : Stacked 0 blocks total)
include h

theorem OpState.All.iovLoop (hst : st.All (SlotOp.InBlock blocks)) (iov : List ExIovec) :
    (Linear.iovLoop blocks iov st).All (SlotOp.InBlock blocks) := by
  induction iov generalizing st with
  | nil => exact hst
  | cons v iov ih =>
    refine ih (hst.slotLoop _ fun b hb bpos => ?_)
    obtain ⟨hb, hmeet⟩ := mem_search.mp hb
    obtain ⟨_, hlen, hend, _⟩ := h.mem hb
    refine ⟨b, hb, ?_⟩
    simp only [SlotOp.segStart, slotOp]
    split_ifs <;> omega

/-- Whatever is requested, the operations handed over stay in the blocks. -/
theorem handed_inBlock (iov : List ExIovec) (boff : Int)
    (hop : op ∈ (iovLoop blocks iov ⟨none, none, boff⟩).handed.getD []) : op.InBlock blocks := by
  have hstart : (OpState.mk none none boff).All (SlotOp.InBlock blocks) := by
    exact ⟨(fun op hop => nomatch hop), fun ops hops => nomatch hops⟩
  obtain ⟨hgop, hq⟩ := hstart.iovLoop h iov
  set st := iovLoop blocks iov ⟨none, none, boff⟩
  cases hcase : st.q with
  | some ops =>
    rw [OpState.handed, hcase] at hop
    exact hq ops hcase op hop
  | none =>
    cases hlast : st.gop with
    | none =>
      rw [OpState.handed, hcase, hlast] at hop
      simp at hop
    | some gop =>
      rw [OpState.handed, hcase, hlast] at hop
      rw [mem_singleton.mp hop]
      exact hgop gop hlast

/-- A byte that an operation of the request covers is covered by the operation of its
range and its block only. -/
theorem covers_unique (hlen : ∀ v ∈ iov, 0 ≤ v.len) {pos b} (hv : (v, pos) ∈ placed boff iov)
    (hb : b ∈ blocks) {k} (hk : 0 ≤ k) (hk' : k < v.len)
    (hin : b.segOffset ≤ v.offset + k ∧ v.offset + k ≤ b.segEnd)
    (hop : op ∈ pairOps blocks boff iov) (hseg : op.segStart ≤ v.offset + k)
    (hseg' : v.offset + k < op.segStart + op.blen)
    (hbuf : op.bpos + (v.offset + k - op.segStart) = pos + k) : op = pairOp pos v b := by
  obtain ⟨w, pos', b', hw, hb', ⟨hstart, hreach⟩, rfl⟩ := mem_pairOps.mp hop
  obtain ⟨_, hblen', hbend', _⟩ := h.mem hb'
  simp only [SlotOp.segStart, pairOp, shared] at hseg hseg' hbuf
  have hsame : (v, pos) = (w, pos') := by
    refine placed_unique (q := pos + k) hlen hv hw (by omega) (by omega)
  cases hsame
  have hblock : b' = b := by
    by_contra hne
    have := h.segment_apart hb' hb hne
    omega
  rw [hblock]

end

/-- A read reports truly exactly when every range lies in the segment, none of its
operations is dropped, and all of them succeed. -/
theorem reportsTruly_iff (h : Stacked 0 blocks total) (hlen : ∀ v ∈ iov, 0 ≤ v.len) (boff : Int)
    (outcome : SlotOp → Bool) (waitall : Option (List SlotOp) → Int) (hardErrors : Int) :
    ReportsTruly blocks iov boff outcome waitall hardErrors ↔
      (∀ v ∈ iov, 0 < v.len → 0 ≤ v.offset ∧ v.offset + v.len ≤ total) ∧
        KeepsBytes blocks iov ∧
        ∀ op ∈ pairOps blocks boff iov, 0 < op.blen → outcome op = true := by
  have hops : (seglinReadFunc waitall hardErrors blocks iov boff).ops =
      (iovLoop blocks iov ⟨none, none, boff⟩).handed := by
    rw [seglinReadFunc]
    split_ifs <;> rfl
  have hok : (seglinReadFunc waitall hardErrors blocks iov boff).ok = true := by
    rw [seglinReadFunc]
    split_ifs <;> rfl
  rw [ReportsTruly, hops]
  simp only [hok, forall_const]
  constructor
  · intro hall
    have hinside : ∀ v ∈ iov, 0 < v.len → 0 ≤ v.offset ∧ v.offset + v.len ≤ total := by
      intro v hv hpos
      obtain ⟨pos, hp⟩ := exists_placed boff hv
      have hbyte (k : Int) (hk : 0 ≤ k) (hk' : k < v.len) :
          0 ≤ v.offset + k ∧ v.offset + k < total := by
        obtain ⟨op, hop, _, hlo, hhi, _⟩ := hall (v, pos) hp k hk hk'
        obtain ⟨b, hb, hblo, hbhi⟩ := handed_inBlock h iov boff hop
        obtain ⟨hb0, hblen, hbend, hbtot⟩ := h.mem hb
        dsimp only at hlo hhi
        omega
      have := hbyte 0 (by omega) (by omega)
      have := hbyte (v.len - 1) (by omega) (by omega)
      omega
    have hfits : ∀ v ∈ iov, Fits total v := fun v hv => ⟨hlen v hv, hinside v hv⟩
    have hsub : ∀ op ∈ (iovLoop blocks iov ⟨none, none, boff⟩).handed.getD [],
        op ∈ pairOps blocks boff iov := by
      intro op hop
      have hnone := iovLoop_none h hfits (show (OpState.mk none none boff).q = none from rfl)
      split_ifs at hnone
      · rw [hnone] at hop
        simp at hop
      · exact hnone.subset hop
    have hboth : ∀ op ∈ pairOps blocks boff iov, 0 < op.blen →
        op ∈ (iovLoop blocks iov ⟨none, none, boff⟩).handed.getD [] ∧ outcome op = true := by
      intro op hop hblen
      obtain ⟨v, pos, b, hv, hb, hover, rfl⟩ := mem_pairOps.mp hop
      obtain ⟨_, hbl, hbend, _⟩ := h.mem hb
      simp only [pairOp, shared] at hblen
      obtain ⟨op', hop', hdone, hseg, hseg', hbuf⟩ :=
        hall (v, pos) hv (shared v b - v.offset) (by simp only [shared]; omega)
          (by simp only [shared]; omega)
      have heq := covers_unique h hlen hv hb (by simp only [shared]; omega)
        (by simp only [shared]; omega) (by simp only [shared]; omega) (hsub op' hop') hseg hseg' hbuf
      exact heq ▸ ⟨hop', hdone⟩
    exact ⟨hinside, (keepsBytes_iff h hfits rfl).mp fun op hop hblen => (hboth op hop hblen).1,
      fun op hop hblen => (hboth op hop hblen).2⟩
  · rintro ⟨hinside, hkeeps, hsucceed⟩ p hp k hk hk'
    have hfits : ∀ v ∈ iov, Fits total v := fun v hv => ⟨hlen v hv, hinside v hv⟩
    obtain ⟨op, hop, hcov, hseg⟩ := h.exists_op hp (hfits p.1 (mem_of_placed hp)) hk hk'
    have hoff := (h.offset_of_covers hlen hp hk hk' hop hcov).1
    have hblen : 0 < op.blen := by omega
    exact ⟨op, (keepsBytes_iff h hfits rfl).mpr hkeeps op hop hblen, hsucceed op hop hblen, hseg.1,
      hseg.2, by omega⟩

/-- Two blocks of two bytes and a range across both of them. -/
theorem reportsTruly_across :
    ReportsTruly [⟨0, 0, 0, 1, 2⟩, ⟨1, 5, 2, 3, 2⟩] [⟨1, 2⟩] 7 (fun _ => true) (fun _ => 10) 0 :=
  (reportsTruly_iff (show Stacked 0 _ 4 by simp [Stacked]) (by decide) 7 (fun _ => true)
    (fun _ => 10) 0).mpr ⟨by decide, trivial, fun _ _ _ => rfl⟩

/-- One block, one range in it, and an operation that fails: success is reported. -/
theorem failed_read_succeeds :
    (seglinReadFunc (fun _ => 20) 0 [⟨0, 0, 0, 1, 2⟩] [⟨0, 2⟩] 0).ok = true ∧
      ¬Covers (fun _ => false)
        ((seglinReadFunc (fun _ => 20) 0 [⟨0, 0, 0, 1, 2⟩] [⟨0, 2⟩] 0).ops.getD []) ⟨0, 2⟩ 0 0 :=
  ⟨rfl, fun ⟨_, _, hfalse, _⟩ => nomatch hfalse⟩

end LStore.Linear
