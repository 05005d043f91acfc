import LStore.Jerasure.ReadSlots

/-!
# A vectored read

`Reading` is the invariant of the loop over the ranges: the operations under way have their
slots in the arrays, and those that have finished have delivered their stripes. It is kept
by submitting an operation, by finishing one and by starting over with the arrays, so it
holds however the batches are cut and in whatever order operations finish.
-/

namespace LStore.Jerasure

open List Function

open Segment (ExIovec)
open Toolbox (Tbuf TbufVar addresses)
open ByteSpan

variable {n m cs : Nat} {q : RwReq} {s : Segjerase n m cs} {child : ChildRead cs}
  {good : Nat → Bool} {dat : Nat → Fin n → Chunk cs} {st st' : ReadState n m} {i j : Nat}
  {v : ExIovec}

/-- The state with `count` more stripes of the buffer, from `boff` on. -/
structure Added (cs : Nat) (buffer : Tbuf) (boff : Nat) (st : ReadState n m) (count : Nat)
    (place : Nat → Loc) (st' : ReadState n m) : Prop where
  tbv : st'.tbv.Valid buffer
  row : st'.currStripe = st.currStripe + count
  length : st'.iov.length = st'.currStripe * (n + m)
  entries : ∃ more, st'.iov = st.iov ++ more
  entry : ∀ t < count, ∀ k : Fin (n + m), st'.iov[(st.currStripe + t) * (n + m) + k.val]? =
    some ⟨(st.currStripe + t) * (n + m) + k.val,
      stripeBases n m cs (place t) ((st.currStripe + t) * (m * cs)) k⟩
  offsets : ∃ more, st'.straddleOffset = st.straddleOffset ++ more
  placed : ∀ t < count,
    (∃ a, place t = .user a ∧
      ∀ x < n * cs, (addresses buffer.iov)[boff + t * (n * cs) + x]? = some (a + (x : Int))) ∨
    (∃ b, place t = .straddle b 0 ∧ st.straddleOffset.length ≤ b ∧
      st'.straddleOffset[b]? = some (boff + t * (n * cs)))
  owner : ∀ b, st.straddleOffset.length ≤ b → b < st'.straddleOffset.length →
    ∃ t < count, place t = .straddle b 0
  same : st' = { st with
    tbv := st'.tbv
    currStripe := st'.currStripe
    iov := st'.iov
    straddleOffset := st'.straddleOffset }

theorem addReadStripes_concat (buffer : Tbuf) (count boff : Nat) (st : ReadState n m) :
    addReadStripes n m cs buffer (count + 1) boff st =
      addReadStripe n m cs buffer (boff + count * (n * cs))
        (addReadStripes n m cs buffer count boff st) := by
  induction count generalizing boff st with
  | zero => simp [addReadStripes]
  | succ count ih =>
    rw [addReadStripes, ih, addReadStripes]
    congr 1
    rw [Nat.succ_mul]
    omega

variable {buffer : Tbuf} {boff count : Nat} {place : Nat → Loc}

section

variable (htot : buffer.totalBytes = Toolbox.totalLen buffer.iov)
  (hbytes : buffer.totalBytes ≤ 2147483648)
include htot hbytes

theorem Added.step (hsize : 1 ≤ n * cs)
    (hroom : boff + (count + 1) * (n * cs) ≤ buffer.totalBytes)
    (h : Added cs buffer boff st count place st') :
    ∃ place', Added cs buffer boff st (count + 1) place'
      (addReadStripe n m cs buffer (boff + count * (n * cs)) st') := by
  rw [Nat.succ_mul] at hroom
  have hblock := nextStripe_spec htot hbytes h.tbv hsize
    (show boff + count * (n * cs) + n * cs ≤ buffer.totalBytes by omega)
  have hlen : boff + count * (n * cs) + n * cs ≤ (addresses buffer.iov).length := by
    rw [Toolbox.length_addresses, ← htot]
    omega
  have hquick := fun p => quickBase_spec (p := p) hblock hlen
  obtain ⟨tbv', htbv'⟩ : ∃ x, x = nextStripe (n * cs) buffer (boff + count * (n * cs)) st'.tbv :=
    ⟨_, rfl⟩
  rw [← htbv'] at hblock hquick
  obtain ⟨p, hp⟩ : ∃ x, x =
    (quickBase (n * cs) tbv').getD (.straddle st'.straddleOffset.length 0) := ⟨_, rfl⟩
  have hfew : ∀ t < count, update place count p t = place t := fun t ht =>
    update_of_ne (by omega) _ _
  have hnew : (addReadStripe n m cs buffer (boff + count * (n * cs)) st').iov = st'.iov ++
      (List.finRange (n + m)).map fun k => ⟨st'.currStripe * (n + m) + k.val,
        stripeBases n m cs p (st'.currStripe * (m * cs)) k⟩ := by
    rw [addReadStripe, ← htbv', ← hp]
  have hoffs : (addReadStripe n m cs buffer (boff + count * (n * cs)) st').straddleOffset =
      if (quickBase (n * cs) tbv').isSome then st'.straddleOffset
      else st'.straddleOffset ++ [boff + count * (n * cs)] := by
    rw [addReadStripe, ← htbv']
  refine ⟨update place count p, ?_, ?_, ?_, ?_, ?_, ?_, ?_, ?_, ?_⟩
  · rw [addReadStripe, ← htbv']
    exact hblock.valid
  · change st'.currStripe + 1 = _
    rw [h.row]
    omega
  · rw [hnew, length_append, length_map, length_finRange, h.length]
    exact (Nat.succ_mul _ _).symm
  · obtain ⟨more, hmore⟩ := h.entries
    exact ⟨_, by rw [hnew, hmore, append_assoc]⟩
  · intro t ht k
    rw [hnew]
    by_cases htc : t = count
    · subst htc
      rw [update_self, ← h.row, ← h.length, List.getElem?_append_right (by omega),
        Nat.add_sub_cancel_left, List.getElem?_map, List.getElem?_eq_getElem (by simp),
        getElem_finRange]
      rfl
    · rw [hfew t (by omega), List.getElem?_append_left, h.entry t (by omega) k]
      exact (List.getElem?_eq_some_iff.mp (h.entry t (by omega) k)).1
  · obtain ⟨more, hmore⟩ := h.offsets
    rw [hoffs]
    split
    · exact ⟨more, hmore⟩
    · exact ⟨_, by rw [hmore, append_assoc]⟩
  · intro t ht
    by_cases htc : t = count
    · subst htc
      rw [update_self, hp]
      cases hcase : quickBase (n * cs) tbv' with
      | some p' =>
        obtain ⟨a, rfl, ha⟩ := hquick p' hcase
        exact .inl ⟨a, rfl, ha⟩
      | none =>
        obtain ⟨more, hmore⟩ := h.offsets
        refine .inr ⟨_, rfl, by rw [hmore, length_append]; omega, ?_⟩
        rw [hoffs, hcase]
        simp
    · rw [hfew t (by omega)]
      rcases h.placed t (by omega) with hplace | ⟨b, hb, hle, hget⟩
      · exact .inl hplace
      · refine .inr ⟨b, hb, hle, ?_⟩
        rw [hoffs]
        split
        · exact hget
        · rw [List.getElem?_append_left (List.getElem?_eq_some_iff.mp hget).1, hget]
  · intro b hlo hhi
    by_cases hold : b < st'.straddleOffset.length
    · obtain ⟨t, ht, hb⟩ := h.owner b hlo hold
      exact ⟨t, by omega, by rw [hfew t ht, hb]⟩
    · rw [hoffs] at hhi
      cases hcase : quickBase (n * cs) tbv' with
      | some p' => simp [hcase, hold] at hhi
      | none =>
        rw [hcase] at hhi hp
        simp only [Option.isSome_none, Bool.false_eq_true, if_false, length_append,
          length_singleton] at hhi
        refine ⟨count, by omega, ?_⟩
        rw [update_self, hp, Option.getD_none]
        congr 1
        omega
  · rw [h.same]
    rfl

/-- The stripes of a range are added one after another. -/
theorem added_addReadStripes (hsize : 1 ≤ n * cs) (htbv : st.tbv.Valid buffer)
    (hlen : st.iov.length = st.currStripe * (n + m)) (count : Nat)
    (hroom : boff + count * (n * cs) ≤ buffer.totalBytes) :
    ∃ place, Added cs buffer boff st count place (addReadStripes n m cs buffer count boff st) := by
  induction count with
  | zero =>
    refine ⟨fun _ => default, htbv, rfl, hlen, ⟨[], by simp [addReadStripes]⟩,
      fun t ht => absurd ht (Nat.not_lt_zero t), ⟨[], by simp [addReadStripes]⟩,
      fun t ht => absurd ht (Nat.not_lt_zero t), fun b hlo hhi => ?_, rfl⟩
    exact absurd hhi (by simpa [addReadStripes] using hlo)
  | succ count ih =>
    rw [addReadStripes_concat]
    have hless : count * (n * cs) ≤ (count + 1) * (n * cs) :=
      Nat.mul_le_mul_right _ (Nat.le_succ _)
    obtain ⟨place, h⟩ := ih (by omega)
    exact h.step htot hbytes hsize hroom

end

/-- The slot of an operation under way. -/
structure Ready (cs : Nat) (q : RwReq) (st : ReadState n m) (j : Nat) (v : ExIovec) (g : Slot) :
    Prop where
  first : g.first = firstStripe n cs v
  pos : g.pos = q.posAt n cs j
  count : g.count = nstripes n cs v
  info : st.info[j]? = some ⟨g.first * (n + m), g.row * (n + m), g.count, g.count * (n + m),
    g.straddles, g.straddleCount⟩
  placed : g.Placed q.buffer (n * cs) st.straddleOffset
  listed : g.Listed cs st

/-- The stripes of a range are in the caller's buffer, as far as they were accepted. -/
def Delivered (q : RwReq) (good : Nat → Bool) (dat : Nat → Fin n → Chunk cs) (mem : Mem)
    (j : Nat) (v : ExIovec) : Prop :=
  ∀ u < nstripes n cs v, good (firstStripe n cs v + u) = true →
    stripeData n cs q.buffer mem (q.posAt n cs j + u * (n * cs)) = dat (firstStripe n cs v + u)

/-- All stripes of a range are accepted. -/
def AllGood (n cs : Nat) (good : Nat → Bool) (v : ExIovec) : Prop :=
  ∀ u < nstripes n cs v, good (firstStripe n cs v + u) = true

/-- The invariant of a read that has submitted `i` operations, of which those in `pend` are
under way. -/
structure Reading (q : RwReq) (good : Nat → Bool) (dat : Nat → Fin n → Chunk cs)
    (st : ReadState n m) (i : Nat) (pend : List Nat) : Prop where
  info : st.info.length = i
  bytes : q.boff + st.currBytes = q.posAt n cs i
  tbv : st.tbv.Valid q.buffer
  rows : st.iov.length = st.currStripe * (n + m)
  straddles : st.straddleOffset.length =
    (st.info.getLast?.map fun i => i.straddleStart + i.straddleCount).getD 0
  nodup : pend.Nodup
  ready : ∀ j ∈ pend, ∃ v g, q.iov[j]? = some v ∧ Ready cs q st j v g
  done : ∀ j < i, j ∉ pend → ∀ v, q.iov[j]? = some v → Delivered q good dat st.mem j v
  ok : st.ok = true ↔
    ∀ j < i, j ∉ pend → ∀ v, q.iov[j]? = some v → AllGood n cs good v
  small : Small st.brute

variable {pend rest : List Nat}

theorem Reading.perm (h : Reading q good dat st i pend) (hperm : rest.Perm pend) :
    Reading q good dat st i rest := by
  refine { h with
    nodup := hperm.nodup_iff.mpr h.nodup
    ready := fun j hj => h.ready j (hperm.mem_iff.mp hj)
    done := fun j hj hmem => h.done j hj (mt hperm.mem_iff.mpr hmem)
    ok := ?_ }
  rw [h.ok]
  simp [hperm.mem_iff]

/-- The buffer of another range is outside of a slot. -/
theorem Ready.outside {g} (hq : q.Ok n m cs) {v w} (hv : q.iov[i]? = some v)
    (hw : q.iov[j]? = some w) (hne : j ≠ i) (h : Ready cs q st i v g) {y}
    (hy : y < nstripes n cs w * (n * cs)) :
    g.Outside q.buffer (n * cs) ((addresses q.buffer.iov).getD (q.posAt n cs j + y) 0) := by
  intro z hz heq
  have hroom := hq.room_at hw
  have hlen : q.posAt n cs j + y < (addresses q.buffer.iov).length := by omega
  rw [getD_eq_getElem _ _ hlen, ← List.getElem?_eq_getElem hlen] at heq
  have hidx := (List.getElem?_inj hlen hq.nodup).mp heq.symm
  rw [h.count] at hz
  rw [h.pos] at hidx
  rcases lt_or_gt_of_ne hne with hlt | hlt
  · have : q.posAt n cs j + nstripes n cs w * (n * cs) ≤ q.posAt n cs i :=
      RwReq.posAt_before hw hlt
    omega
  · have : q.posAt n cs i + nstripes n cs v * (n * cs) ≤ q.posAt n cs j :=
      RwReq.posAt_before hv hlt
    omega

theorem Delivered.frame {mem mem' w} (h : Delivered q good dat mem j w)
    (hsame : ∀ y < nstripes n cs w * (n * cs), mem' (bufferLoc q.buffer (q.posAt n cs j + y)) =
      mem (bufferLoc q.buffer (q.posAt n cs j + y))) : Delivered q good dat mem' j w := by
  intro u hu hgood
  rw [← h u hu hgood]
  funext x y
  rw [stripeData, stripeData, add_assoc]
  exact hsame _ (mul_add_lt hu (mul_add_lt x.isLt y.isLt))

variable (hpos : 0 < n) (hq : q.Ok n m cs) (hsettled : ∀ v ∈ q.iov, ∀ u < nstripes n cs v,
    Settled s child good dat (firstStripe n cs v + u))

include hpos hq hsettled

/-- Finishing an operation. -/
theorem Reading.finish (h : Reading q good dat st i (j :: rest)) :
    Reading q good dat (finishRead s child q.buffer st j) i rest := by
  obtain ⟨v, g, hv, hready⟩ := h.ready j (by simp)
  have hnodup := nodup_cons.mp h.nodup
  have hvmem : v ∈ q.iov := mem_of_getElem? hv
  have hji : j < i := by
    rw [← h.info]
    exact (List.getElem?_eq_some_iff.mp hready.info).1
  have hfin : g.Finished q.buffer good dat st (finishRead s child q.buffer st j) := by
    refine hready.placed.finishRead_spec hpos hready.listed hq.nodup hready.info ?_ h.small
    intro u hu
    rw [hready.first]
    exact hsettled v hvmem u (hready.count ▸ hu)
  obtain ⟨mem, magic, ok, brute, hst'⟩ : ∃ mem magic ok brute,
      finishRead s child q.buffer st j = { st with mem, magic, ok, brute } :=
    ⟨_, _, _, _, hfin.same⟩
  rw [hst'] at hfin ⊢
  have hgood : (List.range g.count).all (fun u => good (g.first + u)) = true ↔
      AllGood n cs good v := by
    rw [all_eq_true, hready.first, hready.count]
    simp only [mem_range]
    rfl
  refine { h with nodup := hnodup.2, ready := ?_, done := ?_, ok := ?_, small := hfin.small }
  · intro j' hj'
    obtain ⟨v', g', hv', hr⟩ := h.ready j' (by simp [hj'])
    exact ⟨v', g', hv', { hr with }⟩
  · intro j' hj' hrest w hw
    by_cases hjj : j' = j
    · subst hjj
      obtain rfl : v = w := Option.some.inj (hv.symm.trans hw)
      intro u hu hok
      rw [← hready.pos, hfin.delivered u (hready.count ▸ hu) (hready.first ▸ hok), hready.first]
    · refine (h.done j' hj' (by simp [hjj, hrest]) w hw).frame fun y hy => ?_
      exact hfin.outside _ (hready.outside hq hv hw hjj hy)
  · rw [hfin.ok, Bool.and_eq_true, h.ok, hgood]
    constructor
    · rintro ⟨hall, hthis⟩ j' hj' hrest w hw
      by_cases hjj : j' = j
      · subst hjj
        obtain rfl : v = w := Option.some.inj (hv.symm.trans hw)
        exact hthis
      · exact hall j' hj' (by simp [hjj, hrest]) w hw
    · intro hall
      refine ⟨fun j' hj' hmem w hw => hall j' hj' (fun hr => hmem (by simp [hr])) w hw, ?_⟩
      exact hall j hji hnodup.1 v hv

theorem Reading.finishAll (pend : List Nat) (h : Reading q good dat st i pend) :
    Reading q good dat (pend.foldl (finishRead s child q.buffer) st) i [] := by
  induction pend generalizing st with
  | nil => exact h
  | cons j rest ih => exact ih (h.finish hpos hq hsettled)

theorem Reading.flush (sch : Schedule) (h : Reading q good dat st i st.queue) :
    Reading q good dat (flushReads s child sch q.buffer st) i [] := by
  have hall := (h.perm (sch.perm st.queue)).finishAll hpos hq hsettled
  rw [flushReads]
  generalize (sch.order st.queue).foldl (finishRead s child q.buffer) st = st' at hall
  exact ⟨hall.info, hall.bytes, hall.tbv, by simp, hall.straddles, nodup_nil, by simp,
    hall.done, hall.ok, hall.small⟩

omit hsettled in
/-- Submitting an operation. -/
theorem Reading.add (hcs : 0 < cs) (hv : q.iov[i]? = some v)
    (h : Reading q good dat st i st.queue) :
    Reading q good dat (addRead n m cs q v st) (i + 1) (addRead n m cs q v st).queue := by
  have hroom := hq.room_at hv
  rw [Toolbox.length_addresses, ← hq.total, ← h.bytes] at hroom
  obtain ⟨place, hadd⟩ := added_addReadStripes hq.total hq.bytes (Nat.mul_pos hpos hcs) h.tbv h.rows
    (nstripes n cs v) hroom
  have hqueue : (addRead n m cs q v st).queue = st.queue ++ [i] := by
    rw [← h.info]
    rfl
  have hlt : ∀ j ∈ st.queue, j < i := by
    intro j hj
    obtain ⟨w, g, -, hr⟩ := h.ready j hj
    rw [← h.info]
    exact (List.getElem?_eq_some_iff.mp hr.info).1
  obtain ⟨hnodup, hdone⟩ := queue_concat h.nodup hlt
  rw [hqueue, addRead]
  generalize addReadStripes n m cs q.buffer (nstripes n cs v) (q.boff + st.currBytes) st = st' at hadd
  have hst' := hadd.same
  have hmem : st'.mem = st.mem := by rw [hst']
  have hok : st'.ok = st.ok := by rw [hst']
  obtain ⟨more, hmore⟩ := hadd.offsets
  obtain ⟨fresh, hfresh⟩ := hadd.entries
  constructor
  · simp [h.info]
  · change q.boff + (st.currBytes + v.len.toNat) = _
    rw [RwReq.posAt_succ hv, ← h.bytes, hq.toNat_len (mem_of_getElem? hv)]
    omega
  · exact hadd.tbv
  · exact hadd.length
  · simp only [List.getLast?_concat, Option.map_some, Option.getD_some]
    rw [← h.straddles, hmore, length_append]
    omega
  · exact hnodup
  · intro j hj
    rcases mem_append.mp hj with hj | hj
    · obtain ⟨w, g, hw, hr⟩ := h.ready j hj
      refine ⟨w, g, hw, hr.first, hr.pos, hr.count, ?_, ?_, ?_⟩
      · rw [List.getElem?_append_left (by rw [h.info]; exact hlt j hj), hr.info]
      · refine ⟨fun t ht => ?_, hr.placed.owner, hr.placed.room⟩
        have hplace := hr.placed.place t ht
        generalize g.place t = p at hplace
        cases hplace with
        | user a ha => exact .user a ha
        | straddle b hlo hhi hoff =>
          refine .straddle b hlo hhi ?_
          rw [hmore, List.getElem?_append_left (List.getElem?_eq_some_iff.mp hoff).1, hoff]
      · intro t ht k
        have hold := hr.listed t ht k
        rw [hfresh, List.getElem?_append_left (List.getElem?_eq_some_iff.mp hold).1, hold]
    · obtain rfl : j = i := mem_singleton.mp hj
      refine ⟨v, ⟨firstStripe n cs v, q.posAt n cs j, st.currStripe, nstripes n cs v, place,
        st.straddleOffset.length, st'.straddleOffset.length - st.straddleOffset.length⟩,
        hv, rfl, rfl, rfl, ?_, ⟨?_, ?_, ?_⟩, ?_⟩
      · rw [← h.info, List.getElem?_append_right le_rfl, Nat.sub_self, h.straddles, h.rows,
          hq.childCells_eq (mem_of_getElem? hv)]
        rfl
      · intro t ht
        rw [← h.bytes]
        change Slot.PlacedAt _ _ _ _ t (place t)
        rcases hadd.placed t ht with ⟨a, hp, ha⟩ | ⟨b, hp, hlo, hget⟩
        · rw [hp]
          exact .user a ha
        · have := (List.getElem?_eq_some_iff.mp hget).1
          rw [hp]
          exact .straddle b hlo (by simp only; omega) hget
      · intro b hlo hhi
        simp only at hlo hhi
        exact hadd.owner b hlo (by omega)
      · exact hq.room_at hv
      · exact fun t ht k => hadd.entry t ht k
  · intro j hj hnot w hw
    obtain ⟨hji, hnq⟩ := (hdone j).mp ⟨hj, hnot⟩
    rw [hmem]
    exact h.done j hji hnq w hw
  · rw [hok, h.ok]
    exact forall_congr' fun j => by rw [← and_imp, ← hdone j, and_imp]
  · rw [hst']
    exact h.small

theorem Reading.loop (hcs : 0 < cs) (sch : Schedule) (len : Int) (vs : List ExIovec)
    (hvs : q.iov.drop i = vs) (hi : i ≤ q.iov.length) (h : Reading q good dat st i st.queue) :
    Reading q good dat (readLoop s child sch q len vs st) q.iov.length [] := by
  induction vs generalizing i st with
  | nil =>
    obtain rfl : i = q.iov.length := le_antisymm hi (drop_eq_nil_iff.mp hvs)
    exact h.flush hpos hq hsettled sch
  | cons v vs ih =>
    obtain ⟨hv, hrest⟩ := getElem?_of_drop hvs
    refine ih hrest (List.getElem?_eq_some_iff.mp hv).1 (Reading.add hpos hq hcs hv ?_)
    split
    · exact h.flush hpos hq hsettled sch
    · exact h

/-- The caller's buffer holds the data of all stripes of the request. -/
def Returns (q : RwReq) (dat : Nat → Fin n → Chunk cs) (mem : Mem) : Prop :=
  ∀ j v, q.iov[j]? = some v → ∀ u < nstripes n cs v,
    stripeData n cs q.buffer mem (q.posAt n cs j + u * (n * cs)) = dat (firstStripe n cs v + u)

/-- One pass accepts the request when all of its stripes are accepted, and then delivers
them. -/
theorem readAttempt_spec (hcs : 0 < cs) (sch : Schedule) (mem : Mem) (magic : Nat → Magic) :
    ((readAttempt s child sch q mem magic).ok = true ↔ ∀ v ∈ q.iov, AllGood n cs good v) ∧
    ((∀ v ∈ q.iov, AllGood n cs good v) →
      Returns q dat (readAttempt s child sch q mem magic).mem) := by
  have hstart : Reading q good dat
      (⟨[], 0, 0, 0, TbufVar.init, [], [], [], mem, magic, true, none⟩ : ReadState n m) 0 [] :=
    ⟨rfl, (q.posAt_zero n cs).symm, TbufVar.valid_init _, by simp, rfl, nodup_nil, by simp,
      fun j hj => absurd hj (Nat.not_lt_zero j), by simp, fun b hb => by simp at hb⟩
  have hend := hstart.loop hpos hq hsettled hcs sch (parityLen s q.iov) q.iov rfl (Nat.zero_le _)
  rw [readAttempt]
  refine ⟨?_, fun hall j v hv u hu => ?_⟩
  · rw [hend.ok]
    constructor
    · intro hall v hv
      obtain ⟨j, hj⟩ := mem_iff_getElem?.mp hv
      exact hall j (List.getElem?_eq_some_iff.mp hj).1 (by simp) v hj
    · intro hall j _ _ v hv
      exact hall v (mem_of_getElem? hv)
  · exact hend.done j (List.getElem?_eq_some_iff.mp hv).1 (by simp) v hv u hu
      (hall v (mem_of_getElem? hv) u hu)

/-- A read whose stripes have settled outcomes. -/
theorem segjeraseReadFunc_spec (hcs : 0 < cs) (sch : Schedule) (mem : Mem) (magic : Nat → Magic) :
    ((segjeraseReadFunc s (fun _ => child) sch q mem magic).1 = true ↔
      ∀ v ∈ q.iov, AllGood n cs good v) ∧
    ((∀ v ∈ q.iov, AllGood n cs good v) →
      Returns q dat (segjeraseReadFunc s (fun _ => child) sch q mem magic).2) := by
  rw [segjeraseReadFunc]
  split
  · exact readAttempt_spec hpos hq hsettled hcs sch _ _
  · exact readAttempt_spec hpos hq hsettled hcs sch mem magic

end LStore.Jerasure
