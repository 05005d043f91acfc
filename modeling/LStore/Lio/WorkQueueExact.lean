import LStore.Lio.WorkQueueBatch
import Mathlib.Algebra.Order.BigOperators.Ring.Finset

/-!
# When merging is transparent

`wq_op_new` captures the whole rest of the user's buffer, whatever the length of the iovec, and a
merge lays the captured pieces end to end. So an operation that uses only a part of its buffer
shifts the bytes of every operation merged behind it. An operation that starts in the middle of a
buffer piece captures a pointer into a frame that is gone when it is followed.
-/

namespace LStore.Lio

open Toolbox List MachineInt

variable {e : Request × Nat} {es c : List (Request × Nat)} {n : Nat} {ts g : List Task} {t : Task}
variable {x : Int} {k : Nat} {gs : List (List Task)}

theorem cachedSlot_fresh {tb pos} (hpos : pos < totalLen tb.iov) :
    ∃ pre v post, tb.iov = pre ++ v :: post ∧ totalLen pre ≤ pos ∧
      pos < totalLen pre + v.iovLen ∧
      ∀ n, cachedSlot tb pos (tbufVar n) = (pre.length, totalLen pre) := by
  obtain ⟨pre, v, post, hiov, hle, hlt, hslot⟩ :=
    @cachedSlot_spec ⟨totalLen tb.iov, tb.iov⟩ pos TbufVar.init rfl (TbufVar.valid_init _) hpos
  refine ⟨pre, v, post, hiov, hle, hlt, fun n => ?_⟩
  rw [← hslot]
  simp only [cachedSlot, tbufVar, TbufVar.init, sizeT_zero]

theorem addresses_eq_nil {vs} (h : totalLen vs = 0) : addresses vs = [] := by
  rw [← length_eq_zero_iff, length_addresses, h]

/-- An accepted operation starts at the beginning of its buffer and captures all of it, or it
starts inside a piece and captures the scratch element of `wq_op_new`. -/
theorem wqOpNew_cases {op} (hacc : wqAccepts op = true)
    (hlay : op.buffer.totalBytes ≤ totalLen op.buffer.iov) :
    (op.boff = 0 ∧ ∃ vs, (wqOpNew op).iov = .user vs ∧ addresses vs = addresses op.buffer.iov) ∨
      (0 < op.boff ∧ (wqOpNew op).iov = .deadFrame 1) := by
  have hpos : op.boff < op.buffer.totalBytes := by
    by_contra hout
    rw [wqAccepts, tbNextBlock, tbNextBlockWith, if_pos (by omega)] at hacc
    exact Bool.false_ne_true hacc
  obtain ⟨pre, v, post, hiov, hle, hlt, hslot⟩ :=
    cachedSlot_fresh (lt_of_lt_of_le hpos hlay)
  have hdrop : op.buffer.iov.drop pre.length = v :: post := by rw [hiov, drop_left]
  have hspace : ¬op.buffer.totalBytes ≤ op.boff := by omega
  have hwhole : op.buffer.totalBytes = op.buffer.totalBytes - op.boff → op.boff = 0 := by omega
  have hfirst : op.boff = 0 → totalLen pre = 0 := by omega
  have hnext : ∀ n, tbNextBlock op.buffer op.boff (tbufVar n) = _ := fun n =>
    tbNextBlockWith_of_slot id hspace (hslot n)
  simp only [hdrop, boundaryBlock, id, middleBlock, show ∀ n, (tbufVar n).nbytes = n from fun _ => rfl]
    at hnext
  by_cases hedge : i32 (op.boff - totalLen pre : Nat) = 0
  · left
    have hzero : op.boff = 0 := by
      rw [wqAccepts, hnext, if_pos hedge, if_pos (Nat.le_add_left _ _), if_neg (lt_irrefl _)] at hacc
      exact hwhole (of_decide_eq_true hacc)
    have hscratch : inScratch op.buffer op.boff
        (tbufVar (op.buffer.totalBytes - op.boff)) = false := by
      simp [inScratch, tbufVar, hzero]
    refine ⟨hzero, v :: post, ?_, ?_⟩
    · rw [wqOpNew, hnext, if_pos hedge, if_pos (by simp [hzero])]
      simp [hscratch]
    · rw [hiov, addresses_append, addresses_eq_nil (hfirst hzero), nil_append]
  · right
    have hpos : 0 < op.boff := by
      refine Nat.pos_of_ne_zero fun hzero => hedge ?_
      simp [hzero]
    have hscratch : inScratch op.buffer op.boff
        (tbufVar (op.buffer.totalBytes - op.boff)) = true := by
      simp [inScratch, hslot, if_neg hedge]
    refine ⟨hpos, ?_⟩
    rw [wqOpNew, hnext, if_neg hedge]
    simp [hscratch]

/-- What a merged operation has of its chunk. -/
structure MergedFor (arr : List Iovec) (ts : List Task) (m : Merged) (g : List Task) : Prop where
  memory : (arr.drop m.iov).take m.nIov = allPieces g
  tasks : m.tasks ts = g
  offset : m.offset = (g.head?.map fun t => t.op.offset).getD 0
  len : m.len = totalLenOf g

/-- The merged operations and their chunks, one by one. -/
theorem mergedList_forall₂ {arr suf} (hne : ∀ g ∈ gs, g ≠ [])
    (harr : arr.drop k = allPieces gs.flatten ++ suf) (hts : ts.drop n = gs.flatten) :
    List.Forall₂ (MergedFor arr ts) (mergedList k n gs) gs := by
  induction gs generalizing k n with
  | nil => exact List.Forall₂.nil
  | cons g gs ih =>
    have hpos : 0 < g.length := length_pos_iff.mpr (hne g mem_cons_self)
    rw [flatten_cons, allPieces_append, append_assoc] at harr
    rw [flatten_cons] at hts
    refine List.Forall₂.cons ⟨?_, ?_, rfl, rfl⟩ (ih ?_ ?_ ?_)
    · change (arr.drop k).take (allPieces g).length = _
      rw [harr, take_left]
    · change (ts.drop n).take (n + g.length - 1 + 1 - n) = g
      rw [hts, show n + g.length - 1 + 1 - n = g.length by omega, take_left]
    · exact fun c hc => hne c (mem_cons_of_mem g hc)
    · rw [← drop_drop, harr, drop_left]
    · rw [← drop_drop, hts, drop_left]

/-- The tasks of all merged operations are the tasks, each once. -/
theorem flatMap_indices_mergedList (hne : ∀ g ∈ gs, g ≠ []) :
    (mergedList k n gs).flatMap Merged.indices = List.range' n gs.flatten.length := by
  induction gs generalizing k n with
  | nil => rfl
  | cons g gs ih =>
    have hpos : 0 < g.length := length_pos_iff.mpr (hne g mem_cons_self)
    have hhead : (mergedOf k n g).indices = List.range' n g.length := by
      change List.range' n (n + g.length - 1 + 1 - n) = _
      rw [show n + g.length - 1 + 1 - n = g.length by omega]
    rw [mergedList, flatMap_cons, hhead, ih fun c hc => hne c (mem_cons_of_mem g hc),
      flatten_cons, length_append, List.range'_append_1]

/-- The bytes of a chunk against its memory, glued. -/
def chunkTransfers (g : List Task) : List (Nat × Int) :=
  (List.range' ((g.head?.map fun t => t.op.offset).getD 0) (totalLenOf g)).zip
    (addresses (allPieces g))

/-- A chunk moves the bytes of its tasks. -/
def ChunkMoves (g : List Task) : Prop := chunkTransfers g = g.flatMap fun t => t.op.transfers

theorem MergedFor.transfers_eq {arr m} (h : MergedFor arr ts m g) :
    m.transfers arr = chunkTransfers g := by
  rw [Merged.transfers, h.memory, h.offset, h.len, chunkTransfers]

theorem completions_fst {σ} (ts : List Task) (outcome : Merged → σ) (ms : List Merged) :
    (ms.flatMap (Merged.completions ts outcome)).map Prod.fst = ms.flatMap Merged.indices := by
  rw [map_flatMap]
  congr 1
  funext m
  simp [Merged.completions, Function.comp_def]

/-- The merged operations serve the tasks exactly when each chunk moves the bytes of its
tasks. -/
theorem serves_mergedList_iff {arr suf} (harr : arr.drop k = allPieces ts ++ suf) :
    Serves arr ts (mergedList k 0 (groups ts)) ↔
      ∀ g ∈ groups ts, ChunkMoves g := by
  have hflat : (groups ts).flatten = ts := flatten_splitBy linked ts
  have hne : ∀ g ∈ groups ts, g ≠ [] := fun g hg => ne_nil_of_mem_splitBy hg
  have hmatch : List.Forall₂ (MergedFor arr ts) (mergedList k 0 (groups ts)) (groups ts) :=
    mergedList_forall₂ hne (by rw [hflat, harr]) (by rw [hflat, drop_zero])
  have hmoves : (∀ m ∈ mergedList k 0 (groups ts),
      m.transfers arr = (m.tasks ts).flatMap fun t => t.op.transfers) ↔
      ∀ g ∈ groups ts, ChunkMoves g := by
    refine Glue.forall_iff_of_forall₂ hmatch ?_
    intro m g hfor
    rw [hfor.transfers_eq, hfor.tasks, ChunkMoves]
  constructor
  · exact fun h => hmoves.mp h.moves
  · intro h
    refine ⟨hmoves.mpr h, ?_⟩
    intro σ outcome done hdone
    rw [completions_fst]
    refine (hdone.flatMap_right _).trans ?_
    rw [flatMap_indices_mergedList hne, hflat, range_eq_range']

/-- The memory an operation is to use. -/
def Task.wanted (t : Task) : List Int :=
  ((addresses t.op.buffer.iov).drop t.op.boff).take t.op.len

/-- The memory a merged operation uses for a task that is not shifted. -/
def Task.given (t : Task) : List Int := addresses t.pieces

/-- The file extent of a task lies in its buffer. -/
def Task.Fits (t : Task) : Prop := t.op.boff + t.op.len ≤ totalLen t.op.buffer.iov

theorem Task.Fits.length_wanted (h : t.Fits) : t.wanted.length = t.op.len := by
  have hfits : t.op.boff + t.op.len ≤ totalLen t.op.buffer.iov := h
  rw [wanted, length_take, length_drop, length_addresses]
  omega

theorem Task.Fits.transfers_eq (h : t.Fits) :
    t.op.transfers = (List.range' t.op.offset t.op.len).zip t.wanted := by
  refine (Glue.zip_eq_zip_iff ?_).mpr (List.take_prefix _ _)
  rw [h.length_wanted, length_range']

theorem addresses_allPieces (g : List Task) : addresses (allPieces g) = g.flatMap Task.given := by
  induction g with
  | nil => rfl
  | cons t g ih => rw [allPieces_cons, addresses_append, ih, flatMap_cons, Task.given]

/-- Tasks that follow each other in the file cover one extent. -/
theorem range_chain (h : (t :: g).IsChain fun a b => linked a b = true) :
    List.range' t.op.offset (totalLenOf (t :: g)) =
      (t :: g).flatMap fun t => List.range' t.op.offset t.op.len := by
  induction g generalizing t with
  | nil => simp
  | cons u g ih =>
    rw [isChain_cons_cons] at h
    have hnext : t.op.offset + t.op.len = u.op.offset := of_decide_eq_true h.1
    rw [flatMap_cons, ← ih h.2, ← hnext, List.range'_append_1, totalLenOf_cons t]

/-- A chunk moves the bytes of its tasks exactly when the memory they want is in front of the
memory they are given. -/
theorem chunkTransfers_eq_iff (hchain : g.IsChain fun a b => linked a b = true)
    (hfits : ∀ t ∈ g, t.Fits) :
    ChunkMoves g ↔ g.flatMap Task.wanted <+: g.flatMap Task.given := by
  have hlen : ∀ t ∈ g, (List.range' t.op.offset t.op.len).length = t.wanted.length := by
    intro t ht
    rw [(hfits t ht).length_wanted, length_range']
  have hown : (g.flatMap fun t => t.op.transfers) =
      (g.flatMap fun t => List.range' t.op.offset t.op.len).zip (g.flatMap Task.wanted) := by
    rw [← Glue.flatMap_zip g hlen]
    exact flatMap_congr fun t ht => (hfits t ht).transfers_eq
  have hrange : List.range' ((g.head?.map fun t => t.op.offset).getD 0) (totalLenOf g) =
      g.flatMap fun t => List.range' t.op.offset t.op.len := by
    cases g with
    | nil => rfl
    | cons t g => exact range_chain hchain
  rw [ChunkMoves, hown, chunkTransfers, hrange, addresses_allPieces]
  refine Glue.zip_eq_zip_iff ?_
  rw [length_flatMap, length_flatMap]
  exact congrArg List.sum (map_congr_left hlen)

theorem totalLen_buffer (r : Request) (base : Nat → Int) :
    totalLen (r.buffer base).iov = r.lens.sum := by
  rw [totalLen, Request.buffer]
  congr 1
  exact ext_getElem (by simp) (by simp)

theorem Request.Queued.fits_task (h : e.1.Queued) (μ : Memory) : (μ.task e).Fits := by
  have hlen := totalLen_buffer e.1 (μ.base e.2)
  have hfits := h.fits
  have hlayout := h.layout
  change e.1.boff + e.1.len ≤ totalLen (e.1.buffer (μ.base e.2)).iov
  omega

/-- What a queued request is given. -/
theorem Request.Queued.given_cases (h : e.1.Queued) (μ : Memory) :
    (e.1.boff = 0 ∧ (μ.task e).given = addresses (e.1.buffer (μ.base e.2)).iov) ∨
      (0 < e.1.boff ∧ (μ.task e).given = addresses [μ.dead e.2 0]) := by
  obtain ⟨hzero, vs, hiov, hvs⟩ | ⟨hpos, hiov⟩ := wqOpNew_cases (h.accepted (μ.base e.2))
    (by rw [Request.op, totalLen_buffer]; exact h.layout)
  · refine .inl ⟨hzero, ?_⟩
    rw [Task.given, Memory.task, WqOp.pieces, Memory.wqOp, hiov]
    exact hvs
  · refine .inr ⟨hpos, ?_⟩
    rw [Task.given, Memory.task, WqOp.pieces, Memory.wqOp, hiov]
    rfl

theorem Request.Queued.wanted_eq_nil_iff (h : e.1.Queued) (μ : Memory) :
    (μ.task e).wanted = [] ↔ e.1.len = 0 := by
  rw [← length_eq_zero_iff, (h.fits_task μ).length_wanted]
  rfl

/-- A request that starts its buffer is given its memory, and maybe more. -/
theorem Memory.wanted_of_boff (μ : Memory) (hzero : e.1.boff = 0) :
    (μ.task e).wanted = (addresses (e.1.buffer (μ.base e.2)).iov).take e.1.len := by
  change ((addresses (e.1.buffer (μ.base e.2)).iov).drop e.1.boff).take e.1.len = _
  rw [hzero, drop_zero]

/-- Requests with whole seams have seamless buffers, wherever they are. -/
theorem seamless_of_whole (μ : Memory) (hq : ∀ e ∈ c, e.1.Queued)
    (hstart : ∀ e ∈ c, 0 < e.1.len → e.1.boff = 0)
    (hwhole : c.Pairwise fun e f => 0 < f.1.len → e.1.WholeBuffer) :
    Glue.Seamless (fun e => (μ.task e).wanted) (fun e => (μ.task e).given) c := by
  refine ⟨?_, ?_⟩
  · intro e he
    by_cases hlen : e.1.len = 0
    · rw [((hq e he).wanted_eq_nil_iff μ).mpr hlen]
      exact nil_prefix
    · have hzero := hstart e he (by omega)
      rw [μ.wanted_of_boff hzero]
      obtain ⟨-, hgiven⟩ | ⟨hpos, -⟩ := (hq e he).given_cases μ
      · rw [hgiven]
        exact take_prefix _ _
      · omega
  · refine hwhole.imp_of_mem ?_
    intro e f he hf hseam hne
    have hlen : f.1.len ≠ 0 := fun hzero => hne (((hq f hf).wanted_eq_nil_iff μ).mpr hzero)
    obtain ⟨hzero, hsum⟩ := hseam (by omega)
    obtain ⟨-, hgiven⟩ | ⟨hpos, -⟩ := (hq e he).given_cases μ
    · rw [hgiven, μ.wanted_of_boff hzero, take_of_length_le]
      rw [length_addresses, totalLen_buffer, hsum]
    · omega

/-- A memory that keeps the buffers of the operations apart, with a piece in the dead frame that
is in none of them. -/
def apartMemory (n : Nat) : Memory := ⟨fun i _ => i * n, fun _ _ => ⟨-1, 1⟩⟩

theorem mem_addresses {vs} :
    x ∈ addresses vs ↔ ∃ v ∈ vs, v.iovBase ≤ x ∧ x < v.iovBase + v.iovLen := by
  induction vs with
  | nil => simp
  | cons v vs ih => simp [ih]

/-- The wanted bytes of the operation at a position lie in the block of that position. -/
theorem apartMemory_block (hn : ∀ k ∈ e.1.lens, k ≤ n)
    (hx : x ∈ addresses (e.1.buffer ((apartMemory n).base e.2)).iov) :
    (e.2 * n : Int) ≤ x ∧ x < (e.2 + 1) * n := by
  obtain ⟨v, hv, hle, hlt⟩ := mem_addresses.mp hx
  obtain ⟨i, hi, rfl⟩ := mem_mapIdx.mp hv
  have hk := hn _ (getElem_mem hi)
  change x < (e.2 * n : Int) + (e.1.lens[i] : Nat) at hlt
  refine ⟨hle, ?_⟩
  rw [add_mul]
  omega

theorem mem_of_mem_wanted (h : x ∈ t.wanted) : x ∈ addresses t.op.buffer.iov :=
  mem_of_mem_drop (mem_of_mem_take h)

/-- Blocks of different positions do not meet. -/
theorem blocks_apart {i j : Nat} (hi : (i * n : Int) ≤ x ∧ x < (i + 1) * n)
    (hj : (j * n : Int) ≤ x ∧ x < (j + 1) * n) : i = j := by
  have hn : (0 : Int) ≤ n := Int.natCast_nonneg n
  have hij : (i : Int) < j + 1 := Int.lt_of_mul_lt_mul_right (Int.lt_of_le_of_lt hi.1 hj.2) hn
  have hji : (j : Int) < i + 1 := Int.lt_of_mul_lt_mul_right (Int.lt_of_le_of_lt hj.1 hi.2) hn
  omega

theorem addresses_deadPiece (n i : Nat) : addresses [(apartMemory n).dead i 0] = [-1] := rfl

theorem deadPiece_notMem_wanted (hn : ∀ k ∈ e.1.lens, k ≤ n) :
    (-1 : Int) ∉ ((apartMemory n).task e).wanted := by
  intro hmem
  have hle := (apartMemory_block hn (mem_of_mem_wanted hmem)).1
  have hnonneg : (0 : Int) ≤ e.2 * n := Int.mul_nonneg (Int.natCast_nonneg _) (Int.natCast_nonneg _)
  omega

/-- With buffers apart, nobody is given what another wants. -/
theorem separated_apart (hq : ∀ e ∈ c, e.1.Queued) (hn : ∀ e ∈ c, ∀ k ∈ e.1.lens, k ≤ n)
    (hpos : c.Pairwise fun e f => e.2 ≠ f.2) :
    Glue.Separated (fun e => ((apartMemory n).task e).wanted)
      (fun e => ((apartMemory n).task e).given) c := by
  refine ⟨?_, hpos.imp_of_mem ?_⟩
  · intro e he
    obtain ⟨hzero, hgiven⟩ | ⟨-, hgiven⟩ := (hq e he).given_cases (apartMemory n)
    · left
      rw [hgiven, (apartMemory n).wanted_of_boff hzero]
      exact take_prefix _ _
    · right
      rw [hgiven, addresses_deadPiece]
      exact ⟨cons_ne_nil _ _, by simpa using deadPiece_notMem_wanted (hn e he)⟩
  · intro e f he hf hne x hx hwant
    obtain ⟨-, hgiven⟩ | ⟨-, hgiven⟩ := (hq e he).given_cases (apartMemory n)
    · rw [hgiven] at hx
      exact hne (blocks_apart (apartMemory_block (hn e he) hx)
        (apartMemory_block (hn f hf) (mem_of_mem_wanted hwant)))
    · rw [hgiven, addresses_deadPiece, mem_singleton] at hx
      exact deadPiece_notMem_wanted (hn f hf) (hx ▸ hwant)

/-- With buffers apart, seamless buffers have whole seams. -/
theorem whole_of_seamless (hq : ∀ e ∈ c, e.1.Queued) (hn : ∀ e ∈ c, ∀ k ∈ e.1.lens, k ≤ n)
    (h : Glue.Seamless (fun e => ((apartMemory n).task e).wanted)
      (fun e => ((apartMemory n).task e).given) c) :
    (∀ e ∈ c, 0 < e.1.len → e.1.boff = 0) ∧
      c.Pairwise fun e f => 0 < f.1.len → e.1.WholeBuffer := by
  refine ⟨?_, h.whole.imp_of_mem ?_⟩
  · intro e he hlen
    have hstart := h.starts e he
    obtain ⟨hzero, -⟩ | ⟨-, hgiven⟩ := (hq e he).given_cases (apartMemory n)
    · exact hzero
    · rw [hgiven, addresses_deadPiece] at hstart
      have hne : ((apartMemory n).task e).wanted ≠ [] := by
        rw [Ne, (hq e he).wanted_eq_nil_iff]
        omega
      obtain ⟨x, xs, hx⟩ := exists_cons_of_ne_nil hne
      rw [hx, cons_prefix_cons] at hstart
      refine absurd ?_ (deadPiece_notMem_wanted (hn e he))
      rw [hx, ← hstart.1]
      exact mem_cons_self
  · intro e f he hf hseam hlen
    have hsame := hseam fun hnil => by
      rw [(hq f hf).wanted_eq_nil_iff] at hnil
      omega
    obtain ⟨hzero, hgiven⟩ | ⟨-, hgiven⟩ := (hq e he).given_cases (apartMemory n)
    · refine ⟨hzero, ?_⟩
      have hlens := congrArg List.length hsame
      rw [hgiven, length_addresses, totalLen_buffer, ((hq e he).fits_task _).length_wanted] at hlens
      exact hlens
    · rw [hgiven, addresses_deadPiece] at hsame
      exact absurd (hsame ▸ mem_cons_self) (deadPiece_notMem_wanted (hn e he))

theorem mem_of_mem_chunk (hc : c ∈ es.splitBy Request.touches) (he : e ∈ c) : e ∈ es := by
  rw [← flatten_splitBy Request.touches es]
  exact mem_flatten_of_mem hc he

/-- The merged operations move the right bytes when the buffers of every chunk are glued in
order. -/
theorem chunks_move_iff (μ : Memory) (hq : ∀ e ∈ es, e.1.Queued) :
    (∀ g ∈ groups (es.map μ.task), ChunkMoves g) ↔
      ∀ c ∈ es.splitBy Request.touches, (c.flatMap fun e => (μ.task e).wanted) <+:
        c.flatMap fun e => (μ.task e).given := by
  rw [groups, Glue.splitBy_map μ.task linked es, forall_mem_map]
  refine forall₂_congr fun c hc => ?_
  rw [chunkTransfers_eq_iff, flatMap_map, flatMap_map]
  · rw [isChain_map]
    exact isChain_of_mem_splitBy hc
  · intro t ht
    obtain ⟨e, he, rfl⟩ := mem_map.mp ht
    exact (hq e (mem_of_mem_chunk hc he)).fits_task μ

variable (b : Batch) (mode : RwMode)

theorem Batch.mem_order (he : e ∈ b.order mode) : e ∈ b.queue.zipIdx :=
  mem_of_mem_take (mem_filter.mp ((b.perm mode).mem_iff.mp he)).1

theorem Batch.queued_order : ∀ e ∈ b.order mode, e.1.Queued :=
  fun _ he => b.queued _ (fst_mem_of_mem_zipIdx (b.mem_order mode he))

theorem Batch.positions_order : (b.order mode).Pairwise fun e f => e.2 ≠ f.2 := by
  have hall : b.queue.zipIdx.Pairwise fun e f => e.2 ≠ f.2 := by
    have hnodup : (b.queue.zipIdx.map Prod.snd).Nodup := by
      rw [zipIdx_map_snd]
      exact nodup_range'
    exact pairwise_map.mp hnodup
  have hsub : ((b.queue.zipIdx.take b.maxTasks).filter fun e => decide (e.1.mode = mode)).Sublist
      b.queue.zipIdx := filter_sublist.trans (take_sublist _ _)
  exact (b.perm mode).symm.pairwise (hall.sublist hsub) fun h => h.symm

theorem Batch.length_order : (b.order mode).length ≤ b.maxTasks := by
  rw [(b.perm mode).length_eq]
  refine (length_filter_le _ _).trans ?_
  rw [length_take]
  exact min_le_left _ _

theorem Batch.exists_bound : ∃ n, ∀ e ∈ b.order mode, ∀ k ∈ e.1.lens, k ≤ n := by
  refine ⟨((b.order mode).map fun e => e.1.lens.sum).sum, ?_⟩
  intro e he k hk
  exact (le_sum_of_mem hk).trans (le_sum_of_mem (mem_map_of_mem he))

/-- The `iovec` entries of both kinds are those of the fetched operations. -/
theorem sum_modes (l : List (Request × Nat)) (f : Request × Nat → Nat) :
    ((l.filter fun e => decide (e.1.mode = .read)).map f).sum +
      ((l.filter fun e => decide (e.1.mode = .write)).map f).sum = (l.map f).sum := by
  induction l with
  | nil => rfl
  | cons e l ih =>
    cases hmode : e.1.mode <;> simp [hmode, ← ih] <;> omega

theorem Memory.length_pieces (μ : Memory) (e : Request × Nat) :
    (μ.task e).pieces.length = (μ.wqOp e).nIov := by
  change ((μ.wqOp e).pieces (μ.dead e.2)).length = (μ.wqOp e).nIov
  rw [WqOp.pieces, WqOp.nIov]
  split <;> simp

theorem Batch.length_pieces (b : Batch) (μ : Memory) (mode : RwMode) :
    (allPieces (b.tasks μ mode)).length =
      (((b.queue.zipIdx.take b.maxTasks).filter fun e => decide (e.1.mode = mode)).map
        fun e => (μ.wqOp e).nIov).sum := by
  rw [allPieces, length_flatMap, Batch.tasks, map_map, ((b.perm mode).map _).sum_eq]
  congr 2
  funext e
  exact μ.length_pieces e

/-- The array has room for the entries of all tasks. -/
theorem Batch.room (b : Batch) (μ : Memory) :
    (allPieces (b.tasks μ .read)).length + (allPieces (b.tasks μ .write)).length ≤
      fetchMaxIov (b.ctx μ) := by
  have hneeded : (allPieces (b.tasks μ .read)).length + (allPieces (b.tasks μ .write)).length =
      neededIov (b.ctx μ) := by
    rw [b.length_pieces, b.length_pieces, sum_modes, neededIov, Batch.ctx, ← map_take,
      map_map]
    rfl
  rw [hneeded, fetchMaxIov]
  split <;> omega

theorem length_groups_le (ts : List Task) : (groups ts).length ≤ ts.length := by
  have hne : ∀ g ∈ groups ts, 1 ≤ g.length :=
    fun g hg => length_pos_iff.mpr (ne_nil_of_mem_splitBy hg)
  calc (groups ts).length = ((groups ts).map List.length).length := (length_map _).symm
    _ ≤ ((groups ts).map List.length).sum :=
        length_le_sum_of_one_le _ (by simpa using hne)
    _ = ts.length := by rw [← length_flatten, groups, flatten_splitBy]

theorem length_mergedList (k n : Nat) (gs : List (List Task)) :
    (mergedList k n gs).length = gs.length := by
  induction gs generalizing k n with
  | nil => rfl
  | cons g gs ih => rw [mergedList, length_cons, ih, length_cons]

theorem Merging.inBounds {pre suf st ctx} (h : Merging k pre suf (groups ts) (mergeTasks st ts))
    (hts : ts.length ≤ ctx.maxTasks) (hiov : MergeInBounds st ts) : InBounds ctx st ts := by
  refine ⟨hts, ?_, hiov⟩
  rw [← length_reverse, h.merged, length_mergedList]
  exact (length_groups_le ts).trans hts

/-- With room in the array, merging is transparent exactly when each chunk moves the bytes of
its tasks. -/
theorem transparent_iff_chunks {ctx iov reads writes}
    (hroom : (allPieces reads).length + (allPieces writes).length ≤ iov.length)
    (hreads : reads.length ≤ ctx.maxTasks) (hwrites : writes.length ≤ ctx.maxTasks) :
    Transparent ctx iov reads writes ↔
      (∀ g ∈ groups reads, ChunkMoves g) ∧ ∀ g ∈ groups writes, ChunkMoves g := by
  obtain ⟨hsafe, hfirst⟩ : MergeInBounds ⟨iov, 0, []⟩ reads ∧
      Merging 0 [] (iov.drop (allPieces reads).length) (groups reads)
        (mergeTasks ⟨iov, 0, []⟩ reads) := mergeTasks_spec reads rfl rfl (by omega)
  have hflat : ∀ ts : List Task, (groups ts).flatten = ts := flatten_splitBy linked
  have hiov := hfirst.iov
  have hnIov := hfirst.nIov
  rw [hflat, nil_append] at hiov
  rw [hflat, zero_add] at hnIov
  obtain ⟨hsafe', hsecond⟩ := mergeTasks_spec writes hiov hnIov.symm
    (by rw [length_drop]; omega)
  have hiov' := hsecond.iov
  rw [hflat] at hiov'
  have hr : Serves (sortAndMerge iov reads writes).iov reads (mergedList 0 0 (groups reads)) ↔ _ :=
    serves_mergedList_iff (by rw [drop_zero, sortAndMerge, hiov', append_assoc])
  have hw : Serves (sortAndMerge iov reads writes).iov writes
      (mergedList (allPieces reads).length 0 (groups writes)) ↔ _ :=
    serves_mergedList_iff (by rw [sortAndMerge, hiov', append_assoc, drop_left])
  have hmr : (sortAndMerge iov reads writes).reads = mergedList 0 0 (groups reads) := hfirst.merged
  have hmw : (sortAndMerge iov reads writes).writes =
      mergedList (allPieces reads).length 0 (groups writes) := by
    rw [← hnIov]
    exact hsecond.merged
  constructor
  · intro h
    exact ⟨hr.mp (hmr ▸ h.readsServed), hw.mp (hmw ▸ h.writesServed)⟩
  · intro h
    exact ⟨hmr ▸ hr.mpr h.1, hmw ▸ hw.mpr h.2, hfirst.inBounds hreads hsafe,
      hsecond.inBounds hwrites hsafe'⟩

/-- Requests with whole seams move the right bytes, wherever their buffers are. -/
theorem WholeSeams.move (h : WholeSeams es) (μ : Memory) (hq : ∀ e ∈ es, e.1.Queued) :
    ∀ g ∈ groups (es.map μ.task), ChunkMoves g := by
  rw [chunks_move_iff μ hq]
  intro c hc
  have hsub : ∀ e ∈ c, e ∈ es := fun e he => mem_of_mem_chunk hc he
  exact (seamless_of_whole μ (fun e he => hq e (hsub e he)) (fun e he => h.start e (hsub e he))
    (h.whole c hc)).glued

/-- Requests that move the right bytes with their buffers apart have whole seams. -/
theorem wholeSeams_of_move (hq : ∀ e ∈ es, e.1.Queued) (hn : ∀ e ∈ es, ∀ k ∈ e.1.lens, k ≤ n)
    (hpos : es.Pairwise fun e f => e.2 ≠ f.2)
    (h : ∀ g ∈ groups (es.map (apartMemory n).task), ChunkMoves g) : WholeSeams es := by
  rw [chunks_move_iff _ hq] at h
  have hchunk : ∀ c ∈ es.splitBy Request.touches,
      (∀ e ∈ c, 0 < e.1.len → e.1.boff = 0) ∧
        c.Pairwise fun e f => 0 < f.1.len → e.1.WholeBuffer := by
    intro c hc
    have hq' : ∀ e ∈ c, e.1.Queued := fun e he => hq e (mem_of_mem_chunk hc he)
    have hn' : ∀ e ∈ c, ∀ k ∈ e.1.lens, k ≤ n := fun e he => hn e (mem_of_mem_chunk hc he)
    have hsub : c.Sublist es := by
      rw [← flatten_splitBy Request.touches es]
      exact sublist_flatten_of_mem hc
    have hsep := separated_apart hq' hn' (hpos.sublist hsub)
    exact whole_of_seamless hq' hn' (hsep.seamless (h c hc))
  refine ⟨?_, fun c hc => (hchunk c hc).2⟩
  intro e he
  rw [← flatten_splitBy Request.touches es] at he
  obtain ⟨c, hc, hec⟩ := mem_flatten.mp he
  exact (hchunk c hc).1 e hec

/-- Merging is transparent, wherever the buffers lie and whatever the dead frame holds, exactly
for the batches that start their buffers at the beginning and use the whole of the buffers in
front of a seam. -/
theorem transparent_iff_wholeSeams (b : Batch) :
    (∀ μ iov, iov.length = fetchMaxIov (b.ctx μ) →
        Transparent (b.ctx μ) iov (b.tasks μ .read) (b.tasks μ .write)) ↔
      ∀ mode, WholeSeams (b.order mode) := by
  have hlen : ∀ μ mode, (b.tasks μ mode).length ≤ (b.ctx μ).maxTasks := by
    intro μ mode
    rw [Batch.tasks, length_map]
    exact b.length_order mode
  have hiff : ∀ μ iov, iov.length = fetchMaxIov (b.ctx μ) →
      (Transparent (b.ctx μ) iov (b.tasks μ .read) (b.tasks μ .write) ↔ _) := fun μ iov hiov =>
    transparent_iff_chunks (hiov ▸ b.room μ) (hlen μ .read) (hlen μ .write)
  constructor
  · intro h mode
    obtain ⟨n, hn⟩ := b.exists_bound mode
    refine wholeSeams_of_move (b.queued_order mode) hn (b.positions_order mode) ?_
    have hboth := (hiff (apartMemory n) _ length_replicate).mp
      (h (apartMemory n) (List.replicate _ ⟨0, 0⟩) length_replicate)
    cases mode with
    | read => exact hboth.1
    | write => exact hboth.2
  · intro h μ iov hiov
    exact (hiff μ iov hiov).mpr
      ⟨(h .read).move μ (b.queued_order .read), (h .write).move μ (b.queued_order .write)⟩

/-- Two writes of four bytes that follow each other in the file, each from a buffer of eight. -/
def halfBufferWrites : Batch where
  maxTasks := 2
  maxIov := 4
  queue := [⟨.write, 0, 4, 8, [8], 0⟩, ⟨.write, 4, 4, 8, [8], 0⟩]
  queued := by
    have haccepts : ∀ base offset, wqAccepts (Request.op base ⟨.write, offset, 4, 8, [8], 0⟩) := by
      simp [wqAccepts, Request.op, Request.buffer, tbNextBlock, tbNextBlockWith, cachedSlot,
        findSlot, boundaryBlock, tbufVar, TbufVar.init]
    refine List.forall_mem_cons.mpr ⟨⟨by decide, by decide, fun _ => haccepts _ _⟩, ?_⟩
    exact List.forall_mem_singleton.mpr ⟨by decide, by decide, fun _ => haccepts _ _⟩
  order
    | .read => []
    | .write => [(⟨.write, 0, 4, 8, [8], 0⟩, 0), (⟨.write, 4, 4, 8, [8], 0⟩, 1)]
  perm
    | .read => List.Perm.refl _
    | .write => List.Perm.refl _
  sorted
    | .read => List.Pairwise.nil
    | .write => by simp

/-- The second write gets the rest of the first one's buffer. -/
theorem second_write_shifted :
    ¬Transparent (halfBufferWrites.ctx (apartMemory 100)) (List.replicate 4 ⟨0, 0⟩)
      (halfBufferWrites.tasks (apartMemory 100) .read)
      (halfBufferWrites.tasks (apartMemory 100) .write) := by
  intro h
  have hmoves := h.writesServed.moves ⟨0, 2, 0, 8, 0, 1⟩ (by decide)
  exact absurd hmoves (by decide)

end LStore.Lio
