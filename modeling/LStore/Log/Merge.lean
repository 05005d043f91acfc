import LStore.Log.Truncate

/-!
# Merging a log with its base

`seglog_merge_with_base_func` copies the logged ranges into the base through a
transfer buffer. Ranges are packed into the buffer until one does not fit; then
the queued reads run, then the queued writes. A range longer than the buffer is
to be copied in chunks. At the end the log may be emptied.

## Implementation notes

The operations of a queue run at the wait, in any order: `Schedule`. (An input
queue that was waited for before starts a read when it is added; nothing else uses
the read's part of the buffer until the next wait.) A wait on a queue that never held an operation
reports the cleared status of a new queue, which is not success. Writes that are queued and
never waited for are freed with the queue. `issued` collects every operation that
addresses the transfer buffer.
-/

namespace LStore.Log

open IntervalList ByteCopy List

variable {r : SlogRange} {e : SlogRange × Int} {rs : List SlogRange}

/-- A queued operation: `len` bytes at `offset` of a child and at `bpos` of the
transfer buffer. -/
structure BufOp where
  offset : Int
  len : Int
  bpos : Int
deriving DecidableEq, Repr

/-- The operations waiting in a queue, and whether it has completed any. -/
structure OpQueue where
  ops : List BufOp
  ran : Bool

def OpQueue.new : OpQueue := ⟨[], false⟩

def OpQueue.add (q : OpQueue) (op : BufOp) : OpQueue := { q with ops := q.ops ++ [op] }

/-- The order in which the operations of a queue run. -/
structure Schedule where
  order : List BufOp → List BufOp
  perm : ∀ ops, (order ops).Perm ops

/-- The variables of `seglog_merge_with_base_func`. -/
structure MergeState where
  buffer : Int → Byte
  base : Child
  qin : OpQueue
  qout : OpQueue
  pos : Int
  issued : List BufOp

/-- Queue a read of the data segment into the transfer buffer. -/
def MergeState.addRead (st : MergeState) (op : BufOp) : MergeState :=
  { st with qin := st.qin.add op, issued := st.issued ++ [op] }

/-- Queue a write of the base segment from the transfer buffer. -/
def MergeState.addWrite (st : MergeState) (op : BufOp) : MergeState :=
  { st with qout := st.qout.add op, issued := st.issued ++ [op] }

/-- The copy a data read performs. -/
def BufOp.readCopy (data : Child) (op : BufOp) : Copy Byte := ⟨data.bytes, op.offset, op.bpos, op.len⟩

/-- The copy a base write performs. -/
def BufOp.writeCopy (buffer : Int → Byte) (op : BufOp) : Copy Byte :=
  ⟨buffer, op.bpos, op.offset, op.len⟩

variable (sched : Schedule) (data : Child) (bufsize : Int)

/-- `opque_waitall(qin)`. An error is a return with failure. -/
def waitReads (st : MergeState) : Except MergeState MergeState :=
  if st.qin.ops = [] ∧ st.qin.ran = false then
    .error st
  else
    .ok { st with
      buffer := runCopies ((sched.order st.qin.ops).map (BufOp.readCopy data)) st.buffer
      qin := ⟨[], true⟩ }

/-- `opque_waitall(qout)`. -/
def waitWrites (st : MergeState) : Except MergeState MergeState :=
  if st.qout.ops = [] ∧ st.qout.ran = false then
    .error st
  else
    .ok { st with
      base := (sched.order st.qout.ops).foldl
        (fun b op => b.write op.offset op.len st.buffer op.bpos) st.base
      qout := ⟨[], true⟩ }

/-- Run the queued reads, then the queued writes, and start over with the buffer. -/
def flush (st : MergeState) : Except MergeState MergeState := do
  let st ← waitReads sched data st
  let st ← waitWrites sched st
  return { st with qout := OpQueue.new, pos := 0 }

/-- The values of `bpos` in the chunk loop: the multiples of `bufsize` below `len`. -/
def chunkStarts (len : Int) : List Int :=
  (List.range ((len + bufsize - 1) / bufsize).toNat).map fun k => k * bufsize

/-- The chunk loop's state and the offsets of the chunk. -/
structure ChunkState where
  st : MergeState
  inOffset : Int
  outOffset : Int

/-- One chunk. The write is queued only; the test after it looks at the result of
the read again. -/
def mergeChunk (len : Int) (c : ChunkState) (bpos : Int) : Except MergeState ChunkState := do
  let blen := if len < bpos + bufsize then len - bpos else len
  let st ← waitReads sched data (c.st.addRead ⟨c.inOffset, blen, 0⟩)
  return {
    st := st.addWrite ⟨c.outOffset, blen, 0⟩
    inOffset := c.inOffset + blen
    outOffset := c.outOffset + blen }

/-- "Buffer fill so flush it": the test at the head of the main loop. -/
def flushIfFull (len : Int) (st : MergeState) : Except MergeState MergeState :=
  if bufsize < len ∨ bufsize < st.pos + len then flush sched data st else .ok st

/-- One range of the main loop. -/
def mergeRange (st : MergeState) (r : SlogRange) : Except MergeState MergeState := do
  let len := r.hi - r.lo + 1
  let st ← flushIfFull sched data bufsize len st
  if bufsize < len then
    let c ← (chunkStarts bufsize len).foldlM (mergeChunk sched data bufsize len)
      ⟨st, r.dataOffset, r.lo⟩
    return { c.st with pos := 0 }
  else
    let st := st.addRead ⟨r.dataOffset, len, st.pos⟩
    let st := st.addWrite ⟨r.lo, len, st.pos⟩
    return { st with pos := st.pos + len }

/-- The main loop. Its last pass has `len = bufsize` and no range. -/
def mergeLoop (m : Mapping) (st : MergeState) : Except MergeState MergeState := do
  let st ← m.foldlM (mergeRange sched data bufsize) st
  flushIfFull sched data bufsize bufsize st

/-- What a merge leaves behind. -/
structure MergeResult where
  seg : Seglog
  issued : List BufOp
  success : Bool

/-- `seglog_merge_with_base_func`, all child operations succeeding. -/
def seglogMergeWithBaseFunc (s : Seglog) (truncateOldLog : Bool) (buffer : Int → Byte) :
    Option MergeResult :=
  match mergeLoop sched s.dataSeg bufsize s.mapping
      ⟨buffer, s.baseSeg, OpQueue.new, OpQueue.new, 0, []⟩ with
  | .error st => some ⟨{ s with baseSeg := st.base }, st.issued, false⟩
  | .ok st =>
    let s := { s with baseSeg := st.base }
    if truncateOldLog then
      (slogTruncateRange s ⟨-1, 0 - 1, -1⟩).map fun s =>
        ⟨{ s with tableSeg := [], dataSeg := Child.empty, logSize := 0, dataSize := 0 },
          st.issued, true⟩
    else
      some ⟨s, st.issued, true⟩

/-- What a merge is for: the file reads as before, the base holds the logged
bytes, the transfer buffer is not overrun and the size is unchanged. -/
structure Merged (bufsize : Int) (s : Seglog) (r : MergeResult) : Prop where
  kept : ∀ o : Nat, (o : Int) < s.fileSize → readByte r.seg o = readByte s o
  stored : ∀ o d, lookup s.mapping o = some d → r.seg.baseSeg.bytes o = s.dataSeg.bytes d
  inside : ∀ op ∈ r.issued, 0 ≤ op.bpos ∧ op.bpos + op.len ≤ bufsize
  size : seglogSize r.seg = seglogSize s

def rangeLen (r : SlogRange) : Int := r.hi - r.lo + 1

/-- The bytes of a list of ranges. -/
def totalLen (rs : List SlogRange) : Int := (rs.map rangeLen).sum

/-- The ranges of a batch with their buffer positions, from `b` on. -/
def packed : Int → List SlogRange → List (SlogRange × Int)
  | _, [] => []
  | b, r :: rs => (r, b) :: packed (b + rangeLen r) rs

def readOp (e : SlogRange × Int) : BufOp := ⟨e.1.dataOffset, rangeLen e.1, e.2⟩

def writeOp (e : SlogRange × Int) : BufOp := ⟨e.1.lo, rangeLen e.1, e.2⟩

theorem packed_concat (b : Int) (rs : List SlogRange) (r : SlogRange) :
    packed b (rs ++ [r]) = packed b rs ++ [(r, b + totalLen rs)] := by
  induction rs generalizing b with
  | nil => simp [packed, totalLen]
  | cons x rs ih => simp [packed, ih, totalLen, add_assoc]

theorem map_fst_packed (b : Int) (rs : List SlogRange) : (packed b rs).map Prod.fst = rs := by
  induction rs generalizing b with
  | nil => rfl
  | cons r rs ih => simp [packed, ih]

theorem packed_ge {b} (hne : ∀ r ∈ rs, 0 ≤ rangeLen r) (he : e ∈ packed b rs) : b ≤ e.2 := by
  induction rs generalizing b with
  | nil => simp [packed] at he
  | cons r rs ih =>
    obtain ⟨hr, hne'⟩ := forall_mem_cons.mp hne
    rcases mem_cons.mp he with rfl | he
    · exact le_rfl
    · have := ih hne' he
      omega

/-- The buffer extents of a batch are separate. -/
theorem packed_apart {b : Int} (hne : ∀ r ∈ rs, 0 ≤ rangeLen r) (data : Child) :
    (((packed b rs).map readOp).map (BufOp.readCopy data)).Pairwise Copy.Apart := by
  induction rs generalizing b with
  | nil => exact List.Pairwise.nil
  | cons r rs ih =>
    have hrest : ∀ x ∈ rs, 0 ≤ rangeLen x := (forall_mem_cons.mp hne).2
    refine pairwise_cons.mpr ⟨?_, ih hrest⟩
    intro c hc
    obtain ⟨op, hop, rfl⟩ := mem_map.mp hc
    obtain ⟨e, he, rfl⟩ := mem_map.mp hop
    have := packed_ge hrest he
    exact .inl (by simpa [readOp, BufOp.readCopy] using this)

/-- The loop's state when `flushed` has been written to the base and `batch` is in
the queues. -/
structure Merging (data : Child) (base : Int → Byte) (bufsize : Int)
    (flushed batch : List SlogRange) (st : MergeState) : Prop where
  base : st.base.bytes = viewOf data.bytes base (lookup flushed)
  reads : st.qin.ops = (packed 0 batch).map readOp
  writes : st.qout.ops = (packed 0 batch).map writeOp
  pos : st.pos = totalLen batch
  inside : ∀ op ∈ st.issued, 0 ≤ op.bpos ∧ op.bpos + op.len ≤ bufsize

variable {sched : Schedule} {data : Child} {base : Int → Byte} {bufsize : Int}
  {flushed batch : List SlogRange} {st : MergeState}

theorem rangeLen_pos {m} (hm : Ordered m) (hr : r ∈ m) : 0 < rangeLen r := by
  have : r.lo ≤ r.hi := hm.nonempty r hr
  simp only [rangeLen]
  omega

theorem pairwise_order {cs} {f : BufOp → Copy Byte} (h : (cs.map f).Pairwise Copy.Apart) :
    ((sched.order cs).map f).Pairwise Copy.Apart :=
  (((sched.perm cs).map f).pairwise_iff fun h => h.symm).mpr h

/-- After the reads of a batch every range of it is in the buffer. -/
theorem buffer_after_reads (hne : ∀ r ∈ batch, 0 ≤ rangeLen r) (he : e ∈ packed 0 batch) {k : Int}
    (hk : 0 ≤ k) (hlt : k < rangeLen e.1) (buffer : Int → Byte) :
    runCopies ((sched.order ((packed 0 batch).map readOp)).map (BufOp.readCopy data)) buffer
      (e.2 + k) = data.bytes (e.1.dataOffset + k) := by
  have hmem : (readOp e).readCopy data ∈
      (sched.order ((packed 0 batch).map readOp)).map (BufOp.readCopy data) :=
    mem_map_of_mem ((sched.perm _).mem_iff.mpr (mem_map_of_mem he))
  rw [runCopies_inside (pairwise_order (packed_apart hne data)) hmem
    ⟨by simp only [readOp, BufOp.readCopy]; omega, by simp only [readOp, BufOp.readCopy]; omega⟩]
  simp only [readOp, BufOp.readCopy]
  congr 1
  omega

theorem bytes_foldl_write (buffer : Int → Byte) (ops : List BufOp) (b : Child) :
    (ops.foldl (fun b op => b.write op.offset op.len buffer op.bpos) b).bytes =
      runCopies (ops.map (BufOp.writeCopy buffer)) b.bytes := by
  induction ops generalizing b with
  | nil => rfl
  | cons op ops ih => rw [foldl_cons, ih]; rfl

/-- The base extents of an ordered batch are separate. -/
theorem writes_apart (hb : Ordered batch) (b : Int) (buffer : Int → Byte) :
    (((packed b batch).map writeOp).map (BufOp.writeCopy buffer)).Pairwise Copy.Apart := by
  induction batch generalizing b with
  | nil => exact List.Pairwise.nil
  | cons r rs ih =>
    obtain ⟨_, hhead, htail⟩ := ordered_cons.mp hb
    refine pairwise_cons.mpr ⟨?_, ih htail _⟩
    intro c hc
    obtain ⟨op, hop, rfl⟩ := mem_map.mp hc
    obtain ⟨e, he, rfl⟩ := mem_map.mp hop
    have hmem : e.1 ∈ rs := by
      rw [← map_fst_packed (b + rangeLen r) rs]
      exact mem_map_of_mem he
    have : r.hi < e.1.lo := hhead e.1 hmem
    refine .inl ?_
    simp only [writeOp, BufOp.writeCopy, rangeLen]
    omega

/-- Running the queues of a batch writes its ranges to the base. -/
theorem base_after_writes (hord : Ordered (flushed ++ batch)) {buffer : Int → Byte}
    (hbuf : ∀ e ∈ packed 0 batch, ∀ k, 0 ≤ k → k < rangeLen e.1 →
      buffer (e.2 + k) = data.bytes (e.1.dataOffset + k)) :
    runCopies ((sched.order ((packed 0 batch).map writeOp)).map (BufOp.writeCopy buffer))
        (viewOf data.bytes base (lookup flushed)) =
      viewOf data.bytes base (lookup (flushed ++ batch)) := by
  have hflushed : Ordered flushed := hord.sublist (sublist_append_left _ _)
  have hbatch : Ordered batch := hord.sublist (sublist_append_right _ _)
  funext o
  by_cases hin : ∃ r ∈ batch, r.lo ≤ o ∧ o ≤ r.hi
  · obtain ⟨r, hr, hlo, hhi⟩ := hin
    obtain ⟨e, he, rfl⟩ : ∃ e ∈ packed 0 batch, e.1 = r := by
      rw [← map_fst_packed 0 batch] at hr
      simpa using hr
    have hmem : (writeOp e).writeCopy buffer ∈
        (sched.order ((packed 0 batch).map writeOp)).map (BufOp.writeCopy buffer) :=
      mem_map_of_mem ((sched.perm _).mem_iff.mpr (mem_map_of_mem he))
    have hlook : lookup (flushed ++ batch) o = some (e.1.dataOffset + (o - e.1.lo)) :=
      (lookup_eq_some_iff hord).mpr ⟨e.1, mem_append_right _ hr, hlo, hhi, rfl⟩
    rw [runCopies_inside (pairwise_order (writes_apart hbatch 0 buffer)) hmem
      ⟨by simp only [writeOp, BufOp.writeCopy]; omega,
        by simp only [writeOp, BufOp.writeCopy, rangeLen]; omega⟩]
    simp only [writeOp, BufOp.writeCopy, viewOf, hlook]
    exact hbuf e he (o - e.1.lo) (by omega) (by simp only [rangeLen]; omega)
  · push Not at hin
    rw [runCopies_outside]
    · have hlook : lookup (flushed ++ batch) o = lookup flushed o := by
        refine lookup_congr hflushed hord fun d => ⟨?_, ?_⟩
        · rintro ⟨x, hx, hlo, hhi, hd⟩
          rcases mem_append.mp hx with hx | hx
          · exact ⟨x, hx, hlo, hhi, hd⟩
          · have := hin x hx hlo
            omega
        · rintro ⟨x, hx, h⟩
          exact ⟨x, mem_append_left _ hx, h⟩
      simp [viewOf, hlook]
    · intro c hc hp
      obtain ⟨op, hop, rfl⟩ := mem_map.mp hc
      obtain ⟨e, he, rfl⟩ := mem_map.mp ((sched.perm _).mem_iff.mp hop)
      have hr : e.1 ∈ batch := by
        rw [← map_fst_packed 0 batch]
        exact mem_map_of_mem he
      have := hin e.1 hr
      simp only [writeOp, BufOp.writeCopy, rangeLen] at hp
      omega

theorem flush_eq (hreads : st.qin.ops ≠ []) (hwrites : st.qout.ops ≠ []) {buffer}
    (hbuffer : buffer = runCopies ((sched.order st.qin.ops).map (BufOp.readCopy data)) st.buffer) :
    flush sched data st = .ok
      { buffer := buffer
        base := (sched.order st.qout.ops).foldl
          (fun b op => b.write op.offset op.len buffer op.bpos) st.base
        qin := ⟨[], true⟩
        qout := OpQueue.new
        pos := 0
        issued := st.issued } := by
  simp only [flush, waitReads, waitWrites, hreads, hwrites, false_and, if_false, hbuffer, bind,
    Except.bind, pure, Except.pure]

/-- A flush of a nonempty batch succeeds and moves the batch to the base. -/
theorem Merging.flush (sched : Schedule) (h : Merging data base bufsize flushed batch st)
    (hord : Ordered (flushed ++ batch)) (hne : batch ≠ []) :
    ∃ st', Log.flush sched data st = .ok st' ∧
      Merging data base bufsize (flushed ++ batch) [] st' := by
  obtain ⟨r, rs, rfl⟩ := exists_cons_of_ne_nil hne
  have hlen : ∀ x ∈ r :: rs, 0 ≤ rangeLen x := fun x hx =>
    le_of_lt (rangeLen_pos hord (mem_append_right _ hx))
  have hreads : st.qin.ops ≠ [] := by rw [h.reads]; simp [packed]
  have hwrites : st.qout.ops ≠ [] := by rw [h.writes]; simp [packed]
  refine ⟨_, flush_eq hreads hwrites rfl, ?_, rfl, rfl, rfl, h.inside⟩
  rw [bytes_foldl_write, h.base, h.reads, h.writes]
  exact base_after_writes hord fun e he k hk hlt => buffer_after_reads hlen he hk hlt _

theorem totalLen_nonneg (batch : List SlogRange) (hne : ∀ r ∈ batch, 0 ≤ rangeLen r) :
    0 ≤ totalLen batch := by
  induction batch with
  | nil => simp [totalLen]
  | cons r rs ih =>
    obtain ⟨hr, hne'⟩ := forall_mem_cons.mp hne
    have hrs := ih hne'
    simp only [totalLen, map_cons, sum_cons] at hrs ⊢
    omega

/-- Queueing a range that fits behind the batch. -/
theorem Merging.queue (h : Merging data base bufsize flushed batch st)
    (hne : ∀ x ∈ batch, 0 ≤ rangeLen x) (hfit : st.pos + rangeLen r ≤ bufsize) :
    Merging data base bufsize flushed (batch ++ [r])
      { (st.addRead ⟨r.dataOffset, rangeLen r, st.pos⟩).addWrite ⟨r.lo, rangeLen r, st.pos⟩ with
        pos := st.pos + rangeLen r } := by
  have hpos := h.pos
  have hnonneg := totalLen_nonneg _ hne
  refine ⟨h.base, ?_, ?_, ?_, ?_⟩
  · simp [MergeState.addRead, MergeState.addWrite, OpQueue.add, h.reads, packed_concat, readOp, hpos]
  · simp [MergeState.addRead, MergeState.addWrite, OpQueue.add, h.writes, packed_concat, writeOp,
      hpos]
  · simp [totalLen, hpos]
  · intro op hop
    simp only [MergeState.addRead, MergeState.addWrite, append_assoc, mem_append,
      mem_cons, not_mem_nil, or_false, singleton_append] at hop
    rcases hop with hop | rfl | rfl
    · exact h.inside op hop
    · dsimp only
      omega
    · dsimp only
      omega

/-- One range that fits the buffer: the batch is flushed first when the range does
not fit behind it. -/
theorem Merging.range (sched : Schedule) (h : Merging data base bufsize flushed batch st)
    (hord : Ordered (flushed ++ batch ++ [r])) (hfit : rangeLen r ≤ bufsize) :
    ∃ st' flushed' batch', mergeRange sched data bufsize st r = .ok st' ∧
      flushed' ++ batch' = flushed ++ batch ++ [r] ∧ batch' ≠ [] ∧
      Merging data base bufsize flushed' batch' st' := by
  have hshort : ¬bufsize < r.hi - r.lo + 1 := by
    simp only [rangeLen] at hfit
    omega
  have hsofar : Ordered (flushed ++ batch) := hord.sublist (sublist_append_left _ _)
  have hne : ∀ x ∈ batch, 0 ≤ rangeLen x := fun x hx =>
    le_of_lt (rangeLen_pos hsofar (mem_append_right _ hx))
  by_cases hfull : bufsize < st.pos + (r.hi - r.lo + 1)
  · have hbatch : batch ≠ [] := by
      rintro rfl
      have := h.pos
      simp only [totalLen, map_nil, sum_nil] at this
      omega
    obtain ⟨st₁, hrun, h₁⟩ := h.flush sched hsofar hbatch
    have hpos : st₁.pos = 0 := h₁.pos
    refine ⟨_, flushed ++ batch, [] ++ [r], ?_, by simp, by simp,
      h₁.queue (r := r) (by simp) (by omega)⟩
    simp only [mergeRange, flushIfFull, hshort, hfull, or_true, if_true, if_false, hrun]
    rfl
  · refine ⟨_, flushed, batch ++ [r], ?_, by simp, by simp, h.queue hne ?_⟩
    · simp only [mergeRange, flushIfFull, hshort, hfull, or_self, if_false]
      rfl
    · simp only [rangeLen]
      omega

/-- The loop over ranges that fit the buffer. -/
theorem Merging.ranges (sched : Schedule) (h : Merging data base bufsize flushed batch st) {m}
    (hord : Ordered (flushed ++ batch ++ m)) (hfit : ∀ r ∈ m, rangeLen r ≤ bufsize) :
    ∃ st' flushed' batch', m.foldlM (mergeRange sched data bufsize) st = .ok st' ∧
      flushed' ++ batch' = flushed ++ batch ++ m ∧ (batch ≠ [] ∨ m ≠ [] → batch' ≠ []) ∧
      Merging data base bufsize flushed' batch' st' := by
  induction m generalizing flushed batch st with
  | nil => exact ⟨st, flushed, batch, rfl, by simp, by simp, h⟩
  | cons r m ih =>
    rw [append_cons] at hord ⊢
    obtain ⟨st₁, flushed₁, batch₁, hrun, heq, hne, h₁⟩ :=
      h.range sched (hord.sublist (sublist_append_left _ _)) (hfit r (by simp))
    rw [← heq] at hord ⊢
    obtain ⟨st₂, flushed₂, batch₂, hrest, heq₂, hne₂, h₂⟩ :=
      ih h₁ hord fun x hx => hfit x (by simp [hx])
    refine ⟨st₂, flushed₂, batch₂, ?_, heq₂, fun _ => hne₂ (.inl hne), h₂⟩
    rw [foldlM_cons, hrun]
    exact hrest

/-- The loop starts with nothing flushed and nothing queued. -/
theorem merging_start (data base : Child) (bufsize : Int) (buffer : Int → Byte) :
    Merging data base.bytes bufsize [] [] ⟨buffer, base, OpQueue.new, OpQueue.new, 0, []⟩ :=
  ⟨rfl, rfl, rfl, rfl, by simp⟩

/-- When every range fits the buffer, the loop succeeds, writes every logged byte to
the base and stays inside the buffer. -/
theorem mergeLoop_fits (sched : Schedule) (data : Child) {m} (hm : Ordered m)
    (hfit : ∀ r ∈ m, rangeLen r ≤ bufsize) (b : Child) (buffer : Int → Byte) :
    ∃ st, mergeLoop sched data bufsize m ⟨buffer, b, OpQueue.new, OpQueue.new, 0, []⟩ = .ok st ∧
      st.base.bytes = viewOf data.bytes b.bytes (lookup m) ∧
      ∀ op ∈ st.issued, 0 ≤ op.bpos ∧ op.bpos + op.len ≤ bufsize := by
  obtain ⟨st₁, flushed, batch, hrun, heq, hne, h₁⟩ :=
    (merging_start data b bufsize buffer).ranges sched (by simpa using hm) hfit
  simp only [nil_append, ne_eq, not_true, false_or] at heq hne
  have hord : Ordered (flushed ++ batch) := heq ▸ hm
  by_cases hempty : batch = []
  · have hm : m = [] := by
      by_contra hcon
      exact hne hcon hempty
    subst hempty hm
    have hpos : st₁.pos = 0 := h₁.pos
    refine ⟨st₁, ?_, ?_, h₁.inside⟩
    · simp only [mergeLoop, flushIfFull, hrun, bind, Except.bind, hpos]
      simp
    · rw [h₁.base]
      simp only [append_nil] at heq
      rw [heq]
  · obtain ⟨st₂, hflush, h₂⟩ := h₁.flush sched hord hempty
    obtain ⟨r, rs, rfl⟩ := exists_cons_of_ne_nil hempty
    have hpos : 0 < st₁.pos := by
      have hr := rangeLen_pos hord (mem_append_right _ (mem_cons_self))
      have hrs := totalLen_nonneg rs fun x hx =>
        le_of_lt (rangeLen_pos hord (mem_append_right _ (mem_cons_of_mem r hx)))
      have := h₁.pos
      simp only [totalLen, map_cons, sum_cons] at this hrs
      omega
    refine ⟨st₂, ?_, ?_, h₂.inside⟩
    · have hfull : bufsize < st₁.pos + bufsize := by omega
      simp [mergeLoop, flushIfFull, hrun, bind, Except.bind, hfull, hflush]
    · rw [h₂.base, heq]

/-- The operation was issued by the time the computation ended, well or not. -/
def Issued {α : Type} (op : BufOp) (get : α → MergeState) : Except MergeState α → Prop
  | .ok a => op ∈ (get a).issued
  | .error st => op ∈ st.issued

theorem Issued.bind {α β : Type} {op} (get : α → MergeState) {get' : β → MergeState}
    {x : Except MergeState α} {f} (hx : Issued op get x)
    (hf : ∀ a, op ∈ (get a).issued → Issued op get' (f a)) : Issued op get' (x >>= f) := by
  cases x with
  | ok a => exact hf a hx
  | error st => exact hx

theorem Issued.foldlM {α ι : Type} {op} {get : α → MergeState} {f : α → ι → Except MergeState α}
    (hf : ∀ a i, op ∈ (get a).issued → Issued op get (f a i)) (l : List ι) {a}
    (ha : op ∈ (get a).issued) : Issued op get (l.foldlM f a) := by
  induction l generalizing a with
  | nil => exact ha
  | cons i l ih =>
    exact (hf a i ha).bind _ fun b hb => ih hb

variable {op : BufOp}

theorem issued_waitReads (h : op ∈ st.issued) : Issued op id (waitReads sched data st) := by
  unfold waitReads
  split_ifs <;> exact h

theorem issued_flush (h : op ∈ st.issued) : Issued op id (flush sched data st) := by
  refine (issued_waitReads h).bind _ fun st₁ h₁ => ?_
  refine Issued.bind id ?_ fun st₂ h₂ => h₂
  unfold waitWrites
  split_ifs <;> exact h₁

theorem issued_mergeChunk {len bpos : Int} {c} (h : op ∈ c.st.issued) :
    Issued op ChunkState.st (mergeChunk sched data bufsize len c bpos) := by
  refine Issued.bind id (issued_waitReads (mem_append_left _ h)) fun st₁ h₁ => ?_
  exact mem_append_left _ h₁

theorem issued_flushIfFull (len : Int) (h : op ∈ st.issued) :
    Issued op id (flushIfFull sched data bufsize len st) := by
  unfold flushIfFull
  split_ifs
  · exact issued_flush h
  · exact h

theorem issued_mergeRange (r : SlogRange) (h : op ∈ st.issued) :
    Issued op id (mergeRange sched data bufsize st r) := by
  refine Issued.bind id (issued_flushIfFull _ h) fun st₁ h₁ => ?_
  split_ifs
  · refine Issued.bind ChunkState.st ?_ fun c hc => hc
    exact Issued.foldlM (fun c bpos hc => issued_mergeChunk hc) _ h₁
  · exact mem_append_left _ (mem_append_left _ h₁)

/-- What has been issued stays issued to the end of the loop. -/
theorem issued_mergeLoop (m : Mapping) (h : op ∈ st.issued) :
    Issued op id (mergeLoop sched data bufsize m st) :=
  (Issued.foldlM (fun _ r hst => issued_mergeRange r hst) m h).bind _ fun _ h₁ =>
    issued_flushIfFull _ h₁

theorem chunkStarts_cons {len} (hbuf : 1 ≤ bufsize) (hlong : bufsize < len) :
    ∃ rest, chunkStarts bufsize len = 0 :: rest := by
  have hpos : 1 ≤ (len + bufsize - 1) / bufsize := by
    rw [Int.le_ediv_iff_mul_le (by omega)]
    omega
  obtain ⟨n, hn⟩ : ∃ n, ((len + bufsize - 1) / bufsize).toNat = n + 1 :=
    ⟨((len + bufsize - 1) / bufsize).toNat - 1, by omega⟩
  rw [chunkStarts, hn, range_succ_eq_map]
  simp

/-- A long range after a nonempty batch issues a read of the whole range into the
buffer. -/
theorem issued_long (sched : Schedule) {base : Int → Byte} {flushed batch}
    (h : Merging data base bufsize flushed batch st) (hord : Ordered (flushed ++ batch))
    (hne : batch ≠ []) (hbuf : 1 ≤ bufsize) (hlong : bufsize < rangeLen r) :
    Issued ⟨r.dataOffset, rangeLen r, 0⟩ id (mergeRange sched data bufsize st r) := by
  obtain ⟨st₁, hflush, _⟩ := h.flush sched hord hne
  obtain ⟨rest, hstarts⟩ := chunkStarts_cons hbuf hlong
  have hlong' : bufsize < r.hi - r.lo + 1 := hlong
  rw [rangeLen] at hstarts
  simp only [mergeRange, flushIfFull, hlong', true_or, if_true, hflush, hstarts, foldlM_cons]
  refine Issued.bind ChunkState.st ?_ fun c hc => hc
  refine Issued.bind ChunkState.st ?_ fun c hc =>
    Issued.foldlM (fun c bpos hc => issued_mergeChunk hc) _ hc
  refine Issued.bind id (issued_waitReads ?_) fun st₂ h₂ => mem_append_left _ h₂
  simp [MergeState.addRead, rangeLen]

theorem readByte_eq_view {s} (hs : Ordered s.mapping) (o : Nat) : readByte s o = view s o := by
  have hv : ¬OneByteGap (fun o => lookup s.mapping o ≠ none) ⟨o, 1⟩ := fun h => absurd h.1 (by simp)
  have := readEntry_shows hs 0 hv (fun _ => 0) (k := 0) (by omega) (by simp)
  simpa [readByte, seglogReadFunc, readTasks, copies] using this

variable {s : Seglog} {buffer : Int → Byte}

/-- A segment with other bytes in its data and base segments. -/
def Seglog.withBytes (s : Seglog) (data base : Int → Byte) : Seglog :=
  { s with dataSeg := { s.dataSeg with bytes := data }, baseSeg := { s.baseSeg with bytes := base } }

/-- With ranges that fit the buffer the log is merged, and emptied on request. -/
theorem merge_fits (sched : Schedule) (s : Seglog) (buffer : Int → Byte)
    (hs : Ordered s.mapping) (hlo : ∀ r ∈ s.mapping, 0 ≤ r.lo)
    (hfit : ∀ r ∈ s.mapping, rangeLen r ≤ bufsize) (trunc : Bool) :
    ∃ r, seglogMergeWithBaseFunc sched bufsize s trunc buffer = some r ∧ r.success = true ∧
      (∀ o d, lookup s.mapping o = some d → r.seg.baseSeg.bytes o = s.dataSeg.bytes d) ∧
      (∀ op ∈ r.issued, 0 ≤ op.bpos ∧ op.bpos + op.len ≤ bufsize) ∧
      seglogSize r.seg = (if trunc then 0 else seglogSize s) ∧
      (trunc = false → ∀ o : Nat, readByte r.seg o = readByte s o) := by
  obtain ⟨st, hloop, hbase, hinside⟩ := mergeLoop_fits sched s.dataSeg hs hfit
    s.baseSeg buffer
  have hstored : ∀ o d, lookup s.mapping o = some d → st.base.bytes o = s.dataSeg.bytes d := by
    intro o d hd
    simp [hbase, viewOf, hd]
  cases trunc with
  | false =>
    refine ⟨⟨{ s with baseSeg := st.base }, st.issued, true⟩, ?_, rfl, hstored, hinside, rfl, ?_⟩
    · simp [seglogMergeWithBaseFunc, hloop]
    · intro _ o
      rw [readByte_eq_view hs, readByte_eq_view (s := { s with baseSeg := st.base }) hs]
      simp only [view, viewOf, hbase]
      cases lookup s.mapping o <;> rfl
  | true =>
    obtain ⟨m, hm, _, _⟩ := truncateMapping_drops hs (-1) s.fileSize (by
      intro x hx
      have := hlo x (mem_search.mp hx).1
      omega)
    have hrun : seglogMergeWithBaseFunc sched bufsize s true buffer = some
        ⟨⟨m, 0, 0, 0, [], Child.empty, st.base⟩, st.issued, true⟩ := by
      simp [seglogMergeWithBaseFunc, hloop, slogTruncateRange, hm]
    exact ⟨_, hrun, rfl, hstored, hinside, rfl, by simp⟩

/-- A merge that keeps its promises for all contents has no range longer than the
buffer. A long first range fails on the empty queue before anything is written; a
later one reads past the end of the buffer. -/
theorem fits_of_merged (hs : Ordered s.mapping) (hbuf : 1 ≤ bufsize) {trunc}
    (h : ∀ data base, ∃ r,
      seglogMergeWithBaseFunc sched bufsize (s.withBytes data base) trunc buffer = some r ∧
      Merged bufsize (s.withBytes data base) r) : ∀ r ∈ s.mapping, rangeLen r ≤ bufsize := by
  by_contra hlong
  push Not at hlong
  obtain ⟨x, hx, hxlong⟩ := hlong
  obtain ⟨y, hy⟩ : ∃ y, s.mapping.find? (fun r => decide (bufsize < rangeLen r)) = some y := by
    rw [← Option.isSome_iff_exists, List.find?_isSome]
    exact ⟨x, hx, by simpa using hxlong⟩
  obtain ⟨hylong, pre, post, hm, hpre⟩ := List.find?_eq_some_iff_append.mp hy
  simp only [decide_eq_true_eq] at hylong
  obtain ⟨r, hrun, hok⟩ := h (fun _ => 0) (fun _ => 1)
  obtain ⟨t, ht⟩ : ∃ t, t = s.withBytes (fun _ => 0) fun _ => 1 := ⟨_, rfl⟩
  have hmap : t.mapping = s.mapping := by rw [ht]; rfl
  rw [← ht] at hrun hok
  simp only [seglogMergeWithBaseFunc, hmap] at hrun
  have hfit : ∀ r ∈ pre, rangeLen r ≤ bufsize := by
    intro r hr
    simpa using hpre r hr
  have hymem : y ∈ s.mapping := by rw [hm]; simp
  have hpreord : Ordered pre := hs.sublist (hm ▸ sublist_append_left _ _)
  obtain ⟨st₁, flushed, batch, hfold, heq, hne, h₁⟩ :=
    (merging_start t.dataSeg t.baseSeg bufsize buffer).ranges sched (by simpa using hpreord) hfit
  simp only [nil_append, ne_eq, not_true, false_or] at heq hne
  by_cases hempty : pre = []
  · subst hempty
    have hlong' : bufsize < y.hi - y.lo + 1 := hylong
    have hloop : mergeLoop sched t.dataSeg bufsize s.mapping
        ⟨buffer, t.baseSeg, OpQueue.new, OpQueue.new, 0, []⟩ =
        .error ⟨buffer, t.baseSeg, OpQueue.new, OpQueue.new, 0, []⟩ := by
      rw [hm]
      simp [mergeLoop, mergeRange, flushIfFull, hlong', flush, waitReads, OpQueue.new, bind, Except.bind]
    rw [hloop] at hrun
    cases hrun
    have hlook : lookup s.mapping y.lo = some (y.dataOffset + (y.lo - y.lo)) :=
      (lookup_eq_some_iff hs).mpr ⟨y, hymem, le_rfl, hs.nonempty y hymem, rfl⟩
    have := hok.stored y.lo _ (hmap ▸ hlook)
    rw [ht] at this
    exact absurd this (show ¬(1 : Byte) = 0 by decide)
  · have hissued : Issued ⟨y.dataOffset, rangeLen y, 0⟩ id
        (mergeLoop sched t.dataSeg bufsize s.mapping
          ⟨buffer, t.baseSeg, OpQueue.new, OpQueue.new, 0, []⟩) := by
      have hlongstep := issued_long sched h₁ (heq ▸ hpreord) (hne hempty) hbuf hylong
      rw [hm, mergeLoop, foldlM_append, hfold]
      simp only [foldlM_cons, bind_assoc]
      refine hlongstep.bind _ fun st₂ h₂ => ?_
      exact issued_mergeLoop post h₂
    have hout : (⟨y.dataOffset, rangeLen y, 0⟩ : BufOp) ∈ r.issued := by
      split at hrun
      · rename_i st hst
        rw [hst] at hissued
        cases hrun
        exact hissued
      · rename_i st hst
        rw [hst] at hissued
        split_ifs at hrun
        · obtain ⟨_, _, rfl⟩ := Option.map_eq_some_iff.mp hrun
          exact hissued
        · cases hrun
          exact hissued
    have := (hok.inside _ hout).2
    dsimp only at this
    omega

/-- Whatever the bytes, a merge does what it is for exactly when no range is longer
than the buffer and, if the log is to be emptied, the file is empty. -/
theorem merged_iff (hs : Ordered s.mapping) (hlo : ∀ r ∈ s.mapping, 0 ≤ r.lo)
    (hbuf : 1 ≤ bufsize) (trunc : Bool) :
    (∀ data base, ∃ r,
      seglogMergeWithBaseFunc sched bufsize (s.withBytes data base) trunc buffer = some r ∧
        Merged bufsize (s.withBytes data base) r) ↔
      (∀ r ∈ s.mapping, r.hi - r.lo + 1 ≤ bufsize) ∧ (trunc = true → s.fileSize = 0) := by
  constructor
  · intro h
    have hfit := fits_of_merged hs hbuf h
    refine ⟨hfit, ?_⟩
    rintro rfl
    obtain ⟨r, hrun, hok⟩ := h (fun _ => 0) (fun _ => 0)
    obtain ⟨r', hrun', _, _, _, hsize, _⟩ := merge_fits sched
      (s.withBytes (fun _ => 0) fun _ => 0) buffer hs hlo hfit true
    obtain rfl : r = r' := Option.some.inj (hrun.symm.trans hrun')
    exact hok.size.symm.trans hsize
  · rintro ⟨hfit, htrunc⟩ data base
    obtain ⟨r, hrun, _, hstored, hinside, hsize, hkept⟩ := merge_fits sched
      (s.withBytes data base) buffer hs hlo hfit trunc
    refine ⟨r, hrun, ?_, hstored, hinside, ?_⟩
    · intro o ho
      cases trunc with
      | false => exact hkept rfl o
      | true =>
        have := htrunc rfl
        simp only [Seglog.withBytes] at ho
        omega
    · rw [hsize]
      cases trunc with
      | false => rfl
      | true => exact (htrunc rfl).symm

/-- A log over three bytes with its first byte logged, merged through one byte. -/
theorem merged_iff_short :
    let s : Seglog := ⟨[⟨0, 0, 0⟩], 3, 24, 1, [⟨0, 1, 0⟩], Child.empty, Child.empty⟩
    (∀ r ∈ s.mapping, r.hi - r.lo + 1 ≤ 1) ∧ ∀ data base, ∃ r,
      seglogMergeWithBaseFunc ⟨id, fun _ => List.Perm.refl _⟩ 1 (s.withBytes data base) false
          (fun _ => 0) = some r ∧ Merged 1 (s.withBytes data base) r :=
  ⟨by simp, (merged_iff (ordered_cons.mpr ⟨by decide, by simp, ordered_nil⟩) (by simp) (by decide)
    false).mpr ⟨by simp, by simp⟩⟩

/-- A logged byte and a logged range of three, merged through two bytes: three
bytes are read into the buffer. A logged byte merged and the log emptied: the
file of one byte has none. -/
theorem merge_overruns_and_empties :
    (seglogMergeWithBaseFunc ⟨id, fun _ => List.Perm.refl _⟩ 2
        ⟨[⟨0, 0, 0⟩, ⟨2, 4, 1⟩], 5, 48, 4, [⟨0, 1, 0⟩, ⟨2, 3, 1⟩], Child.empty, Child.empty⟩ false
        (fun _ => 0)).map (fun r => decide (⟨1, 3, 0⟩ ∈ r.issued)) = some true ∧
      (seglogMergeWithBaseFunc ⟨id, fun _ => List.Perm.refl _⟩ 2
        ⟨[⟨0, 0, 0⟩], 1, 24, 1, [⟨0, 1, 0⟩], Child.empty, Child.empty⟩ true
        (fun _ => 0)).map (fun r => seglogSize r.seg) = some 0 := by
  decide

end LStore.Log
