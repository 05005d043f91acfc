import LStore.Lio.WorkQueue
import LStore.Base.Glue

/-!
# What the merge loop builds

The loop of `wq_sort_and_merge_tasks` cuts the sorted tasks where one does not end at the offset
of the next. Each chunk becomes one merged operation, and the entries of all tasks lie one after
the other in the `iovec` array.
-/

namespace LStore.Lio

open Toolbox List

variable {gs : List (List Task)} {st : MergeState} {g : List Task} {k : Nat}

/-- One task ends where the next begins. -/
def linked (a b : Task) : Bool := decide (a.op.fileEnd = b.op.offset)

/-- The chunks that become merged operations. -/
def groups (ts : List Task) : List (List Task) := ts.splitBy linked

/-- The entries of tasks, one after the other. -/
def allPieces (ts : List Task) : List Iovec := ts.flatMap Task.pieces

/-- The bytes of tasks. -/
def totalLenOf (ts : List Task) : Nat := (ts.map fun t => t.op.len).sum

/-- The merged operation of a chunk whose entries start at index `k` and whose tasks start at
index `n`. -/
def mergedOf (k n : Nat) (g : List Task) : Merged where
  iov := k
  nIov := (allPieces g).length
  offset := (g.head?.map fun t => t.op.offset).getD 0
  len := totalLenOf g
  taskStartIndex := n
  taskEndIndex := n + g.length - 1

/-- The merged operations of chunks that lie one after the other. -/
def mergedList : (k n : Nat) → List (List Task) → List Merged
  | _, _, [] => []
  | k, n, g :: gs =>
    mergedOf k n g :: mergedList (k + (allPieces g).length) (n + g.length) gs

@[simp] theorem allPieces_append (ts us : List Task) :
    allPieces (ts ++ us) = allPieces ts ++ allPieces us := by
  simp [allPieces]

@[simp] theorem totalLenOf_append (ts us : List Task) :
    totalLenOf (ts ++ us) = totalLenOf ts + totalLenOf us := by
  simp [totalLenOf]

@[simp] theorem allPieces_cons (t : Task) (ts : List Task) :
    allPieces (t :: ts) = t.pieces ++ allPieces ts := by
  simp [allPieces]

@[simp] theorem totalLenOf_cons (t : Task) (ts : List Task) :
    totalLenOf (t :: ts) = t.op.len + totalLenOf ts := by
  simp [totalLenOf]

@[simp] theorem allPieces_nil : allPieces [] = [] := rfl

@[simp] theorem totalLenOf_nil : totalLenOf [] = 0 := rfl

theorem mergedList_snoc (k n : Nat) (gs : List (List Task)) (g : List Task) :
    mergedList k n (gs ++ [g]) = mergedList k n gs ++
      [mergedOf (k + (allPieces gs.flatten).length) (n + gs.flatten.length) g] := by
  induction gs generalizing k n with
  | nil => simp [mergedList, allPieces]
  | cons h gs ih =>
    rw [cons_append, mergedList, ih, mergedList, flatten_cons, allPieces_append,
      length_append, length_append, add_assoc, add_assoc]
    rfl

/-- A task that continues a chunk. -/
theorem mergedOf_snoc (k n : Nat) (hg : g ≠ []) (t : Task) :
    mergedOf k n (g ++ [t]) =
      { mergedOf k n g with
        nIov := (mergedOf k n g).nIov + t.pieces.length
        taskEndIndex := n + g.length
        len := (mergedOf k n g).len + t.op.len } := by
  obtain ⟨a, g, rfl⟩ := exists_cons_of_ne_nil hg
  simp [mergedOf, add_assoc]

theorem copyAt_end {pre vs suf i} (hi : i = pre.length) :
    copyAt i vs (pre ++ suf) = pre ++ vs ++ suf.drop vs.length := by
  subst hi
  rw [copyAt, take_left, ← drop_drop, drop_left]

/-- The state of the loop after the tasks `done`, whose chunks are `gs`: the entries from index
`k` on are theirs. -/
structure Merging (k : Nat) (pre suf : List Iovec) (gs : List (List Task)) (st : MergeState) :
    Prop where
  start : pre.length = k
  iov : st.iov = pre ++ allPieces gs.flatten ++ suf
  nIov : st.nIov = k + (allPieces gs.flatten).length
  merged : st.merged.reverse = mergedList k 0 gs

theorem Merging.index {pre suf} (h : Merging k pre suf gs st) :
    st.nIov = (pre ++ allPieces gs.flatten).length := by
  rw [h.nIov, length_append, h.start]

/-- A task that starts a chunk. -/
theorem Merging.new {pre suf} (h : Merging k pre suf gs st) (t : Task) :
    Merging k pre (suf.drop t.pieces.length) (gs ++ [[t]])
      (wqNewMerged st t gs.flatten.length) where
  start := h.start
  iov := by
    rw [wqNewMerged, h.iov, copyAt_end h.index]
    simp
  nIov := by
    rw [wqNewMerged, h.nIov]
    simp [add_assoc]
  merged := by
    rw [wqNewMerged, reverse_cons, h.merged, mergedList_snoc, h.nIov]
    simp [mergedOf]

/-- A task that continues the last chunk. -/
theorem Merging.extend {pre suf} (h : Merging k pre suf (gs ++ [g]) st) (hg : g ≠ []) (t : Task)
    {e} (he : e = t.op.offset) :
    Merging k pre (suf.drop t.pieces.length) (gs ++ [g ++ [t]])
      (mergeTask st e t (gs ++ [g]).flatten.length) := by
  have hmerged := h.merged
  rw [mergedList_snoc] at hmerged
  obtain ⟨ms, hms, hlast⟩ : ∃ ms, ms.reverse = mergedList k 0 gs ∧ st.merged =
      mergedOf (k + (allPieces gs.flatten).length) (0 + gs.flatten.length) g :: ms := by
    refine ⟨(mergedList k 0 gs).reverse, reverse_reverse _, ?_⟩
    rw [← reverse_reverse st.merged, hmerged, reverse_append]
    rfl
  have hindex : k + (allPieces gs.flatten).length + (allPieces g).length =
      (pre ++ allPieces (gs ++ [g]).flatten).length := by
    rw [← h.index, h.nIov]
    simp [add_assoc]
  unfold mergeTask
  rw [if_neg (by simpa using he), hlast]
  refine ⟨h.start, ?_, ?_, ?_⟩
  · dsimp only
    rw [h.iov, show (mergedOf (k + (allPieces gs.flatten).length) (0 + gs.flatten.length) g).iov +
      (mergedOf (k + (allPieces gs.flatten).length) (0 + gs.flatten.length) g).nIov =
      k + (allPieces gs.flatten).length + (allPieces g).length from rfl, copyAt_end hindex]
    simp
  · rw [h.nIov]
    simp [add_assoc]
  · rw [reverse_cons, hms, mergedList_snoc, mergedOf_snoc _ _ hg]
    simp

theorem Merging.copyIndex_eq {pre suf} (h : Merging k pre suf (gs ++ [g]) st) (e : Nat) (t : Task) :
    copyIndex st e t = st.nIov := by
  unfold copyIndex
  split
  · rfl
  · have hmerged := congrArg List.reverse h.merged
    rw [mergedList_snoc, reverse_reverse, reverse_append] at hmerged
    rw [hmerged]
    simp [mergedOf, h.nIov, add_assoc]

/-- One turn of the loop extends the last chunk or starts a new one. -/
theorem Merging.turn {pre suf a} (h : Merging k pre suf (gs ++ [g ++ [a]]) st) (t : Task) :
    Merging k pre (suf.drop t.pieces.length)
      (if linked a t = true then gs ++ [g ++ [a] ++ [t]] else gs ++ [g ++ [a]] ++ [[t]])
      (mergeTask st a.op.fileEnd t (gs ++ [g ++ [a]]).flatten.length) := by
  by_cases hlink : a.op.fileEnd = t.op.offset
  · rw [if_pos (by simpa [linked] using hlink)]
    exact h.extend (by simp) t hlink
  · rw [if_neg (by simpa [linked] using hlink), mergeTask, if_pos hlink]
    exact h.new t

/-- The loop builds the chunks of all tasks and stays inside the array if it is long enough. -/
theorem Merging.loop {pre suf a} (ts : List Task)
    (h : Merging k pre suf (gs.reverse ++ [g.reverse ++ [a]]) st)
    (hroom : st.nIov + (allPieces ts).length ≤ st.iov.length) {i}
    (hi : i = (gs.reverse ++ [g.reverse ++ [a]]).flatten.length) :
    LoopInBounds st a.op.fileEnd i ts ∧
      Merging k pre (suf.drop (allPieces ts).length) (List.splitBy.loop linked ts a g gs)
        (mergeLoop st a.op.fileEnd i ts) := by
  induction ts generalizing a g gs st suf i with
  | nil =>
    refine ⟨trivial, ?_⟩
    simpa [List.splitBy.loop, mergeLoop] using h
  | cons t ts ih =>
    have hturn := h.turn t
    rw [← hi] at hturn
    have hlen : (mergeTask st a.op.fileEnd t i).iov.length = st.iov.length := by
      rw [hturn.iov, h.iov]
      rw [h.iov, h.nIov] at hroom
      simp only [allPieces_cons, length_append, h.start] at hroom
      split <;> simp <;> omega
    have hnIov : (mergeTask st a.op.fileEnd t i).nIov = st.nIov + t.pieces.length := by
      rw [hturn.nIov, h.nIov]
      split <;> simp <;> omega
    rw [allPieces_cons, length_append] at hroom ⊢
    rw [List.splitBy.loop, mergeLoop, ← drop_drop]
    have hstep : ∀ {g' : List Task} {gs' : List (List Task)},
        Merging k pre (suf.drop t.pieces.length) (gs'.reverse ++ [g'.reverse ++ [t]])
          (mergeTask st a.op.fileEnd t i) →
        i + 1 = (gs'.reverse ++ [g'.reverse ++ [t]]).flatten.length →
        LoopInBounds st a.op.fileEnd i (t :: ts) ∧
          Merging k pre ((suf.drop t.pieces.length).drop (allPieces ts).length)
            (List.splitBy.loop linked ts t g' gs')
            (mergeLoop (mergeTask st a.op.fileEnd t i) t.op.fileEnd (i + 1) ts) := by
      intro g' gs' hm hcount
      obtain ⟨hsafe, hrest⟩ := ih hm (by rw [hlen, hnIov]; omega) hcount
      refine ⟨⟨?_, hsafe⟩, hrest⟩
      rw [h.copyIndex_eq]
      omega
    cases hlink : linked a t with
    | true =>
      rw [hlink, if_pos rfl] at hturn
      refine hstep (by simpa using hturn) ?_
      rw [hi]
      simp
      omega
    | false =>
      rw [hlink, if_neg Bool.false_ne_true] at hturn
      refine hstep (by simpa using hturn) ?_
      rw [hi]
      simp
      omega

/-- The merge of the tasks of one kind. -/
theorem mergeTasks_spec {pre suf} (ts : List Task) (hiov : st.iov = pre ++ suf)
    (hpre : pre.length = st.nIov) (hroom : (allPieces ts).length ≤ suf.length) :
    MergeInBounds st ts ∧
      Merging st.nIov pre (suf.drop (allPieces ts).length) (groups ts) (mergeTasks st ts) := by
  have hstart : Merging st.nIov pre suf [] { st with merged := [] } :=
    ⟨hpre, by simpa using hiov, rfl, rfl⟩
  cases ts with
  | nil => exact ⟨trivial, by simpa [groups, mergeTasks, List.splitBy] using hstart⟩
  | cons t ts =>
    rw [allPieces_cons, length_append] at hroom
    have hnew : Merging st.nIov pre (suf.drop t.pieces.length) ([].reverse ++ [[].reverse ++ [t]])
        (wqNewMerged { st with merged := [] } t 0) := hstart.new t
    have hlen : st.iov.length = st.nIov + suf.length := by
      rw [hiov, length_append, hpre]
    have hlen' : (wqNewMerged { st with merged := [] } t 0).iov.length = st.iov.length := by
      rw [hnew.iov, hlen]
      simp [hpre]
      omega
    obtain ⟨hsafe, hrest⟩ := hnew.loop ts
      (by rw [hlen', hlen]; simp [wqNewMerged]; omega) rfl
    refine ⟨⟨by omega, hsafe⟩, ?_⟩
    rw [allPieces_cons, length_append, ← drop_drop]
    exact hrest

end LStore.Lio
