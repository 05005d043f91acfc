import LStore.Toolbox.TransferBuffer

/-!
# The work queue of a file

`src/lio/lio_base_rw.c` and `lio_write_ex_gop_wq` of `src/lio/lio_core_io.c`. Operations on one
file are collected, sorted by file offset and glued together where one ends at the offset of the
next. The memory of a merged operation is the concatenation of the `iovec` arrays that were taken
from the user buffers when the operations were made.
-/

namespace LStore.Lio

open Toolbox

/-- The two kinds of operation, `OP_READ` and `OP_WRITE`. -/
inductive RwMode where
  | read
  | write
  deriving DecidableEq

/-- A `lio_rw_op_t` with a single file extent. -/
structure RwOp where
  mode : RwMode
  offset : Nat
  len : Nat
  buffer : Tbuf
  boff : Nat

/-- The end of the file extent. -/
def RwOp.fileEnd (op : RwOp) : Nat := op.offset + op.len

/-- A fresh `tbx_tbuf_var_t` that asks for `n` bytes. -/
def tbufVar (n : Nat) : TbufVar := { TbufVar.init with nbytes := n }

/-- `lio_write_ex_gop_wq` and its read twin: an operation goes to the work queue when the rest of
its buffer comes as one block. -/
def wqAccepts (op : RwOp) : Bool :=
  match tbNextBlock op.buffer op.boff (tbufVar op.buffer.totalBytes) with
  | none => false
  | some tv => decide (tv.nbytes = op.buffer.totalBytes - op.boff)

/-- Whether `tb_next_block` points its result at the scratch element inside the
`tbx_tbuf_var_t`, and not into the vector of the buffer. -/
def inScratch (tb : Tbuf) (pos : Nat) (tbv : TbufVar) : Bool :=
  let (slot, sum) := cachedSlot tb pos tbv
  if MachineInt.i32 (pos - sum : Nat) = 0 then
    decide (pos + tbv.nbytes < tb.totalBytes ∧
      (findSlot (pos + tbv.nbytes - 1) (tb.iov.drop slot) slot sum).1.getD slot = slot)
  else true

/-- The pointer `op->iov`: into the vector of the user's buffer, or to the scratch element of the
variable `tv` in the frame of `wq_op_new`, which has returned by the time it is followed. -/
inductive Captured where
  | user (vs : List Iovec)
  | deadFrame (n : Nat)
  deriving DecidableEq

/-- A `wq_op_t`. -/
structure WqOp where
  rw : RwOp
  iov : Captured

/-- `wq_op_new`. -/
def wqOpNew (op : RwOp) : WqOp :=
  let tv := tbufVar (op.buffer.totalBytes - op.boff)
  match tbNextBlock op.buffer op.boff tv with
  | none => ⟨op, .user []⟩
  | some tv' =>
    if inScratch op.buffer op.boff tv then ⟨op, .deadFrame tv'.buffer.length⟩
    else ⟨op, .user tv'.buffer⟩

/-- What `memcpy(.., t->iov, t->n_iov)` copies; `dead` is what lies in the dead frame by then. -/
def WqOp.pieces (dead : Nat → Iovec) (t : WqOp) : List Iovec :=
  match t.iov with
  | .user vs => vs
  | .deadFrame n => (List.range n).map dead

/-- A `wq_merged_t`; `iov` is the index of its first entry in the array of the context. -/
structure Merged where
  iov : Nat
  nIov : Nat
  offset : Nat
  len : Nat
  taskStartIndex : Nat
  taskEndIndex : Nat
  deriving DecidableEq

/-- The part of the context the merge works on; the newest merged operation is in front. -/
structure MergeState where
  iov : List Iovec
  nIov : Nat
  merged : List Merged

/-- `memcpy` of entries to an index of the array. -/
def copyAt (i : Nat) (vs arr : List Iovec) : List Iovec :=
  arr.take i ++ vs ++ arr.drop (i + vs.length)

/-- A task of the array `w->tasks`: the operation and the entries its pointer yields. -/
structure Task where
  op : RwOp
  pieces : List Iovec

/-- `wq_new_merged`. -/
def wqNewMerged (st : MergeState) (t : Task) (index : Nat) : MergeState where
  iov := copyAt st.nIov t.pieces st.iov
  nIov := st.nIov + t.pieces.length
  merged := ⟨st.nIov, t.pieces.length, t.op.offset, t.op.len, index, index⟩ :: st.merged

/-- One turn of the loop of `wq_sort_and_merge_tasks`. -/
def mergeTask (st : MergeState) (prevEnd : Nat) (t : Task) (i : Nat) : MergeState :=
  if prevEnd ≠ t.op.offset then wqNewMerged st t i
  else
    match st.merged with
    | [] => st
    | m :: ms =>
      { iov := copyAt (m.iov + m.nIov) t.pieces st.iov
        nIov := st.nIov + t.pieces.length
        merged := { m with nIov := m.nIov + t.pieces.length, taskEndIndex := i,
                           len := m.len + t.op.len } :: ms }

/-- The loop of `wq_sort_and_merge_tasks` over the sorted tasks, from index `i` on. -/
def mergeLoop : MergeState → (prevEnd i : Nat) → List Task → MergeState
  | st, _, _, [] => st
  | st, prevEnd, i, t :: ts => mergeLoop (mergeTask st prevEnd t i) t.op.fileEnd (i + 1) ts

/-- The merge of the sorted tasks of one kind. -/
def mergeTasks (st : MergeState) : List Task → MergeState
  | [] => { st with merged := [] }
  | t :: ts => mergeLoop (wqNewMerged { st with merged := [] } t 0) t.op.fileEnd 1 ts

/-- The index at which a turn of the loop copies the entries of its task. -/
def copyIndex (st : MergeState) (prevEnd : Nat) (t : Task) : Nat :=
  if prevEnd ≠ t.op.offset then st.nIov
  else
    match st.merged with
    | [] => 0
    | m :: _ => m.iov + m.nIov

/-- Every copy of the loop stays inside the `iovec` array. -/
def LoopInBounds : MergeState → (prevEnd i : Nat) → List Task → Prop
  | _, _, _, [] => True
  | st, prevEnd, i, t :: ts =>
    copyIndex st prevEnd t + t.pieces.length ≤ st.iov.length ∧
      LoopInBounds (mergeTask st prevEnd t i) t.op.fileEnd (i + 1) ts

/-- Every copy of the merge stays inside the `iovec` array. -/
def MergeInBounds (st : MergeState) : List Task → Prop
  | [] => True
  | t :: ts => st.nIov + t.pieces.length ≤ st.iov.length ∧
      LoopInBounds (wqNewMerged { st with merged := [] } t 0) t.op.fileEnd 1 ts

/-- The context: the queued operations, oldest first, and the sizes of its arrays. -/
structure WqContext where
  wq : List WqOp
  maxTasks : Nat
  maxIov : Nat

/-- The number of `iovec` entries of an operation. -/
def WqOp.nIov (t : WqOp) : Nat :=
  match t.iov with
  | .user vs => vs.length
  | .deadFrame n => n

/-- The entries the fetched tasks need. -/
def neededIov (ctx : WqContext) : Nat := ((ctx.wq.take ctx.maxTasks).map WqOp.nIov).sum

/-- The size of the `iovec` array after `wq_ctx_fetch_tasks`. -/
def fetchMaxIov (ctx : WqContext) : Nat :=
  if neededIov ctx > ctx.maxIov then neededIov ctx * 3 / 2 else ctx.maxIov

/-- The bytes a merged operation moves: the bytes of its file extent against the bytes of its
memory, in order. -/
def Merged.transfers (arr : List Iovec) (m : Merged) : List (Nat × Int) :=
  (List.range' m.offset m.len).zip (addresses ((arr.drop m.iov).take m.nIov))

/-- The bytes an operation is to move. -/
def RwOp.transfers (op : RwOp) : List (Nat × Int) :=
  (List.range' op.offset op.len).zip ((addresses op.buffer.iov).drop op.boff)

/-- A `gop_op_status_t`. -/
structure OpStatus (σ : Type*) where
  opStatus : σ
  errorCode : Nat

/-- The indices of the tasks of a merged operation. -/
def Merged.indices (m : Merged) : List Nat :=
  List.range' m.taskStartIndex (m.taskEndIndex + 1 - m.taskStartIndex)

/-- The tasks of a merged operation. -/
def Merged.tasks (ts : List Task) (m : Merged) : List Task :=
  (ts.drop m.taskStartIndex).take (m.taskEndIndex + 1 - m.taskStartIndex)

/-- The calls of `gop_mark_completed` that `wq_execute_tasks` makes when a merged operation is
done: all its tasks get its outcome, with their own lengths as the error code. -/
def Merged.completions {σ : Type*} (ts : List Task) (outcome : Merged → σ) (m : Merged) :
    List (Nat × OpStatus σ) :=
  m.indices.map fun i => (i, ⟨outcome m, ((ts[i]?).map fun t => t.op.len).getD 0⟩)

/-- The merged operations of both kinds and the array they point into. -/
structure Plan where
  reads : List Merged
  writes : List Merged
  iov : List Iovec

/-- `wq_sort_and_merge_tasks`, on the sorted tasks. -/
def sortAndMerge (iov : List Iovec) (reads writes : List Task) : Plan :=
  let first := mergeTasks ⟨iov, 0, []⟩ reads
  let second := mergeTasks first writes
  ⟨first.merged.reverse, second.merged.reverse, second.iov⟩

end LStore.Lio
