import LStore.Lio.WorkQueueMerge

/-!
# A batch of queued operations

What the operations of a batch are, apart from the places of their buffers in memory, and what it
means that merging them cannot be told from running them one by one.
-/

namespace LStore.Lio

open Toolbox

/-- An operation up to the addresses of its buffer pieces. -/
structure Request where
  mode : RwMode
  offset : Nat
  len : Nat
  totalBytes : Nat
  lens : List Nat
  boff : Nat
  deriving DecidableEq

/-- The buffer of a request with its pieces at given addresses. -/
def Request.buffer (base : Nat → Int) (r : Request) : Tbuf :=
  ⟨r.totalBytes, r.lens.mapIdx fun k n => ⟨base k, n⟩⟩

/-- The operation with its buffer pieces at given addresses. -/
def Request.op (base : Nat → Int) (r : Request) : RwOp :=
  ⟨r.mode, r.offset, r.len, r.buffer base, r.boff⟩

/-- A request the work queue takes, on a buffer that has the bytes it is said to have, with a
length that fits in the rest of the buffer. -/
structure Request.Queued (r : Request) : Prop where
  layout : r.totalBytes ≤ r.lens.sum
  fits : r.boff + r.len ≤ r.totalBytes
  accepted : ∀ base, wqAccepts (r.op base) = true

/-- A batch: the queue of a context, oldest first, and for each kind an order in which `qsort`
may leave the fetched operations. An operation goes with its position in the queue. -/
structure Batch where
  maxTasks : Nat
  maxIov : Nat
  queue : List Request
  queued : ∀ r ∈ queue, r.Queued
  order : RwMode → List (Request × Nat)
  perm : ∀ mode, (order mode).Perm
    ((queue.zipIdx.take maxTasks).filter fun e => decide (e.1.mode = mode))
  sorted : ∀ mode, (order mode).Pairwise fun e f => e.1.offset ≤ f.1.offset

/-- Where the buffer pieces of the operations lie, and what the dead frame holds when the pointer
of an operation into it is followed. -/
structure Memory where
  base : Nat → Nat → Int
  dead : Nat → Nat → Iovec

/-- The queued operation at a position. -/
def Memory.wqOp (μ : Memory) (e : Request × Nat) : WqOp := wqOpNew (e.1.op (μ.base e.2))

/-- The task of an operation. -/
def Memory.task (μ : Memory) (e : Request × Nat) : Task :=
  ⟨e.1.op (μ.base e.2), (μ.wqOp e).pieces (μ.dead e.2)⟩

/-- The context of a batch. -/
def Batch.ctx (b : Batch) (μ : Memory) : WqContext :=
  ⟨b.queue.zipIdx.map μ.wqOp, b.maxTasks, b.maxIov⟩

/-- The sorted tasks of one kind. -/
def Batch.tasks (b : Batch) (μ : Memory) (mode : RwMode) : List Task :=
  (b.order mode).map μ.task

/-- What the merged operations of one kind do: each moves exactly the bytes of its tasks, and
whatever the outcomes are and in whatever order they come, each task is completed once. -/
structure Serves (arr : List Iovec) (ts : List Task) (ms : List Merged) : Prop where
  moves : ∀ m ∈ ms, m.transfers arr = (m.tasks ts).flatMap fun t => t.op.transfers
  completes : ∀ {σ : Type} (outcome : Merged → σ) (done : List Merged), done.Perm ms →
    ((done.flatMap (Merged.completions ts outcome)).map Prod.fst).Perm (List.range ts.length)

/-- The indices of one kind stay inside the arrays of the context. -/
structure InBounds (ctx : WqContext) (st : MergeState) (ts : List Task) : Prop where
  tasks : ts.length ≤ ctx.maxTasks
  merged : (mergeTasks st ts).merged.length ≤ ctx.maxTasks
  iov : MergeInBounds st ts

/-- Merging and running the batch cannot be told from running its operations one by one. -/
structure Transparent (ctx : WqContext) (iov : List Iovec) (reads writes : List Task) : Prop where
  readsServed : Serves (sortAndMerge iov reads writes).iov reads
    (sortAndMerge iov reads writes).reads
  writesServed : Serves (sortAndMerge iov reads writes).iov writes
    (sortAndMerge iov reads writes).writes
  readBounds : InBounds ctx ⟨iov, 0, []⟩ reads
  writeBounds : InBounds ctx (mergeTasks ⟨iov, 0, []⟩ reads) writes

/-- One request ends where the next begins. -/
def Request.touches (e f : Request × Nat) : Bool :=
  decide (e.1.offset + e.1.len = f.1.offset)

/-- The whole of the buffer is the iovec's. -/
def Request.WholeBuffer (r : Request) : Prop := r.boff = 0 ∧ r.lens.sum = r.len

/-- The requests of one kind do not reach the two slips: a request with bytes starts at the
beginning of its buffer, and one that is merged in front of bytes uses its whole buffer. -/
structure WholeSeams (es : List (Request × Nat)) : Prop where
  start : ∀ e ∈ es, 0 < e.1.len → e.1.boff = 0
  whole : ∀ c ∈ es.splitBy Request.touches,
    c.Pairwise fun e f => 0 < f.1.len → e.1.WholeBuffer

end LStore.Lio
