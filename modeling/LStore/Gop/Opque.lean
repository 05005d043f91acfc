import Mathlib.Data.List.Basic
import LStore.Gop.Status

/-!
# Operation queues

A task is an operation or a queue of tasks. When a task completes, the callback of its queue
takes it over: the last one completes the queue, whose own callback then runs in the queue
above. A callback runs under the lock of its queue, up to the top, so that completions take
effect one after another.
-/

namespace LStore.Gop

/-- `gop_que_data_t` with the fields of its operation. Tasks are named by their positions. -/
structure QueData where
  list : List Nat
  finished : List Nat
  failed : List Nat
  nleft : Int
  status : OpStatus
  started : Bool
  retries : Nat
deriving DecidableEq, Repr

/-- An operation, with the status it ends in, or a queue. -/
inductive Task where
  | op (final : OpStatus) (started done : Bool)
  | que (q : QueData) (tasks : List Task)
deriving Repr

/-- The status a completed task is taken to have: `_gop_completed_successfully`, and the same
test in `_opque_cb`. -/
def Task.status : Task → OpStatus
  | .op final _ _ => final
  | .que q _ => if q.failed.length = 0 then q.status else gopFailureStatus

/-- `opque_completion_status`. -/
def opqueCompletionStatus (q : QueData) : OpStatus :=
  if q.failed.length = 0 then q.status else gopFailureStatus

/-- `_opque_cb` for the task at `i`, and whether it runs the callbacks of the queue itself. -/
def opqueCb (q : QueData) (i : Nat) (success : OpStatus) : QueData × Bool :=
  let q : QueData :=
    { q with
      finished := q.finished ++ [i]
      failed := if success.opStatus = .failure then i :: q.failed else q.failed
      nleft := q.nleft - 1 }
  if q.nleft ≤ 0 then
    if q.failed.length = 0 then ({ q with status := gopSuccessStatus }, true)
    else if q.retries = 0 then
      -- the failure callback sets no retry
      ({ q with retries := q.retries + 1, nleft := 0, status := gopFailureStatus }, true)
    else (q, false)
  else (q, false)

mutual

/-- `gop_mark_completed` for the operation at a path, and whether the callbacks of the task
itself run. -/
def Task.complete : Task → List Nat → Option (Task × Bool)
  | .op final started done, path =>
    if done = false ∧ path = [] then some (.op final started true, true) else none
  | .que _ _, [] => none
  | .que q tasks, i :: path =>
    match completeAt tasks i path with
    | none => none
    | some (tasks', none) => some (.que q tasks', false)
    | some (tasks', some success) =>
      some (.que (opqueCb q i success).1 tasks', (opqueCb q i success).2)

/-- Completion in the task at a position, with its status if its callbacks run. -/
def completeAt : List Task → Nat → List Nat → Option (List Task × Option OpStatus)
  | [], _, _ => none
  | t :: ts, 0, path =>
    match t.complete path with
    | none => none
    | some (t', fired) => some (t' :: ts, if fired then some t'.status else none)
  | t :: ts, i + 1, path =>
    match completeAt ts i path with
    | none => none
    | some (ts', success) => some (t :: ts', success)

end

/-- Completions one after another. -/
def completeAll (t : Task) : List (List Nat) → Option Task
  | [] => some t
  | path :: paths =>
    match t.complete path with
    | none => none
    | some (t', _) => completeAll t' paths

mutual

/-- The task `gop_waitall` ends up waiting for: an unstarted queue with one task waits for that
task instead. -/
def Task.waitTarget : Task → List Nat
  | .op _ _ _ => []
  | .que q tasks =>
    match q.list, q.started with
    | [i], false => i :: waitTargetAt tasks i
    | _, _ => []

def waitTargetAt : List Task → Nat → List Nat
  | [], _ => []
  | t :: _, 0 => t.waitTarget
  | _ :: ts, i + 1 => waitTargetAt ts i

end

mutual

/-- The task at a path. -/
def Task.find : Task → List Nat → Option Task
  | t, [] => some t
  | .que _ tasks, i :: path => findAt tasks i path
  | .op _ _ _, _ :: _ => none

def findAt : List Task → Nat → List Nat → Option Task
  | [], _, _ => none
  | t :: _, 0, path => t.find path
  | _ :: ts, i + 1, path => findAt ts i path

end

/-- The value of a `gop_waitall` that was called in the one state and returns in the other. -/
def gopWaitall (called returned : Task) : Option OpState :=
  (returned.find called.waitTarget).map fun t => t.status.opStatus

end LStore.Gop
