import LStore.Base.Reach
import LStore.Gop.Opque

/-!
# Waiting for any task

One thread calls `gop_waitany` on a queue again and again while the started operations
complete. A call on an unstarted queue with one task waits for any result of that task
instead, and then takes what it finds among the finished tasks of the queue.
-/

namespace LStore.Gop

mutual

/-- `_gop_start_execution` and `_opque_start_execution`. -/
def Task.start : Task → Task
  | .op final _ done => .op final true done
  | .que q tasks =>
    if q.started then .que q tasks
    else .que { q with started := true, list := [] } (startListed q.list 0 tasks)

/-- Start the tasks whose positions, counted from the given one, are on the list. -/
def startListed (list : List Nat) : Nat → List Task → List Task
  | _, [] => []
  | i, t :: ts => (if i ∈ list then t.start else t) :: startListed list (i + 1) ts

end

/-- The only task is taken off the list of a queue, which counts as started. -/
def Task.claim : Task → Task
  | .op final started done => .op final started done
  | .que q tasks => .que { q with started := true, list := [] } tasks

/-- Take a task from the top of the finished ones. -/
def Task.popFinished : Task → Task
  | .op final started done => .op final started done
  | .que q tasks => .que { q with finished := q.finished.tail } tasks

mutual

/-- Change the task at a path. -/
def Task.update (f : Task → Task) : Task → List Nat → Task
  | t, [] => f t
  | .op final started done, _ :: _ => .op final started done
  | .que q tasks, i :: path => .que q (updateAt f tasks i path)

def updateAt (f : Task → Task) : List Task → Nat → List Nat → List Task
  | [], _, _ => []
  | t :: ts, 0, path => t.update f path :: ts
  | t :: ts, i + 1, path => t :: updateAt f ts i path

end

/-- Where the thread is: outside a call, about to look at the task at a path, in the wait at
that task, or back from the wait for the only task of the queue at a path. -/
inductive WaitPc where
  | idle
  | enter (path : List Nat)
  | blocked (path : List Nat)
  | unwind (path : List Nat)
deriving DecidableEq, Repr

/-- The queue, the thread and what its calls have returned. -/
structure WaitState where
  root : Task
  pc : WaitPc
  returned : List (Option Nat)

/-- The thread calls, the thread goes on, or an operation that was started completes. -/
inductive WaitAct where
  | call
  | go
  | complete (path : List Nat)
deriving DecidableEq, Repr

/-- A call at a path returns: to its caller, or to the call on the queue above. -/
def WaitState.leave (s : WaitState) (path : List Nat) (value : Option Nat) : WaitState :=
  if path = [] then { s with pc := .idle, returned := s.returned ++ [value] }
  else { s with pc := .unwind path.dropLast }

/-- The parts of `gop_waitany`. -/
def WaitState.go (s : WaitState) : Option WaitState :=
  match s.pc with
  | .idle => none
  | .enter path =>
    match s.root.find path with
    | none => none
    | some (.op _ _ _) =>
      some { s with root := s.root.update Task.start path, pc := .blocked path }
    | some (.que q _) =>
      match q.list, q.started with
      | [i], false =>
        some { s with root := s.root.update Task.claim path, pc := .enter (path ++ [i]) }
      | _, _ => some { s with root := s.root.update Task.start path, pc := .blocked path }
  | .blocked path =>
    match s.root.find path with
    | none => none
    | some (.op _ _ done) => if done then some (s.leave path none) else none
    | some (.que q _) =>
      if q.finished = [] ∧ 0 < q.nleft then none
      else some
        ({ s with root := s.root.update Task.popFinished path }.leave path q.finished.head?)
  | .unwind path =>
    match s.root.find path with
    | some (.que q _) =>
      some ({ s with root := s.root.update Task.popFinished path }.leave path q.finished.head?)
    | _ => none

def WaitState.step (s : WaitState) : WaitAct → Option WaitState
  | .call => if s.pc = .idle then some { s with pc := .enter [] } else none
  | .go => s.go
  | .complete path =>
    match s.root.find path with
    | some (.op _ true false) => (s.root.complete path).map fun r => { s with root := r.1 }
    | _ => none

/-- A queue with its tasks added, as `gop_opque_new` and `gop_opque_add` leave it. -/
def QueData.new (n : Nat) : QueData :=
  { list := List.range n, finished := [], failed := [], nleft := n, status := ⟨.cleared, 0⟩
    started := false, retries := 0 }

/-- The system before the first call. -/
def WaitState.start (tasks : List Task) : WaitState :=
  { root := .que (QueData.new tasks.length) tasks, pc := .idle, returned := [] }

end LStore.Gop
