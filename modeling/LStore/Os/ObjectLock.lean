import Mathlib.Data.List.Nodup
import LStore.Base.Reach

/-!
# Open locks of objects

An open object is locked by its name across all descriptors, for reading or for writing.
The lock entry of a name counts the readers and writers that have it and keeps a stack of
those that wait. Whoever unlocks takes the top waiter off the stack and signals it; the
waiter is counted when it runs again. Entries come from a pool and go back to it when
nobody has the object open any more.

## Implementation notes

A call holds `fobj_lock` from its start to its end, but for the time it sleeps in
`fobj_wait`. So the steps are whole calls, the part of a lock call before its sleep, and
the part after it. A sleep ends by a signal or at any time by itself. A descriptor stands
for the thread that uses it and for its `uuid`. `holders` is not a part of the state of the
service: it lists the descriptors that were granted the lock and have not given it back.
-/

namespace LStore.Os

/-- `OS_MODE_READ_BLOCKING` and `OS_MODE_WRITE_BLOCKING`. -/
inductive Mode where
  | read
  | write
deriving DecidableEq, Repr

/-- `object_name` and `mode` of the descriptors. -/
structure Files (Fd Name : Type) where
  name : Fd → Name
  mode : Fd → Mode

/-- `fobj_lock_t`: the waiters, top first, and those that have the lock. -/
structure Fol (Fd : Type) where
  stack : List Fd
  activeStack : List Fd
  readCount : Int
  writeCount : Int
deriving DecidableEq, Repr

/-- A fresh entry of the pool. -/
def Fol.empty {Fd : Type} : Fol Fd := ⟨[], [], 0, 0⟩

/-- Where a descriptor is: not in a sleep, asleep on the stack of an entry (`abort` is 1), or
taken off it and signalled (`abort` is 0). -/
inductive Call where
  | outside
  | waiting (fol : Nat)
  | signalled (fol : Nat)
deriving DecidableEq, Repr

/-- The lock service. -/
structure LockState (Fd Name : Type) where
  fobjTable : Name → Option Nat
  fol : Nat → Fol Fd
  reserved : Nat → Bool
  fobjLock : Bool
  call : Fd → Call
  holders : List Fd

inductive LockAct (Fd : Type) where
  | lock (fd : Fd) (slot : Nat)
  | wake (fd : Fd)
  | unlock (fd : Fd)
deriving DecidableEq, Repr

section

variable {Fd Name : Type} [DecidableEq Fd] [DecidableEq Name] (f : Files Fd Name)

/-- The top waiter has the mode. -/
def Fol.topIs (e : Fol Fd) (mode : Mode) : Bool := e.stack.head?.any fun fd => f.mode fd = mode

/-- The test of `full_object_lock`: whether the call goes on without a sleep. -/
def Fol.grants (e : Fol Fd) (fd : Fd) : Bool :=
  match f.mode fd with
  | .read => e.writeCount = 0 ∧ ¬e.topIs f .write
  | .write => e.writeCount = 0 ∧ e.readCount = 0 ∧ e.stack = []

/-- The end of a granted `full_object_lock`: the counts and `fobj_add_active`. -/
def Fol.enter (e : Fol Fd) (fd : Fd) : Fol Fd :=
  match f.mode fd with
  | .read => { e with readCount := e.readCount + 1, activeStack := e.activeStack ++ [fd] }
  | .write => { e with writeCount := e.writeCount + 1, activeStack := e.activeStack ++ [fd] }

/-- `fobj_remove_active` and the counts of `full_object_unlock`. -/
def Fol.leave (e : Fol Fd) (fd : Fd) : Fol Fd :=
  match f.mode fd with
  | .read => { e with readCount := e.readCount - 1, activeStack := e.activeStack.erase fd }
  | .write => { e with writeCount := e.writeCount - 1, activeStack := e.activeStack.erase fd }

namespace LockState

variable (s : LockState Fd Name)

def setFol (n : Nat) (e : Fol Fd) : LockState Fd Name := { s with fol := Function.update s.fol n e }

def goto (fd : Fd) (c : Call) : LockState Fd Name := { s with call := Function.update s.call fd c }

/-- The top waiter of an entry is taken off the stack and signalled. -/
def signal (n : Nat) : LockState Fd Name :=
  match (s.fol n).stack with
  | [] => s
  | fd :: stack => (s.setFol n { s.fol n with stack := stack }).goto fd (.signalled n)

/-- The descriptor gets the lock. -/
def grant (fd : Fd) (n : Nat) : LockState Fd Name :=
  { s.setFol n ((s.fol n).enter f fd) with holders := s.holders ++ [fd] }

/-- `full_object_lock` up to its sleep, if there is one, with the entry at hand. -/
def lockWith (fd : Fd) (n : Nat) : LockState Fd Name :=
  if (s.fol n).grants f fd then s.grant f fd n
  else (s.setFol n { s.fol n with stack := (s.fol n).stack ++ [fd] }).goto fd (.waiting n)

/-- `full_object_lock`; the pool gives `slot` if an entry is needed. -/
def lock (fd : Fd) (slot : Nat) : Option (LockState Fd Name) :=
  match s.fobjTable (f.name fd) with
  | some n => some (s.lockWith f fd n)
  | none =>
    if s.reserved slot then none
    else
      some (LockState.lockWith f
        { s with
          fobjTable := Function.update s.fobjTable (f.name fd) (some slot)
          reserved := Function.update s.reserved slot true } fd slot)

/-- The end of `fobj_wait` and of the call that sleeps in it. -/
def wake (fd : Fd) : Option (LockState Fd Name) :=
  match s.call fd with
  | .outside => none
  | .waiting n =>
    some ((s.setFol n { s.fol n with stack := (s.fol n).stack.erase fd }).goto fd .outside)
  | .signalled n =>
    -- a reader wakes up the reader behind it
    let s' := if f.mode fd = .read ∧ (s.fol n).topIs f .read then s.signal n else s
    some ((s'.grant f fd n).goto fd .outside)

/-- The wake up of `full_object_unlock`. -/
def wakeNext (n : Nat) : LockState Fd Name :=
  let e := s.fol n
  if (e.topIs f .read ∧ e.writeCount = 0) ∨
      (e.topIs f .write ∧ e.writeCount = 0 ∧ e.readCount = 0) then s.signal n
  else s

/-- `full_object_unlock`. -/
def unlock (fd : Fd) : LockState Fd Name :=
  let s := { s with holders := s.holders.erase fd }
  match s.fobjTable (f.name fd) with
  | none => { s with fobjLock := true }
  | some n =>
    if fd ∉ (s.fol n).activeStack then s
    else
      let e := (s.fol n).leave f fd
      let s := s.setFol n e
      if e.stack = [] ∧ e.readCount = 0 ∧ e.writeCount = 0 then
        { s with
          fobjTable := Function.update s.fobjTable (f.name fd) none
          reserved := Function.update s.reserved n false }
      else s.wakeNext f n

/-- A step needs `fobj_lock`. A descriptor makes one call at a time. -/
def step : LockAct Fd → Option (LockState Fd Name)
  | .lock fd slot => if s.fobjLock = false ∧ s.call fd = .outside then s.lock f fd slot else none
  | .wake fd => if s.fobjLock = false then s.wake f fd else none
  | .unlock fd =>
    if s.fobjLock = false ∧ s.call fd = .outside then some (s.unlock f fd) else none

end LockState

/-- No entry is in use. -/
def LockState.start : LockState Fd Name where
  fobjTable := fun _ => none
  fol := fun _ => .empty
  reserved := fun _ => false
  fobjLock := false
  call := fun _ => .outside
  holders := []

end

end LStore.Os
