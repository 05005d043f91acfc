/-!
# Status of an operation

Every operation ends with a status: one of the `OP_STATE` values and an error code.
-/

namespace LStore.Gop

/-- `OP_STATE_*`. A record that was only cleared holds none of the named values. -/
inductive OpState where
  | cleared
  | success
  | failure
  | retry
  | dead
  | timeout
  | invalidHost
  | cantConnect
  | error
deriving DecidableEq, Repr

/-- `gop_op_status_t`. -/
structure OpStatus where
  opStatus : OpState
  errorCode : Int
deriving DecidableEq, Repr

def gopSuccessStatus : OpStatus := ⟨.success, 0⟩

def gopFailureStatus : OpStatus := ⟨.failure, 0⟩

end LStore.Gop
