import Mathlib.Order.Fin.Basic
import LStore.Base.CString

/-!
# Resource queries

A resource (RID) has a list of attributes that is sorted by key. A query is a list of elements
that a stack machine runs for one resource: a test looks through the attributes, the other
elements combine what is on the stack. `none` stands for a run that goes through a pointer
that is not valid.
-/

namespace LStore.Rs

open Base.CString

/-- A string, without its terminating zero. -/
abbrev CStr := List (Fin 256)

/-- `RS_STATUS_UP` and the others. -/
inductive RidStatus where
  | up
  | ignored
  | outOfSpace
  | down
deriving DecidableEq, Repr

/-- `lio_rss_rid_entry_t`; the attributes are kept in a skip list with duplicate keys. -/
structure RidEntry where
  ridKey : CStr
  dsKey : CStr
  attr : List (CStr × CStr)
  status : RidStatus
  tooFull : Bool
  sorted : attr.Pairwise fun a b => strcmp a.1 b.1 ≠ .gt

/-- The low bits of a key or value operation. -/
inductive KvOp where
  | exact
  | starts
  | any
  | other
deriving DecidableEq, Repr

/-- A key or value operation with its flags. -/
structure KvCode where
  op : KvOp
  unique : Bool
  pickone : Bool
deriving DecidableEq, Repr

/-- `RSQ_BASE_OP_KV` and the others. -/
inductive QueryOp where
  | kv
  | not
  | and
  | or
  | other
deriving DecidableEq, Repr

/-- `lio_rsq_base_ele_t`. -/
structure QueryEle where
  op : QueryOp
  key : Option CStr
  keyOp : KvCode
  val : Option CStr
  valOp : KvCode
deriving DecidableEq, Repr

def QueryEle.isUnique (q : QueryEle) : Bool := q.keyOp.unique || q.valOp.unique

def QueryEle.isPickone (q : QueryEle) : Bool := q.keyOp.pickone || q.valOp.pickone

/-- `kvq_ele_t`. -/
structure KvqEle where
  key : Option CStr
  value : Option CStr
deriving DecidableEq, Repr

/-- `kvq_table_t`: a row of earlier matches for each unique test, and the picked pairs. -/
structure KvqTable where
  unique : List (Nat → KvqEle)
  pickone : List KvqEle

/-- The switch over the key operation. -/
def keyHit (q : QueryEle) (key : CStr) : Bool :=
  let strTomatch := q.key.getD []
  match q.keyOp.op with
  | .exact => strcmp key strTomatch = .eq
  | .starts => strncmp strTomatch.length key strTomatch = .eq
  | .any => true
  | .other => false

/-- The switch over the value operation; the length is the one of the key. -/
def valHit (q : QueryEle) (val : CStr) : Bool :=
  let nlen := (q.key.getD []).length
  let strTomatch := q.val.getD []
  match q.valOp.op with
  | .exact => strcmp val strTomatch = .eq
  | .starts => strncmp nlen val strTomatch = .eq
  | .any => true
  | .other => true

/-- The loop over the keys of earlier matches; a missing key is compared nevertheless. -/
def keyRepeats (key : CStr) (uniq : Nat → KvqEle) : List Nat → Option Bool
  | [] => some false
  | i :: is =>
    match (uniq i).key with
    | none => none
    | some k => if strcmp key k = .eq then some true else keyRepeats key uniq is

/-- The loop over the values of earlier matches. -/
def valRepeats (val : CStr) (uniq : Nat → KvqEle) (is : List Nat) : Bool :=
  is.any fun i =>
    match (uniq i).value with
    | none => false
    | some v => strcmp val v = .eq

/-- The unique or pickone check of a key that matched. -/
def keyAllowed (q : QueryEle) (nMatch : Nat) (uniq : Option (Nat → KvqEle))
    (pickone : Option KvqEle) (key : CStr) : Option Bool :=
  if nMatch = 0 then some true
  else if q.keyOp.unique then do
    let row ← uniq
    let repeats ← keyRepeats key row (List.range nMatch)
    pure !repeats
  else if q.keyOp.pickone then do
    let picked ← pickone
    let k ← picked.key
    pure (strcmp key k = .eq)
  else some true

/-- The unique or pickone check of a value that matched. -/
def valAllowed (q : QueryEle) (nMatch : Nat) (uniq : Option (Nat → KvqEle))
    (pickone : Option KvqEle) (val : CStr) : Option Bool :=
  if nMatch = 0 then some true
  else if q.valOp.unique then do
    let row ← uniq
    pure !(valRepeats val row (List.range nMatch))
  else if q.valOp.pickone then do
    let picked ← pickone
    pure <| match picked.value with
      | none => true
      | some v => strcmp val v = .eq
  else some true

/-- The body of the loop in `rss_test`. -/
def pairFound (q : QueryEle) (nMatch : Nat) (uniq : Option (Nat → KvqEle))
    (pickone : Option KvqEle) (p : CStr × CStr) : Option Bool :=
  if keyHit q p.1 then do
    let allowed ← keyAllowed q nMatch uniq pickone p.1
    if allowed && valHit q p.2 then valAllowed q nMatch uniq pickone p.2
    else pure false
  else some false

/-- The loop in `rss_test`. -/
def firstFound (q : QueryEle) (nMatch : Nat) (uniq : Option (Nat → KvqEle))
    (pickone : Option KvqEle) : List (CStr × CStr) → Option (Option (CStr × CStr))
  | [] => some none
  | p :: ps =>
    match pairFound q nMatch uniq pickone p with
    | none => none
    | some true => some (some p)
    | some false => firstFound q nMatch uniq pickone ps

/-- Where the iterator starts: behind the keys that are smaller on the length of the key. -/
def scanFrom (q : QueryEle) (attr : List (CStr × CStr)) : List (CStr × CStr) :=
  let strTomatch := q.key.getD []
  attr.dropWhile fun p => strncmp strTomatch.length p.1 strTomatch = .lt

/-- What a match leaves in the row of earlier matches. -/
def storeUnique (q : QueryEle) (nMatch : Nat) (p : CStr × CStr) (row : Nat → KvqEle) :
    Nat → KvqEle :=
  Function.update row nMatch
    { key := if q.keyOp.unique then some p.1 else (row nMatch).key
      value := if q.valOp.unique then some p.2 else (row nMatch).value }

/-- What a match leaves in the picked pair. -/
def storePickone (q : QueryEle) (p : CStr × CStr) (picked : KvqEle) : KvqEle :=
  { key := if q.keyOp.pickone then some p.1 else picked.key
    value := if q.valOp.pickone then some p.2 else picked.value }

/-- `rss_test` on the rows at the given places of a table. -/
def rssTest (q : QueryEle) (rse : RidEntry) (nMatch iUnique iPickone : Nat) (kvq : KvqTable) :
    Option (Bool × KvqTable) :=
  match firstFound q nMatch kvq.unique[iUnique]? kvq.pickone[iPickone]? (scanFrom q rse.attr) with
  | none => none
  | some none => some (false, kvq)
  | some (some p) =>
    if (q.isUnique = true → iUnique < kvq.unique.length) ∧
        (q.isPickone = true → iPickone < kvq.pickone.length) then
      some (true,
        { unique := kvq.unique.modify iUnique (storeUnique q nMatch p)
          pickone := kvq.pickone.modify iPickone (storePickone q p) })
    else none

/-- The stack with the places in the tables. -/
structure Machine where
  stack : List Int
  kvq : KvqTable
  iUnique : Nat
  iPickone : Nat

def boolState (b : Bool) : Int := if b then 1 else 0

/-- One element of a query. -/
def runEle (rse : RidEntry) (nMatch : Nat) (m : Machine) (q : QueryEle) : Option Machine :=
  match q.op with
  | .kv => do
      let (found, kvq) ← rssTest q rse nMatch m.iUnique m.iPickone m.kvq
      pure
        { stack := boolState found :: m.stack
          kvq := kvq
          iUnique := if q.isUnique then m.iUnique + 1 else m.iUnique
          iPickone := if q.isPickone then m.iPickone + 1 else m.iPickone }
  | .not =>
    match m.stack with
    | a :: stack => some { m with stack := boolState (a = 0) :: stack }
    | [] => none
  | .and =>
    match m.stack with
    | a :: b :: stack => some { m with stack := boolState (a ≠ 0 ∧ b ≠ 0) :: stack }
    -- the null pointer for a second operand is not read when the first one is 0
    | [a] => if a = 0 then some { m with stack := [0] } else none
    | [] => none
  | .or =>
    -- the test is whether the popped pointers are null, not what they point to
    match m.stack with
    | _ :: _ :: stack => some { m with stack := 1 :: stack }
    | [_] => some { m with stack := [1] }
    | [] => some { m with stack := [0] }
  | .other => some { m with stack := -1 :: m.stack }

/-- The elements of a query one after another. -/
def runQuery (rse : RidEntry) (nMatch : Nat) : List QueryEle → Machine → Option Machine
  | [], m => some m
  | q :: qs, m =>
    match runEle rse nMatch m q with
    | none => none
    | some m' => runQuery rse nMatch qs m'

end LStore.Rs
