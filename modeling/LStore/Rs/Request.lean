import LStore.Rs.Query
import Mathlib.Algebra.Ring.Int.Defs

/-!
# Resource requests

`rs_simple_request` goes through the indices of the request. For each it looks through the
resources from a random slot on, or from the slot of the resource fixed by a hint, takes the
first one the query accepts and gives it to all entries of the request with that index.
-/

namespace LStore.Rs

/-- `RS_ERROR_OK` and the others. -/
inductive RsError where
  | ok
  | notEnoughRids
  | fixedMatchFail
  | fixedNotFound
  | hintsInvalidLocal
  | emptyStack
deriving DecidableEq, Repr

/-- `lio_rid_change_entry_t`. -/
structure RidChange where
  converged : Bool
  delta : Int
  tolerance : Int
deriving DecidableEq, Repr

/-- The allocation that `ds_allocate` makes. -/
structure Allocation where
  dsKey : CStr
  size : Int
deriving DecidableEq, Repr

/-- `lio_rs_request_t`. -/
structure RsRequest where
  gop : Option Allocation
  ridIndex : Nat
  size : Int
  ridKey : Option CStr
deriving DecidableEq, Repr

/-- `lio_rs_hints_t`; a list to pick from leads to the addresses of change entries. -/
structure Hints where
  fixedRidKey : CStr
  localRsq : Option (List QueryEle)
  pickFrom : Option (CStr → Option Nat)

/-- The arguments of a call, the resources in the order of their slots, whether
`_rs_simple_refresh` succeeds, and the random slots of the first and the second scan. -/
structure Call where
  rids : List RidEntry
  keys : (rids.map RidEntry.ridKey).Nodup
  query : List QueryEle
  hints : Option (Nat → Hints)
  fixedSize : Nat
  nRid : Nat
  ignoreFixedErr : Bool
  partialOk : Bool
  refreshed : Bool
  rnd : Nat → Bool → Nat

/-- `local_rsq` of an index. -/
def Call.queryLocal (c : Call) (i : Nat) : Option (List QueryEle) :=
  c.hints.bind fun h => (h i).localRsq

/-- `pick_from` of an index. -/
def Call.pickFrom (c : Call) (i : Nat) : Option (CStr → Option Nat) :=
  c.hints.bind fun h => (h i).pickFrom

/-- The variables of a call that last from one index to the next. -/
structure ReqState where
  req : List RsRequest
  hintStatus : Nat → Option RsError
  changes : Nat → RidChange
  kvqGlobal : KvqTable
  kvqLocal : KvqTable
  found : Bool
  errCnt : Nat
  errorCode : Option RsError

/-- The test against the list to pick from: the change entry, if there is a list, of a
resource that may be taken. -/
def pickTest (pickFrom : Option (CStr → Option Nat)) (changes : Nat → RidChange) (change : Int)
    (rse : RidEntry) : Option (Option Nat) :=
  match pickFrom with
  | none => some none
  | some table =>
    match table rse.ridKey with
    | none => none
    | some a =>
      if (changes a).converged ∨ (changes a).delta ≤ 0 ∨
          change - (changes a).delta > (changes a).tolerance then none
      else some (some a)

/-- The query, and the one of the hint after it, for a resource: what is on top of the stack,
and the tables they leave. -/
def evalRid (c : Call) (i : Nat) (kvqGlobal kvqLocal : KvqTable) (rse : RidEntry) :
    Option (Option Int × KvqTable × KvqTable) :=
  match runQuery rse i c.query ⟨[], kvqGlobal, 0, 0⟩ with
  | none => none
  | some m =>
    match c.queryLocal i with
    | none => some (m.stack.head?, m.kvq, kvqLocal)
    | some q =>
      match runQuery rse i q ⟨m.stack, kvqLocal, 0, 0⟩ with
      | none => none
      | some m' => some (m'.stack.head?, m.kvq, m'.kvq)

/-- What a scan changes besides its result. -/
structure ScanState where
  kvqGlobal : KvqTable
  kvqLocal : KvqTable
  avgFullSkip : Bool
  emptyStack : Bool

/-- How a scan ends. -/
inductive ScanEnd where
  | found (rse : RidEntry) (ridChange : Option Nat)
  | mismatch
  | exhausted

/-- The loop over the slots. -/
def scan (c : Call) (i : Nat) (retry : Bool) (changes : Nat → RidChange) (change : Int) :
    List Nat → ScanState → Option (ScanState × ScanEnd)
  | [], s => some (s, .exhausted)
  | slot :: slots, s =>
    match c.rids[slot]? with
    | none => none
    | some rse =>
      match pickTest (c.pickFrom i) changes change rse with
      | none => scan c i retry changes change slots s
      | some ridChange =>
        if rse.status ≠ .up ∧ c.fixedSize ≤ i then scan c i retry changes change slots s
        else if c.fixedSize ≤ i ∧ retry = false ∧ rse.tooFull = true then
          scan c i retry changes change slots { s with avgFullSkip := true }
        else
          match evalRid c i s.kvqGlobal s.kvqLocal rse with
          | none => none
          | some (top, kvqGlobal, kvqLocal) =>
            let s := { s with kvqGlobal := kvqGlobal, kvqLocal := kvqLocal }
            match top with
            | none => scan c i retry changes change slots { s with emptyStack := true }
            | some state =>
              if state = 1 then some (s, .found rse ridChange)
              else if i < c.fixedSize then some (s, .mismatch)
              else scan c i retry changes change slots s

/-- The slots in the order of a scan. -/
def slotsFrom (off n : Nat) : List Nat := (List.range n).map fun j => (off + j) % n

/-- The bytes asked for with an index. -/
def changeOf (req : List RsRequest) (i : Nat) : Int :=
  ((req.filter fun r => r.ridIndex = i).map RsRequest.size).sum

/-- Both scans of an index that no hint fixes, or the one scan. -/
def scanIndex (c : Call) (i off : Nat) (st : ReqState) : Option (ScanState × ScanEnd) :=
  let n := c.rids.length
  let change := changeOf st.req i
  match scan c i false st.changes change (slotsFrom off n)
      ⟨st.kvqGlobal, st.kvqLocal, false, false⟩ with
  | some (s, .exhausted) =>
    if c.fixedSize ≤ i ∧ s.avgFullSkip = true then
      scan c i true st.changes change (slotsFrom (c.rnd i true) n) { s with avgFullSkip := false }
    else some (s, .exhausted)
  | r => r

/-- The resource is given to the entries of the index. -/
def assign (i : Nat) (rse : RidEntry) (req : List RsRequest) : List RsRequest :=
  req.map fun r =>
    if r.ridIndex = i then
      { r with ridKey := some rse.ridKey, gop := some ⟨rse.dsKey, r.size⟩ }
    else r

/-- The change entry of a resource that was taken. -/
def takeChange (change : Int) (rc : RidChange) : RidChange :=
  { rc with
    delta := rc.delta - change
    converged := decide (((rc.delta - change).natAbs : Int) ≤ rc.tolerance ∨ rc.tolerance = 0) }

/-- How the turn of an index ends: with a resource, without one, or with an error. -/
inductive TurnEnd where
  | found
  | missed
  | failed
deriving DecidableEq, Repr

/-- What the end of a scan leaves. -/
def finishScan (c : Call) (i : Nat) (st : ReqState) (s : ScanState) (e : ScanEnd) :
    ReqState × TurnEnd :=
  let st := { st with
    kvqGlobal := s.kvqGlobal
    kvqLocal := s.kvqLocal
    errorCode := if s.emptyStack then some .emptyStack else st.errorCode }
  match e with
  | .found rse ridChange =>
    ({ st with
        req := assign i rse st.req
        found := true
        hintStatus := if i < c.fixedSize ∧ c.hints.isSome then
            Function.update st.hintStatus i (some .ok) else st.hintStatus
        changes := match ridChange with
          | none => st.changes
          | some a =>
            Function.update st.changes a (takeChange (changeOf st.req i) (st.changes a)) },
      .found)
  | .mismatch =>
    ({ st with
        hintStatus := if c.hints.isSome then
            Function.update st.hintStatus i (some .fixedMatchFail) else st.hintStatus
        errCnt := if c.ignoreFixedErr then st.errCnt else st.errCnt + 1 },
      if c.ignoreFixedErr then .missed else .failed)
  | .exhausted => (st, .missed)

/-- The number of unique and of pickone elements, as `rs_query_count` counts them. -/
def nUnique (q : List QueryEle) : Nat := q.countP QueryEle.isUnique

def nPickone (q : List QueryEle) : Nat := q.countP QueryEle.isPickone

/-- The query of a hint that is refused. -/
def Call.invalidLocal (c : Call) (i : Nat) : Bool :=
  match c.queryLocal i with
  | none => false
  | some q => nUnique q ≠ 0 && nPickone q ≠ 0

/-- The key of the resource that a hint fixes for an index. -/
def Call.fixedKey (c : Call) (i : Nat) : Option CStr :=
  if i < c.fixedSize then c.hints.map fun h => (h i).fixedRidKey else none

/-- The slot of a resource in the table. -/
def Call.slotOf (c : Call) (key : CStr) : Option Nat :=
  c.rids.findIdx? fun rse => rse.ridKey = key

/-- The body of the loop over the indices. -/
def turn (c : Call) (i : Nat) (st : ReqState) : Option (ReqState × TurnEnd) :=
  let st := { st with found := false }
  if c.invalidLocal i then
    some
      ({ st with
          errorCode := some .emptyStack
          hintStatus := Function.update st.hintStatus i (some .hintsInvalidLocal)
          errCnt := st.errCnt + 1 },
        .failed)
  else
    match c.fixedKey i with
    | none =>
      (scanIndex c i (c.rnd i false) st).map fun (s, e) => finishScan c i st s e
    | some key =>
      match c.slotOf key with
      | none =>
        some ({ st with hintStatus := Function.update st.hintStatus i (some .fixedNotFound) },
          .missed)
      | some slot => (scanIndex c i slot st).map fun (s, e) => finishScan c i st s e

/-- The loop over the indices; an index that no hint fixes and that got no resource ends it,
unless a partial list is asked for. -/
def requestLoop (c : Call) : List Nat → ReqState → Option ReqState
  | [], st => some st
  | i :: is, st =>
    match turn c i st with
    | none => none
    | some (st', e) =>
      if e = .missed ∧ c.fixedSize ≤ i ∧ c.partialOk = false then some st'
      else requestLoop c is st'

/-- What a call returns, and what it leaves in its arguments. -/
structure Reply where
  ok : Bool
  error : Option RsError
  req : List RsRequest
  hintStatus : Nat → Option RsError
  changes : Nat → RidChange

def clearReq (req : List RsRequest) : List RsRequest :=
  req.map fun r => { r with ridKey := none, gop := none }

def KvqTable.new (rows picks : Nat) : KvqTable :=
  ⟨List.replicate rows fun _ => ⟨none, none⟩, List.replicate picks ⟨none, none⟩⟩

/-- The variables at the head of the loop. -/
def requestStart (c : Call) (req : List RsRequest) (hintStatus : Nat → Option RsError)
    (changes : Nat → RidChange) : ReqState :=
  { req := clearReq req
    hintStatus := hintStatus
    changes := changes
    kvqGlobal := KvqTable.new (nUnique c.query + 1) (nPickone c.query + 1)
    kvqLocal := KvqTable.new 1 1
    found := false
    errCnt := 0
    errorCode := none }

/-- `rs_simple_request`. -/
def rsSimpleRequest (c : Call) (req : List RsRequest) (hintStatus : Nat → Option RsError)
    (changes : Nat → RidChange) : Option Reply :=
  if c.refreshed then
    match requestLoop c (List.range c.nRid) (requestStart c req hintStatus changes) with
    | none => none
    | some st =>
      if (st.found || c.partialOk) = false ∨ 0 < st.errCnt then
        some
          { ok := false
            error := some (st.errorCode.getD .notEnoughRids)
            req := clearReq st.req
            hintStatus := st.hintStatus
            changes := st.changes }
      else
        some
          { ok := true
            error := none
            req := st.req
            hintStatus := st.hintStatus
            changes := st.changes }
  else some ⟨false, none, clearReq req, hintStatus, changes⟩

end LStore.Rs
