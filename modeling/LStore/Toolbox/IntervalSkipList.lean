import LStore.Toolbox.SkipList

/-!
# Interval skip lists

The interval list of `src/toolbox/interval_skiplist.c`: a skip list of end points, with
an interval node for each of them. An interval labels edges that lead from its lower to
its upper end point, and is listed where it starts; a point is listed in its node.

## Implementation notes

The interval node of an end point has the address of its skip-list node; a null `ele.data`
(the head) has none. Data pointers are values of `δ`: the null pointer, which ends an
iteration, is not among them. `ptrLevel` of an iterator is one more than `ptr_level`.
The loops over nodes take the number of allocated nodes as fuel.
-/

namespace LStore.Toolbox

variable {κ δ : Type*}

/-- `tbx_isl_node_t`. -/
structure IslNode (δ : Type*) where
  edge : Nat → List δ
  point : List δ
  start : List δ
  nEnd : Int

/-- `create_isl_node`. -/
def IslNode.create : IslNode δ := ⟨fun _ => [], [], [], 0⟩

/-- A node with other edge labels. -/
def IslNode.withEdge (n : IslNode δ) (edge : Nat → List δ) : IslNode δ := { n with edge := edge }

/-- A node with another list of points. -/
def IslNode.withPoint (n : IslNode δ) (point : List δ) : IslNode δ := { n with point := point }

/-- A node with another list of intervals that start here. -/
def IslNode.withStart (n : IslNode δ) (start : List δ) : IslNode δ := { n with start := start }

/-- A node with another number of intervals that end here. -/
def IslNode.withEnd (n : IslNode δ) (nEnd : Int) : IslNode δ := { n with nEnd := nEnd }

/-- `tbx_isl_t`, with its heap of interval nodes. -/
structure TbxIsl (κ δ : Type*) where
  sl : TbxSl κ Unit
  isln : Nat → IslNode δ
  nIntervals : Int

/-- `tbx_isl_new_full`. -/
def tbxIslNew (maxLevels : Nat) : TbxIsl κ δ :=
  ⟨tbxSlNew maxLevels true, fun _ => IslNode.create, 0⟩

/-- `append_isl_data`. -/
def appendIslData (list : List δ) (data : δ) : List δ := data :: list

/-- `copy_isl_data`. -/
def copyIslData (src dest : List δ) : List δ := src.foldl appendIslData dest

/-- `remove_isl_data`: the list and the status, 0 for a removal. -/
def removeIslData [DecidableEq δ] (list : List δ) (data : δ) : List δ × Int :=
  if data ∈ list then (list.erase data, 0) else (list, 1)

/-- `isl_node_is_empty`. -/
def islNodeIsEmpty (n : IslNode δ) : Bool :=
  n.point.isEmpty && n.start.isEmpty && decide (n.nEnd ≤ 0)

variable [LinearOrder κ]

/-- The node of an end point. A new node takes over the labels of the edges that it splits. -/
def addEndPoint (isl : TbxIsl κ δ) (key : κ) (flips : Nat) : TbxIsl κ δ × Nat :=
  let (ptr, cmp) := findKey isl.sl key
  match cmp, (isl.sl.nodes (ptr 0)).next 0 with
  | .eq, some sn => (isl, sn)
  | _, _ =>
    let (sl, sn) := posTbxSlInsert isl.sl ptr key (some ()) flips
    let edge := fun i =>
      if i ≤ (sl.nodes sn).level ∧ ptr i ≠ head then
        copyIslData ((isl.isln (ptr i)).edge i) (IslNode.create.edge i)
      else IslNode.create.edge i
    ({ isl with
       sl := sl
       isln := Function.update isl.isln sn (IslNode.create.withEdge edge) }, sn)

/-- Whether the edge of level `i` leads to a node not behind `hi`. -/
def reaches (nodes : Nat → SlNode κ Unit) (hi : κ) (sn i : Nat) : Bool :=
  match (nodes sn).next i with
  | none => false
  | some sn2 => (nodes sn2).cmp (fun k => compare k hi) != .gt

/-- The highest edge below level `i` that leads to a node not behind `hi`. -/
def highestEdge (nodes : Nat → SlNode κ Unit) (hi : κ) (sn : Nat) : Nat → Option Nat
  | 0 => none
  | i + 1 => if reaches nodes hi sn i then some i else highestEdge nodes hi sn i

/-- The walk of `tbx_isl_insert` that labels the highest edges up to the node of `hi`. -/
def labelWalk (nodes : Nat → SlNode κ Unit) (hi : κ) (snHi : Nat) (data : δ) :
    Nat → Nat → (Nat → IslNode δ) → Nat → IslNode δ
  | 0, _, isln => isln
  | fuel + 1, sn, isln =>
    if sn = snHi then isln
    else
      match highestEdge nodes hi sn ((nodes sn).level + 1) with
      | some j =>
        let n := isln sn
        let isln := Function.update isln sn
          (n.withEdge (Function.update n.edge j (appendIslData (n.edge j) data)))
        match (nodes sn).next j with
        | none => isln
        | some sn => labelWalk nodes hi snHi data fuel sn isln
      | none =>
        match (nodes sn).next 0 with
        | none => isln
        | some sn => labelWalk nodes hi snHi data fuel sn isln

/-- List an interval at the nodes of its end points: the start and end lists do not include
points. -/
def listEnds (isln : Nat → IslNode δ) (sn snHi : Nat) (data : δ) : Nat → IslNode δ :=
  let n := isln sn
  let isln := Function.update isln sn (n.withStart (appendIslData n.start data))
  let m := isln snHi
  Function.update isln snHi (m.withEnd (m.nEnd + 1))

/-- `tbx_isl_insert`. -/
def tbxIslInsert (isl : TbxIsl κ δ) (lo hi : κ) (data : δ) (flipsHi flipsLo : Nat) : TbxIsl κ δ :=
  let isl := { isl with nIntervals := isl.nIntervals + 1 }
  let (isl, snHi) := addEndPoint isl hi flipsHi
  let (isl, sn) := addEndPoint isl lo flipsLo
  if compare lo hi = .eq then
    let n := isl.isln sn
    { isl with isln := Function.update isl.isln sn (n.withPoint (appendIslData n.point data)) }
  else
    { isl with
      isln := labelWalk isl.sl.nodes hi snHi data isl.sl.fresh sn
        (listEnds isl.isln sn snHi data) }

variable [DecidableEq δ]

/-- The loop over the levels of a node in `tbx_isl_remove`, from below level `i` down. It stops
early when an edge was `found`, which is never set. -/
def untagLevels (nodes : Nat → SlNode κ Unit) (hi : κ) (data : δ) (sn : Nat) :
    Nat → (Nat → List δ) → Nat → List δ
  | 0, edge => edge
  | i + 1, edge =>
    untagLevels nodes hi data sn i
      (if reaches nodes hi sn i then
        Function.update edge i (removeIslData (edge i) data).1 else edge)

/-- The walk of `tbx_isl_remove` along the nodes in front of `hi`, and where it ends. -/
def untagWalk (nodes : Nat → SlNode κ Unit) (hi : κ) (data : δ) :
    Nat → Nat → (Nat → IslNode δ) → (Nat → IslNode δ) × Nat
  | 0, sn, isln => (isln, sn)
  | fuel + 1, sn, isln =>
    match (nodes sn).cmp (fun k => compare k hi) with
    | .lt =>
      let n := isln sn
      let isln := Function.update isln sn
        (n.withEdge (untagLevels nodes hi data sn ((nodes sn).level + 1) n.edge))
      match (nodes sn).next 0 with
      | none => (isln, sn)
      | some sn => untagWalk nodes hi data fuel sn isln
    | _ => (isln, sn)

/-- Remove the node of an end point at which no interval is listed any more. -/
def dropIfEmpty (isl : TbxIsl κ δ) (sn : Nat) (key : κ) : TbxIsl κ δ :=
  if islNodeIsEmpty (isl.isln sn) then { isl with sl := (tbxSlRemove isl.sl key none).1 } else isl

/-- `tbx_isl_remove`: the list and the status, 0 for a removal. -/
def tbxIslRemove (isl : TbxIsl κ δ) (lo hi : κ) (data : δ) : TbxIsl κ δ × Int :=
  let (ptr, cmp) := findKey isl.sl lo
  match cmp, (isl.sl.nodes (ptr 0)).next 0 with
  | .eq, some snLo =>
    let isl := { isl with nIntervals := isl.nIntervals - 1 }
    let n := isl.isln snLo
    if compare lo hi = .eq then
      let (point, err) := removeIslData n.point data
      let isl := { isl with isln := Function.update isl.isln snLo (n.withPoint point) }
      (dropIfEmpty isl snLo lo, err)
    else
      let (start, err) := removeIslData n.start data
      let isln := Function.update isl.isln snLo (n.withStart start)
      let (isln, sn) := untagWalk isl.sl.nodes hi data isl.sl.fresh snLo isln
      let m := isln sn
      let isl := { isl with isln := Function.update isln sn (m.withEnd (m.nEnd - 1)) }
      let isl := dropIfEmpty isl sn hi
      (if sn = snLo then isl else dropIfEmpty isl snLo lo, err)
  | _, _ => (isl, 1)

/-- `tbx_isl_iter_t`. -/
structure IslIter (κ δ : Type*) where
  hi : Option κ
  sn : Option Nat
  ele : List δ
  ptr : Nat → Nat
  mode : Int
  ptrLevel : Nat
  finished : Bool

/-- The comparison of a key with the lower bound of a search. -/
def cmpLo (lo : Option κ) (k : κ) : Ordering :=
  match lo with
  | none => .gt
  | some lo => compare k lo

/-- `tbx_isl_iter_search`. Null bounds are `none`. -/
def tbxIslIterSearch (isl : TbxIsl κ δ) (lo hi : Option κ) : IslIter κ δ :=
  let (ptr, _) := findKeyCompare isl.sl (cmpLo lo)
  { hi := hi
    sn := (isl.sl.nodes (ptr 0)).next 0
    ele := []
    ptr := ptr
    mode := 0
    ptrLevel := isl.sl.currentMax + 1
    finished := false }

/-- The scan down the `ptr` list: the labels of the next edge that has some, and the level. -/
def scanEdges (isl : TbxIsl κ δ) (ptr : Nat → Nat) : Nat → Option (δ × List δ × Nat)
  | 0 => none
  | i + 1 =>
    match (isl.sl.nodes (ptr i)).data with
    | none => scanEdges isl ptr i
    | some _ =>
      match (isl.isln (ptr i)).edge i with
      | [] => scanEdges isl ptr i
      | d :: ds => some (d, ds, i)

/-- How the scan over the nodes ends: with a list of a node, at a node not in front of `hi`
with its comparison, or off the list. -/
inductive NodeScan (δ : Type*) where
  | found (data : δ) (ele : List δ) (mode : Int) (sn : Nat)
  | atHi (sn : Nat) (cmp : Ordering)
  | off

/-- The lists of a node from `mode` on: 0 for the points, 1 for the intervals that start. -/
def nodeLists (n : IslNode δ) (mode : Int) : Option (δ × List δ × Int) :=
  match decide (mode ≤ 0), n.point, decide (mode ≤ 1), n.start with
  | true, d :: ds, _, _ => some (d, ds, 1)
  | _, _, true, d :: ds => some (d, ds, 2)
  | _, _, _, _ => none

/-- The comparison of a node's key with the upper bound of a search. -/
def cmpHi (n : SlNode κ Unit) (hi : Option κ) : Ordering :=
  match hi with
  | none => .lt
  | some hi => n.cmp fun k => compare k hi

/-- The scan over the nodes in front of `hi`. -/
def scanNodes (isl : TbxIsl κ δ) (hi : Option κ) : Nat → Option Nat → Int → NodeScan δ
  | 0, _, _ => .off
  | _ + 1, none, _ => .off
  | fuel + 1, some sn, mode =>
    match cmpHi (isl.sl.nodes sn) hi with
    | .lt =>
      match nodeLists (isl.isln sn) mode with
      | some (d, ds, mode) => .found d ds mode sn
      | none => scanNodes isl hi fuel ((isl.sl.nodes sn).next 0) 0
    | cmp => .atHi sn cmp

/-- `tbx_isl_next` behind the scan of the `ptr` list: the nodes in front of `hi`, then the node
at `hi`. A call that starts in a negative mode makes no comparison with `hi`. -/
def nextOfNodes (isl : TbxIsl κ δ) (it : IslIter κ δ) : Option δ × IslIter κ δ :=
  if 0 ≤ it.mode then
    match scanNodes isl it.hi isl.sl.fresh it.sn it.mode with
    | .found d ds mode sn => (some d, { it with ele := ds, mode := mode, sn := some sn })
    | .atHi sn .eq =>
      match (isl.isln sn).point, (isl.isln sn).start with
      | d :: ds, _ => (some d, { it with ele := ds, mode := -3 })
      | [], d :: ds => (some d, { it with ele := ds, mode := -4 })
      | [], [] => (none, { it with mode := -4, finished := true })
    | .atHi _ _ => (none, { it with mode := -2, finished := true })
    | .off => (none, { it with mode := 0, finished := true })
  else (none, { it with finished := true })

/-- `tbx_isl_next`: the next interval, `none` at the end. -/
def tbxIslNext (isl : TbxIsl κ δ) (it : IslIter κ δ) : Option δ × IslIter κ δ :=
  if it.finished then (none, it)
  else
    match it.ele with
    | d :: ds => (some d, { it with ele := ds })
    | [] =>
      match scanEdges isl it.ptr it.ptrLevel with
      | some (d, ds, i) => (some d, { it with ele := ds, ptrLevel := i })
      | none =>
        nextOfNodes isl (if 0 < it.ptrLevel then { it with ptrLevel := 0, mode := 0 } else it)

/-- Call `tbx_isl_next` up to the first null, at most `fuel` times. -/
def islDrain (isl : TbxIsl κ δ) : Nat → IslIter κ δ → Option (List δ)
  | 0, _ => none
  | fuel + 1, it =>
    match tbxIslNext isl it with
    | (none, _) => some []
    | (some d, it) => (islDrain isl fuel it).map (d :: ·)

/-- The loop of `tbx_isl_range_count`. -/
def countLoop (isl : TbxIsl κ δ) : Nat → IslIter κ δ → Int → Option Int
  | 0, _, _ => none
  | fuel + 1, it, count =>
    match tbxIslNext isl it with
    | (none, _) => some count
    | (some _, it) => countLoop isl fuel it (count + 1)

/-- `tbx_isl_range_count`, within `fuel` calls of `tbx_isl_next`. -/
def tbxIslRangeCount (isl : TbxIsl κ δ) (fuel : Nat) (lo hi : Option κ) : Option Int :=
  countLoop isl fuel (tbxIslIterSearch isl lo hi) 0

end LStore.Toolbox
