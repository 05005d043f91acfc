import Mathlib.Order.Lattice

/-!
# Skip lists

The skip list of `src/toolbox/skiplist.c` over a linear order of keys: nodes with a
`next` pointer on every level up to their own, a head node without a key, and the
elements of a key in a chain that starts in its node.

## Implementation notes

Nodes live at addresses handed out in order, the head at `0`. A null pointer is
`none`; an entry of a `ptr` array that was never set reads as the head. The number
of coin flips that `get_random_level` wins is an argument of every insertion. Walks
along a level take the number of allocated nodes as fuel. Freed nodes stay in the
heap and no pointer leads to them.
-/

namespace LStore.Toolbox

variable {κ δ : Type*}

/-- `tbx_sl_node_t`. The element chain is the embedded element and what follows it. -/
structure SlNode (κ δ : Type*) where
  level : Nat
  key : Option κ
  next : Nat → Option Nat
  data : Option δ
  dups : List (Option δ)

/-- The elements of a node, in chain order. -/
def SlNode.elements (n : SlNode κ δ) : List (Option δ) := n.data :: n.dups

/-- `create_skiplist_node`. -/
def SlNode.create (level : Nat) : SlNode κ δ := ⟨level, none, fun _ => none, none, []⟩

/-- A node with other next pointers. -/
def SlNode.withNext (n : SlNode κ δ) (next : Nat → Option Nat) : SlNode κ δ :=
  { n with next := next }

/-- `tbx_sl_t`, with its heap of nodes. -/
structure TbxSl (κ δ : Type*) where
  nodes : Nat → SlNode κ δ
  fresh : Nat
  maxLevels : Nat
  currentMax : Nat
  allowDups : Bool
  nKeys : Int
  nEle : Int

/-- The address of the head node. -/
def head : Nat := 0

/-- `tbx_sl_new_full`. -/
def tbxSlNew (maxLevels : Nat) (allowDups : Bool) : TbxSl κ δ where
  nodes := fun _ => SlNode.create (maxLevels - 1)
  fresh := 1
  maxLevels := maxLevels
  currentMax := 0
  allowDups := allowDups
  nKeys := 0
  nEle := 0

/-- Set the next pointer of a node on one level. -/
def setNext (nodes : Nat → SlNode κ δ) (a i : Nat) (p : Option Nat) : Nat → SlNode κ δ :=
  Function.update nodes a ((nodes a).withNext (Function.update (nodes a).next i p))

/-- `get_random_level` with `flips` won coin flips. -/
def getRandomLevel (maxLevel flips currentMax : Nat) : Nat :=
  let level := min flips (maxLevel - 1)
  if currentMax < level then currentMax + 1 else level

/-- The comparison of a node's key. -/
def SlNode.cmp (n : SlNode κ δ) (cmp : κ → Ordering) : Ordering :=
  match n.key with
  | none => .lt
  | some k => cmp k

/-- The inner loop of `find_key_compare`: the last node of level `i` that compares as
smaller, and the comparison of the node behind it. -/
def walkLevel (nodes : Nat → SlNode κ δ) (cmp : κ → Ordering) (i : Nat) :
    Nat → Nat → Nat × Ordering
  | 0, sn => (sn, .lt)
  | fuel + 1, sn =>
    match (nodes sn).next i with
    | none => (sn, .lt)
    | some n =>
      match (nodes n).cmp cmp with
      | .lt => walkLevel nodes cmp i fuel n
      | c => (sn, c)

/-- The outer loop of `find_key_compare`, from level `i` down. -/
def findLevels (nodes : Nat → SlNode κ δ) (cmp : κ → Ordering) (fuel : Nat) :
    Nat → Nat → (Nat → Nat) → (Nat → Nat) × Ordering
  | 0, sn, ptr =>
    let (sn, c) := walkLevel nodes cmp 0 fuel sn
    (Function.update ptr 0 sn, c)
  | i + 1, sn, ptr =>
    let (sn, _) := walkLevel nodes cmp (i + 1) fuel sn
    findLevels nodes cmp fuel i sn (Function.update ptr (i + 1) sn)

/-- `find_key_compare`: the array `ptr` and the last comparison. The comparison is with
the key, or the fixed result for a null key. -/
def findKeyCompare (sl : TbxSl κ δ) (cmp : κ → Ordering) : (Nat → Nat) × Ordering :=
  findLevels sl.nodes cmp sl.fresh sl.currentMax head fun _ => head

variable [LinearOrder κ]

/-- `find_key` for a key that is not null. -/
def findKey (sl : TbxSl κ δ) (key : κ) : (Nat → Nat) × Ordering :=
  findKeyCompare sl fun k => compare k key

/-- `tbx_sl_first_key`. -/
def tbxSlFirstKey (sl : TbxSl κ δ) : Option κ :=
  if sl.nKeys ≤ 0 then none
  else
    let (ptr, _) := findKeyCompare sl fun _ => .gt
    ((sl.nodes (ptr 0)).next 0).bind fun n => (sl.nodes n).key

/-- `tbx_sl_key_last`. -/
def tbxSlKeyLast (sl : TbxSl κ δ) : Option κ :=
  if sl.nKeys ≤ 0 then none
  else
    let (ptr, _) := findKeyCompare sl fun _ => .lt
    (sl.nodes (ptr 0)).key

/-- One level of the link loop of `pos_tbx_sl_insert`. -/
def linkLevel (ptr : Nat → Nat) (sn2 : Nat) (nodes : Nat → SlNode κ δ) (i : Nat) :
    Nat → SlNode κ δ :=
  setNext (setNext nodes sn2 i ((nodes (ptr i)).next i)) (ptr i) i (some sn2)

/-- `pos_tbx_sl_insert`: the list and the new node. The head is the predecessor on a level
that is new. -/
def posTbxSlInsert (sl : TbxSl κ δ) (ptr : Nat → Nat) (key : κ) (data : Option δ) (flips : Nat) :
    TbxSl κ δ × Nat :=
  let level := getRandomLevel sl.maxLevels flips sl.currentMax
  let sn2 := sl.fresh
  let ptr := fun i => if sl.currentMax < i then head else ptr i
  let nodes := Function.update sl.nodes sn2 (SlNode.create level)
  let nodes := (List.range (level + 1)).foldl (linkLevel ptr sn2) nodes
  let nodes := Function.update nodes sn2 { nodes sn2 with key := some key, data := data }
  ({ sl with nodes := nodes, fresh := sl.fresh + 1, currentMax := max sl.currentMax level }, sn2)

variable [DecidableEq δ]

/-- `tbx_sl_insert`. -/
def tbxSlInsert (sl : TbxSl κ δ) (key : κ) (data : Option δ) (flips : Nat) : TbxSl κ δ :=
  let (ptr, cmp) := findKey sl key
  match cmp, (sl.nodes (ptr 0)).next 0 with
  | .eq, some sn =>
    let n := sl.nodes sn
    if sl.allowDups then
      { sl with
        nodes := Function.update sl.nodes sn { n with dups := data :: n.dups }
        nEle := sl.nEle + 1 }
    else
      { sl with nodes := Function.update sl.nodes sn { n with data := data } }
  | _, _ =>
    (posTbxSlInsert { sl with nKeys := sl.nKeys + 1, nEle := sl.nEle + 1 } ptr key data flips).1

/-- How far the highest level comes down: the loop over empty levels. -/
def lowerMax (nodes : Nat → SlNode κ δ) : Nat → Nat
  | 0 => 0
  | i + 1 => if (nodes head).next (i + 1) = none then lowerMax nodes i else i + 1

/-- Unlink a node that has no elements left. -/
def unlinkNode (sl : TbxSl κ δ) (ptr : Nat → Nat) (sn2 : Nat) : TbxSl κ δ :=
  let level := (sl.nodes sn2).level
  let nodes := (List.range (level + 1)).foldl
    (fun nodes i => setNext nodes (ptr i) i ((nodes sn2).next i)) sl.nodes
  { sl with
    nodes := nodes
    currentMax := if level = sl.currentMax then lowerMax nodes sl.currentMax else sl.currentMax
    nKeys := sl.nKeys - 1 }

/-- `tbx_sl_remove`: the list and the status, 0 for a removal. Null data stands for all
elements of the key. -/
def tbxSlRemove (sl : TbxSl κ δ) (key : κ) (data : Option δ) : TbxSl κ δ × Int :=
  let (ptr, cmp) := findKey sl key
  match cmp, (sl.nodes (ptr 0)).next 0 with
  | .eq, some sn =>
    let n := sl.nodes sn
    match data with
    | none =>
      (unlinkNode { sl with nEle := sl.nEle - (n.dups.length + 1) } ptr sn, 0)
    | some _ =>
      if n.data = data then
        match n.dups with
        | [] => (unlinkNode { sl with nEle := sl.nEle - 1 } ptr sn, 0)
        | d :: ds =>
          ({ sl with
             nodes := Function.update sl.nodes sn { n with data := d, dups := ds }
             nEle := sl.nEle - 1 }, 0)
      else if data ∈ n.dups then
        ({ sl with
           nodes := Function.update sl.nodes sn { n with dups := n.dups.erase data }
           nEle := sl.nEle - 1 }, 0)
      else (sl, 1)
  | _, _ => (sl, 1)

/-- `tbx_sl_empty`. -/
def tbxSlEmpty (sl : TbxSl κ δ) : TbxSl κ δ :=
  let h := sl.nodes head
  { sl with
    nodes := Function.update sl.nodes head
      (h.withNext fun i => if i < sl.maxLevels then none else h.next i)
    nKeys := 0
    nEle := 0
    currentMax := 0 }

/-- `tbx_sl_iter_t`: the node, and the elements of it that are left. -/
structure SlIter (δ : Type*) where
  sn : Option Nat
  ele : List (Option δ)

/-- `tbx_sl_iter_search_compare`. -/
def tbxSlIterSearchCompare (sl : TbxSl κ δ) (cmp : κ → Ordering) (roundMode : Int) : SlIter δ :=
  let (ptr, c) := findKeyCompare sl cmp
  if roundMode < -1 ∨ (roundMode < 0 ∧ c ≠ .eq) then
    ⟨some (ptr 0), (sl.nodes (ptr 0)).elements⟩
  else
    match (sl.nodes (ptr 0)).next 0 with
    | none => ⟨none, []⟩
    | some n => ⟨some n, (sl.nodes n).elements⟩

/-- `tbx_sl_next`: the next key and element, if there is one. -/
def tbxSlNext (sl : TbxSl κ δ) (it : SlIter δ) : Option (Option κ × Option δ) × SlIter δ :=
  match it.sn, it.ele with
  | none, _ => (none, it)
  | some sn, d :: ds => (some ((sl.nodes sn).key, d), ⟨some sn, ds⟩)
  | some sn, [] =>
    match (sl.nodes sn).next 0 with
    | none => (none, ⟨none, []⟩)
    | some n => (some ((sl.nodes n).key, (sl.nodes n).data), ⟨some n, (sl.nodes n).dups⟩)

/-- Call `tbx_sl_next` until it fails, at most `fuel` times. -/
def drain (sl : TbxSl κ δ) : Nat → SlIter δ → List (Option κ × Option δ)
  | 0, _ => []
  | fuel + 1, it =>
    match tbxSlNext sl it with
    | (none, _) => []
    | (some e, it) => e :: drain sl fuel it

/-- `tbx_sl_search_compare`. -/
def tbxSlSearchCompare (sl : TbxSl κ δ) (cmp : κ → Ordering) : Option δ :=
  match (tbxSlIterSearchCompare sl cmp 0).sn with
  | none => none
  | some sn => if (sl.nodes sn).cmp cmp = .eq then (sl.nodes sn).data else none

end LStore.Toolbox
