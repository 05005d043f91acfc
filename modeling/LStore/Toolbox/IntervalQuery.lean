import LStore.Base.Partition
import LStore.Toolbox.IntervalInsert

/-!
# Queries of an interval list

Repeated calls of `tbx_isl_next` first yield the labels of the edges that cross the lower
bound, from the highest level down, then the points and the starting intervals of each
node in front of the upper bound, and last what the node at the upper bound lists. There a
list of points hides the intervals that start: the call after the last point finds the
iterator past the comparison with the bound and ends it.
-/

namespace LStore.Toolbox

open Option

variable {κ δ : Type*} [LinearOrder κ]

variable {isl : TbxIsl κ δ} {it it' : IslIter κ δ} {res ds : List δ} {d : δ}

/-- Repeated calls of `tbx_isl_next` yield `res` and then null. -/
def Drains (isl : TbxIsl κ δ) (it : IslIter κ δ) (res : List δ) : Prop :=
  ∀ fuel, res.length < fuel → islDrain isl fuel it = some res

theorem drains_nil (h : (tbxIslNext isl it).1 = none) : Drains isl it [] := by
  intro fuel hfuel
  rcases fuel with _ | fuel
  · simp at hfuel
  obtain ⟨it', hnext⟩ : ∃ it', tbxIslNext isl it = (none, it') := ⟨_, Prod.ext h rfl⟩
  rw [islDrain, hnext]

theorem drains_cons (h : tbxIslNext isl it = (some d, it')) (hrest : Drains isl it' res) :
    Drains isl it (d :: res) := by
  intro fuel hfuel
  rcases fuel with _ | fuel
  · simp at hfuel
  rw [islDrain, h]
  simp [hrest fuel (by simpa using hfuel)]

theorem drains_congr (h : tbxIslNext isl it = tbxIslNext isl it') (hrest : Drains isl it' res) :
    Drains isl it res := by
  intro fuel hfuel
  obtain ⟨fuel, rfl⟩ : ∃ n, fuel = n + 1 := ⟨fuel - 1, by omega⟩
  have hdrain := hrest (fuel + 1) hfuel
  rw [islDrain] at hdrain ⊢
  rw [h]
  exact hdrain

/-- The iterator with another rest of the current list. -/
def IslIter.withEle (it : IslIter κ δ) (ele : List δ) : IslIter κ δ := { it with ele := ele }

/-- What is left of the current list comes first. -/
theorem drains_ele (hfin : it.finished = false) (hrest : Drains isl (it.withEle []) res) :
    Drains isl it (it.ele ++ res) := by
  induction hele : it.ele generalizing it with
  | nil =>
    have heq : it.withEle [] = it := by rw [IslIter.withEle, ← hele]
    rw [← heq]
    exact hrest
  | cons d ds ih =>
    have hnext : tbxIslNext isl it = (some d, it.withEle ds) := by
      rw [tbxIslNext, if_neg (by simp [hfin]), hele]
      rfl
    exact drains_cons hnext (ih hfin hrest rfl)

theorem countLoop_eq (isl : TbxIsl κ δ) (fuel : Nat) (it : IslIter κ δ) (count : Int) :
    countLoop isl fuel it count =
      (islDrain isl fuel it).map fun res => count + (res.length : Int) := by
  induction fuel generalizing it count with
  | zero => rfl
  | succ fuel ih =>
    rw [countLoop, islDrain]
    cases hnext : tbxIslNext isl it with
    | mk data it' =>
      cases data with
      | none => simp
      | some d =>
        simp only [ih, map_map]
        congr 1
        funext res
        simp only [Function.comp_apply, List.length_cons]
        omega

variable {hi : Option κ} {l a b : List (Entry κ)}
variable {chains : List (Labelled κ δ)} {e : Entry κ}

/-- The labels that the scan over the levels below `n` yields. -/
def edgeData (isl : TbxIsl κ δ) (ptr : Nat → Nat) : Nat → List δ
  | 0 => []
  | i + 1 =>
    (match (isl.sl.nodes (ptr i)).data with
      | none => []
      | some _ => (isl.isln (ptr i)).edge i) ++ edgeData isl ptr i

/-- What the node at the upper bound yields. -/
def hiData (n : IslNode δ) : List δ := if n.point = [] then n.start else n.point

/-- What the scan over the nodes of the entries yields. -/
def nodeData (isl : TbxIsl κ δ) (hi : Option κ) : List (Entry κ) → List δ
  | [] => []
  | e :: m =>
    match cmpHi (isl.sl.nodes e.addr) hi with
    | .lt => (isl.isln e.addr).point ++ ((isl.isln e.addr).start ++ nodeData isl hi m)
    | .eq => hiData (isl.isln e.addr)
    | .gt => []

/-- An iterator that scans the nodes, where the scan comes to the entries `m`. -/
structure Scanning (isl : TbxIsl κ δ) (it : IslIter κ δ) (m : List (Entry κ)) (mode : Int) :
    Prop where
  ele : it.ele = []
  ptrLevel : it.ptrLevel = 0
  mode_nonneg : 0 ≤ it.mode
  finished : it.finished = false
  scan : ∃ fuel, m.length < fuel ∧ scanNodes isl it.hi isl.sl.fresh it.sn it.mode =
    scanNodes isl it.hi fuel (m.head?.map Entry.addr) mode

theorem next_of_ptrLevel_zero (hfin : it.finished = false) (hele : it.ele = [])
    (hptr : it.ptrLevel = 0) : tbxIslNext isl it = nextOfNodes isl it := by
  rw [tbxIslNext, if_neg (by simp [hfin])]
  simp [hele, hptr, scanEdges]

/-- A list of the node at the upper bound is the last one. -/
theorem drains_negative (hfin : it.finished = false) (hptr : it.ptrLevel = 0)
    (hmode : it.mode < 0) : Drains isl it it.ele := by
  have hnil : Drains isl (it.withEle []) [] := by
    have hfin' : (it.withEle []).finished = false := hfin
    have hmode' : ¬0 ≤ (it.withEle []).mode := not_le.mpr hmode
    refine drains_nil ?_
    rw [next_of_ptrLevel_zero hfin' rfl hptr, nextOfNodes, if_neg hmode']
  simpa using drains_ele hfin hnil

/-- The iterator that a list of a node was taken from. -/
def IslIter.atNode (it : IslIter κ δ) (ele : List δ) (mode : Int) (sn : Nat) : IslIter κ δ :=
  { it with ele := ele, mode := mode, sn := some sn }

variable {m : List (Entry κ)} {mode : Int}

theorem Scanning.next (h : Scanning isl it m mode) : tbxIslNext isl it = nextOfNodes isl it :=
  next_of_ptrLevel_zero h.finished h.ele h.ptrLevel

/-- A list that the scan finds comes first, and the scan goes on in the node. -/
theorem Scanning.found (h : Scanning isl it (e :: m) mode) (hlen : (e :: m).length < isl.sl.fresh)
    {d ds res mode'} (hmode : 0 ≤ mode')
    (hscan : scanNodes isl it.hi isl.sl.fresh it.sn it.mode = .found d ds mode' e.addr)
    (hrest : ∀ it' : IslIter κ δ, it'.hi = it.hi → Scanning isl it' (e :: m) mode' →
      Drains isl it' res) : Drains isl it (d :: ds ++ res) := by
  have hnext : tbxIslNext isl it = (some d, it.atNode ds mode' e.addr) := by
    rw [h.next, nextOfNodes, if_pos h.mode_nonneg, hscan]
    rfl
  refine drains_cons hnext (drains_ele h.finished (hrest _ rfl ?_))
  exact ⟨rfl, h.ptrLevel, hmode, h.finished, isl.sl.fresh, hlen, rfl⟩

/-- The scan at the node of an entry in front of the upper bound. -/
theorem Scanning.at_node (hwf : Wf isl.sl (a ++ e :: m)) (h : Scanning isl it (e :: m) mode)
    (hlt : cmpHi (isl.sl.nodes e.addr) it.hi = .lt) :
    ∃ fuel, m.length < fuel ∧ scanNodes isl it.hi isl.sl.fresh it.sn it.mode =
      match nodeLists (isl.isln e.addr) mode with
      | some (d, ds, mode) => .found d ds mode e.addr
      | none => scanNodes isl it.hi fuel (m.head?.map Entry.addr) 0 := by
  have hnext : (isl.sl.nodes e.addr).next 0 = m.head?.map Entry.addr := by
    have hedge := hwf.edgeNext_at (Nat.zero_le e.level)
    rw [hwf.edgeNext_eq (by simp) (Nat.zero_le _), onLevel_zero, List.head?_map] at hedge
    exact hedge
  obtain ⟨fuel, hfuel, hscan⟩ := h.scan
  rcases fuel with _ | fuel
  · simp at hfuel
  refine ⟨fuel, by simpa using hfuel, hscan.trans ?_⟩
  cases hlists : nodeLists (isl.isln e.addr) mode with
  | none => simp only [List.head?_cons, map_some, scanNodes, hlt, hnext, hlists]
  | some r => simp only [List.head?_cons, map_some, scanNodes, hlt, hlists]

/-- The lists of a node in front of the upper bound, then what follows. -/
theorem Scanning.drains_node {hi} (hwf : Wf isl.sl (a ++ e :: m))
    (hlt : cmpHi (isl.sl.nodes e.addr) hi = .lt) {res}
    (hrest : ∀ it : IslIter κ δ, it.hi = hi → Scanning isl it m 0 → Drains isl it res)
    (hhi : it.hi = hi) (h : Scanning isl it (e :: m) 0) :
    Drains isl it ((isl.isln e.addr).point ++ ((isl.isln e.addr).start ++ res)) := by
  have hlen := hwf.length_behind
  have hdone : ∀ it : IslIter κ δ, it.hi = hi → ∀ mode, Scanning isl it (e :: m) mode →
      nodeLists (isl.isln e.addr) mode = none → Drains isl it res := by
    intro it hhi mode h hnone
    obtain ⟨fuel, hfuel, hscan⟩ := h.at_node hwf (hhi ▸ hlt)
    rw [hnone] at hscan
    exact hrest it hhi ⟨h.ele, h.ptrLevel, h.mode_nonneg, h.finished, fuel, hfuel, hscan⟩
  have hlist : ∀ it : IslIter κ δ, it.hi = hi → ∀ mode mode' d ds res', 0 ≤ mode' →
      Scanning isl it (e :: m) mode → nodeLists (isl.isln e.addr) mode = some (d, ds, mode') →
      (∀ it : IslIter κ δ, it.hi = hi → Scanning isl it (e :: m) mode' → Drains isl it res') →
      Drains isl it (d :: ds ++ res') := by
    intro it hhi mode mode' d ds res' hmode h hsome hnext
    obtain ⟨fuel, hfuel, hscan⟩ := h.at_node hwf (hhi ▸ hlt)
    rw [hsome] at hscan
    exact h.found hlen hmode hscan fun it' hhi' => hnext it' (hhi'.trans hhi)
  have hstart : ∀ it : IslIter κ δ, it.hi = hi → Scanning isl it (e :: m) 1 →
      Drains isl it ((isl.isln e.addr).start ++ res) := by
    intro it hhi h
    cases hs : (isl.isln e.addr).start with
    | nil => exact hdone it hhi 1 h (by simp [nodeLists, hs])
    | cons d ds =>
      refine hlist it hhi 1 2 d ds res (by decide) h (by simp [nodeLists, hs]) fun it hhi h => ?_
      exact hdone it hhi 2 h (by simp [nodeLists])
  cases hp : (isl.isln e.addr).point with
  | nil =>
    cases hs : (isl.isln e.addr).start with
    | nil => exact hdone it hhi 0 h (by simp [nodeLists, hp, hs])
    | cons d ds =>
      refine hlist it hhi 0 2 d ds res (by decide) h (by simp [nodeLists, hp, hs])
        fun it hhi h => ?_
      exact hdone it hhi 2 h (by simp [nodeLists])
  | cons d ds =>
    exact hlist it hhi 0 1 d ds _ (by decide) h (by simp [nodeLists, hp]) hstart

/-- The scan of the nodes yields what they list. -/
theorem Scanning.drains (hwf : Wf isl.sl (a ++ m)) (h : Scanning isl it m 0) :
    Drains isl it (nodeData isl it.hi m) := by
  induction m generalizing a it with
  | nil =>
    obtain ⟨fuel, hfuel, hscan⟩ := h.scan
    rcases fuel with _ | fuel
    · simp at hfuel
    refine drains_nil ?_
    rw [h.next, nextOfNodes, if_pos h.mode_nonneg, hscan]
    rfl
  | cons e m ih =>
    obtain ⟨fuel, hfuel, hscan⟩ := h.scan
    rcases fuel with _ | fuel
    · simp at hfuel
    rw [List.head?_cons, map_some, scanNodes] at hscan
    cases hcmp : cmpHi (isl.sl.nodes e.addr) it.hi with
    | lt =>
      have hwf' : Wf isl.sl ((a ++ [e]) ++ m) := by simpa using hwf
      have hdata : nodeData isl it.hi (e :: m) = (isl.isln e.addr).point ++
          ((isl.isln e.addr).start ++ nodeData isl it.hi m) := by rw [nodeData, hcmp]
      rw [hdata]
      refine h.drains_node hwf hcmp (fun it' hhi h' => ?_) rfl
      rw [← hhi]
      exact ih hwf' h'
    | gt =>
      rw [hcmp] at hscan
      rw [nodeData, hcmp]
      refine drains_nil ?_
      rw [h.next, nextOfNodes, if_pos h.mode_nonneg, hscan]
    | eq =>
      rw [hcmp] at hscan
      rw [nodeData, hcmp]
      have hstep := h.next
      rw [nextOfNodes, if_pos h.mode_nonneg, hscan] at hstep
      cases hp : (isl.isln e.addr).point with
      | cons d ds =>
        simp only [hp] at hstep
        rw [hiData, hp, if_neg (List.cons_ne_nil d ds)]
        exact drains_cons hstep
          (drains_negative h.finished h.ptrLevel (show (-3 : Int) < 0 by decide))
      | nil =>
        rw [hiData, if_pos hp]
        cases hs : (isl.isln e.addr).start with
        | cons d ds =>
          simp only [hp, hs] at hstep
          exact drains_cons hstep
            (drains_negative h.finished h.ptrLevel (show (-4 : Int) < 0 by decide))
        | nil =>
          simp only [hp, hs] at hstep
          exact drains_nil (by rw [hstep])

/-- The iterator further down the levels. -/
def IslIter.withPtrLevel (it : IslIter κ δ) (n : Nat) : IslIter κ δ := { it with ptrLevel := n }

variable (isl) in
/-- Before the nodes come the edges that lead to the first of them. -/
theorem tbxIslNext_edges (hfin : it.finished = false) (hele : it.ele = []) (hmode : it.mode = 0)
    (k : Nat) :
    tbxIslNext isl (it.withPtrLevel k) =
      match scanEdges isl it.ptr k with
      | some (d, ds, i) => (some d, (it.withPtrLevel i).withEle ds)
      | none => nextOfNodes isl (it.withPtrLevel 0) := by
  rw [tbxIslNext, if_neg (by simp [IslIter.withPtrLevel, hfin])]
  simp only [IslIter.withPtrLevel, hele]
  cases scanEdges isl it.ptr k with
  | some r => rfl
  | none =>
    cases k with
    | zero => simp
    | succ k => simp [hmode]

/-- The scan down the levels yields the labels, then the nodes are scanned. -/
theorem drains_edges (n : Nat) (hfin : it.finished = false) (hele : it.ele = [])
    (hmode : it.mode = 0) {res} (hrest : Drains isl (it.withPtrLevel 0) res) :
    Drains isl (it.withPtrLevel n) (edgeData isl it.ptr n ++ res) := by
  induction n with
  | zero => exact hrest
  | succ n ih =>
    have hnext := tbxIslNext_edges isl hfin hele hmode
    have hpass : scanEdges isl it.ptr (n + 1) = scanEdges isl it.ptr n →
        Drains isl (it.withPtrLevel (n + 1)) (edgeData isl it.ptr n ++ res) := by
      intro hscan
      refine drains_congr ?_ ih
      rw [hnext, hnext, hscan]
    rw [edgeData]
    cases hdata : (isl.sl.nodes (it.ptr n)).data with
    | none => exact hpass (by rw [scanEdges, hdata])
    | some u =>
      cases hedge : (isl.isln (it.ptr n)).edge n with
      | nil => exact hpass (by simp [scanEdges, hdata, hedge])
      | cons d ds =>
        have hstep : tbxIslNext isl (it.withPtrLevel (n + 1)) =
            (some d, (it.withPtrLevel n).withEle ds) := by
          rw [hnext]
          simp [scanEdges, hdata, hedge]
        have hback : ((it.withPtrLevel n).withEle ds).withEle [] = it.withPtrLevel n := by
          simp [IslIter.withEle, IslIter.withPtrLevel, ← hele]
        simp only [List.cons_append, List.append_assoc]
        refine drains_cons hstep (drains_ele hfin ?_)
        rw [hback]
        exact ih

/-- All that an iteration yields. -/
theorem Chained.drains (h : Chained isl (a ++ b) chains) {lo hi} (hcut : Cut (cmpLo lo) a b) :
    Drains isl (tbxIslIterSearch isl lo hi)
      (edgeData isl (predAt a) (isl.sl.currentMax + 1) ++ nodeData isl hi b) := by
  obtain ⟨it, hit⟩ : ∃ it, it = tbxIslIterSearch isl lo hi := ⟨_, rfl⟩
  have hfind := h.wf.findKeyCompare hcut
  have hnext := h.wf.next_predAt_zero
  have hptr : it.ptr = predAt a := by rw [hit, tbxIslIterSearch, hfind]
  have hsn : it.sn = b.head?.map Entry.addr := by
    rw [hit, tbxIslIterSearch, hfind]
    exact hnext
  have hhi : it.hi = hi := by rw [hit, tbxIslIterSearch]
  have hlevel : it.withPtrLevel (isl.sl.currentMax + 1) = it := by
    rw [hit, tbxIslIterSearch]
    rfl
  have hmode : it.mode = 0 := by rw [hit, tbxIslIterSearch]
  have hscanning : Scanning isl (it.withPtrLevel 0) b 0 := by
    refine ⟨by rw [hit]; rfl, rfl, hmode.ge, by rw [hit]; rfl, isl.sl.fresh,
      h.wf.length_behind, ?_⟩
    change scanNodes isl it.hi isl.sl.fresh it.sn it.mode = _
    rw [hsn, hmode]
    rfl
  have hnodes := hscanning.drains h.wf
  have hedges := drains_edges (isl.sl.currentMax + 1) (by rw [hit]; rfl) (by rw [hit]; rfl)
    hmode hnodes
  rw [hlevel, hptr] at hedges
  rw [← hit, ← hhi]
  exact hedges

end LStore.Toolbox
