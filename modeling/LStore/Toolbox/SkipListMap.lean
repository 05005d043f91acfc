import LStore.Toolbox.SkipListUpdate
import Mathlib.Algebra.Ring.Nat
import Mathlib.Order.Bounds.Basic

/-!
# A skip list is a sorted multimap

The abstract state of a skip list maps every key to its elements, in chain order; a
key without elements is not stored. Every operation of `src/toolbox/skiplist.c`
refines its abstract counterpart, so that after any run the levels, the counters, the
searches and the iteration can be read off the abstract state.
-/

namespace LStore.Toolbox

open Links List Function

variable {κ δ : Type*}

section

/-- An inserted element goes behind the first one, or replaces it. -/
def insertElement (dups : Bool) (d : Option δ) : List (Option δ) → List (Option δ)
  | [] => [d]
  | h :: t => if dups then h :: d :: t else d :: t

/-- Null data removes all elements, other data the first element that matches. -/
def removeElement [DecidableEq δ] (es : List (Option δ)) : Option δ → List (Option δ)
  | none => []
  | some d => es.erase (some d)

/-- The calls that change a list. An insertion carries its coin flips. -/
inductive SlOp (κ δ : Type*) where
  | insert (key : κ) (data : Option δ) (flips : Nat)
  | remove (key : κ) (data : Option δ)
  | empty

/-- The effect of a call on the abstract state. -/
def SlOp.spec [DecidableEq κ] [DecidableEq δ] (dups : Bool) (M : κ → List (Option δ)) :
    SlOp κ δ → κ → List (Option δ)
  | .insert key data _ => Function.update M key (insertElement dups data (M key))
  | .remove key data => Function.update M key (removeElement (M key) data)
  | .empty => fun _ => []

/-- The effect of a call on the list. -/
def SlOp.apply [LinearOrder κ] [DecidableEq δ] (sl : TbxSl κ δ) : SlOp κ δ → TbxSl κ δ
  | .insert key data flips => tbxSlInsert sl key data flips
  | .remove key data => (tbxSlRemove sl key data).1
  | .empty => tbxSlEmpty sl

end

section

variable {M M' : κ → List (Option δ)} {l : List (Entry κ)}

/-- The number of elements of the entries. -/
def size (M : κ → List (Option δ)) (l : List (Entry κ)) : Nat :=
  (l.map fun e => (M e.key).length).sum

@[simp] theorem size_nil (M : κ → List (Option δ)) : size M [] = 0 := rfl

@[simp] theorem size_cons (M : κ → List (Option δ)) (e : Entry κ) (l : List (Entry κ)) :
    size M (e :: l) = (M e.key).length + size M l := by
  simp [size]

@[simp] theorem size_append (M : κ → List (Option δ)) (l m : List (Entry κ)) :
    size M (l ++ m) = size M l + size M m := by
  simp [size]

theorem size_congr (h : ∀ e ∈ l, M' e.key = M e.key) : size M' l = size M l := by
  induction l with
  | nil => rfl
  | cons e l ih =>
    rw [size_cons, size_cons, h e (by simp), ih fun f hf => h f (by simp [hf])]

end

section

variable [LinearOrder κ] {sl : TbxSl κ δ} {l a b : List (Entry κ)} {e : Entry κ}
variable {M : κ → List (Option δ)} {key : κ}

/-- The list with entries `l` stores the multimap `M`. -/
structure Stores (sl : TbxSl κ δ) (l : List (Entry κ)) (M : κ → List (Option δ)) : Prop where
  wf : Wf sl l
  elements : ∀ e ∈ l, (sl.nodes e.addr).elements = M e.key
  stored : ∀ k, M k ≠ [] → ∃ e ∈ l, e.key = k
  nKeys : sl.nKeys = l.length
  nEle : sl.nEle = size M l

theorem Stores.ne_nil (h : Stores sl l M) (he : e ∈ l) : M e.key ≠ [] := by
  rw [← h.elements e he]
  exact cons_ne_nil _ _

theorem Stores.elements_cons (h : Stores sl (a ++ e :: b) M) :
    M e.key = (sl.nodes e.addr).data :: (sl.nodes e.addr).dups :=
  (h.elements e (by simp)).symm

theorem Stores.mem_iff (h : Stores sl l M) (k : κ) : M k ≠ [] ↔ k ∈ l.map Entry.key := by
  constructor
  · intro hk
    obtain ⟨e, he, rfl⟩ := h.stored k hk
    exact mem_map_of_mem he
  · intro hk
    obtain ⟨e, he, rfl⟩ := mem_map.mp hk
    exact h.ne_nil he

theorem Stores.absent (h : Stores sl (a ++ b) M) (ha : ∀ f ∈ a, f.key < key)
    (hb : ∀ f ∈ b, key < f.key) : M key = [] := by
  by_contra hne
  obtain ⟨f, hf, rfl⟩ := h.stored key hne
  rcases mem_append.mp hf with hf | hf
  · exact lt_irrefl _ (ha f hf)
  · exact lt_irrefl _ (hb f hf)

/-- The entries `old` of one key, none or one, give way to `new`, which hold `v`. -/
theorem Stores.replace {sl' v} (old new : List (Entry κ)) (h : Stores sl (a ++ (old ++ b)) M)
    (hwf : Wf sl' (a ++ (new ++ b))) (hold : ∀ f ∈ old, f.key = key)
    (hnew : ∀ f ∈ new, f.key = key ∧ (sl'.nodes f.addr).elements = v) (hv : v ≠ [] → new ≠ [])
    (hrest : ∀ f ∈ a ++ b, f.key ≠ key ∧ (sl'.nodes f.addr).elements = (sl.nodes f.addr).elements)
    (hkeys : sl'.nKeys = sl.nKeys - old.length + new.length)
    (hele : sl'.nEle = sl.nEle - size M old + size (Function.update M key v) new) :
    Stores sl' (a ++ (new ++ b)) (Function.update M key v) := by
  have hM : ∀ f ∈ a ++ b, update M key v f.key = M f.key :=
    fun f hf => update_of_ne (hrest f hf).1 _ _
  refine ⟨hwf, fun f hf => ?_, fun k hk => ?_, ?_, ?_⟩
  · by_cases hf' : f ∈ new
    · rw [(hnew f hf').1, update_self, (hnew f hf').2]
    · have hmem : f ∈ a ++ b := by
        simp only [mem_append] at hf ⊢
        tauto
      rw [hM f hmem, (hrest f hmem).2]
      exact h.elements f (by simp at hmem ⊢; tauto)
  · by_cases hke : k = key
    · rw [hke, update_self] at hk
      obtain ⟨f, hf⟩ := exists_mem_of_ne_nil _ (hv hk)
      exact ⟨f, by simp [hf], (hnew f hf).1.trans hke.symm⟩
    · rw [update_of_ne hke] at hk
      obtain ⟨f, hf, rfl⟩ := h.stored k hk
      exact ⟨f, by simp only [mem_append] at hf ⊢; tauto, rfl⟩
  · simp only [hkeys, h.nKeys, length_append]
    omega
  · simp only [hele, h.nEle, size_append, size_congr fun f hf => hM f (mem_append_left b hf),
      size_congr fun f hf => hM f (mem_append_right a hf)]
    omega

/-- Other elements in one node. -/
theorem Stores.setElements (h : Stores sl (a ++ e :: b) M) {n}
    (hkey : n.key = (sl.nodes e.addr).key) (hlevel : n.level = (sl.nodes e.addr).level)
    (hnext : n.next = (sl.nodes e.addr).next) {c}
    (hc : c = sl.nEle - (M e.key).length + n.elements.length) :
    Stores { sl with nodes := Function.update sl.nodes e.addr n, nEle := c } (a ++ e :: b)
      (Function.update M e.key n.elements) := by
  have hothers := h.wf.others
  refine Stores.replace [e] [e] h (h.wf.congr (fun x => ?_) rfl rfl rfl) (by simp) (by simp)
    (by simp) (fun f hf => ⟨(hothers f hf).1, ?_⟩) (by simp) (by simp [hc])
  · dsimp only
    by_cases hx : x = e.addr
    · subst hx
      rw [update_self]
      exact ⟨hkey, hlevel, hnext⟩
    · rw [update_of_ne hx]
      exact ⟨rfl, rfl, rfl⟩
  · dsimp only
    rw [update_of_ne (hothers f hf).2]

/-- A node taken out. -/
theorem Stores.unlinkNode (h : Stores sl (a ++ e :: b) M) {c}
    (hc : c = sl.nEle - (M e.key).length) :
    Stores (unlinkNode { sl with nEle := c } (predAt a) e.addr) (a ++ b)
      (Function.update M e.key []) := by
  have hwf : Wf { sl with nEle := c } (a ++ e :: b) :=
    h.wf.congr (fun _ => ⟨rfl, rfl, rfl⟩) rfl rfl rfl
  refine Stores.replace [e] [] h hwf.unlinkNode (by simp) (by simp) (by simp)
    (fun f hf => ⟨(h.wf.others f hf).1, ?_⟩) (by simp [Toolbox.unlinkNode])
    (by simp [Toolbox.unlinkNode, hc])
  rw [hwf.unlinkNode_nodes]
  rfl

/-- A node added for a key that is not stored. -/
theorem Stores.posTbxSlInsert (h : Stores sl (a ++ b) M) (ha : ∀ f ∈ a, f.key < key)
    (hb : ∀ f ∈ b, key < f.key) (data : Option δ) (flips : Nat) :
    ∃ e, Stores (posTbxSlInsert { sl with nKeys := sl.nKeys + 1, nEle := sl.nEle + 1 }
      (predAt a) key data flips).1 (a ++ e :: b) (Function.update M key [data]) := by
  obtain ⟨sl', hsl'⟩ : ∃ s, s = { sl with nKeys := sl.nKeys + 1, nEle := sl.nEle + 1 } := ⟨_, rfl⟩
  have hwf : Wf sl' (a ++ b) := by
    rw [hsl']
    exact h.wf.congr (fun _ => ⟨rfl, rfl, rfl⟩) rfl rfl rfl
  obtain ⟨hdata, hkeep⟩ := hwf.posTbxSlInsert_elements key data flips
  have hnew := hwf.posTbxSlInsert ha hb data flips
  rw [← hsl']
  refine ⟨newEntry sl' key flips, Stores.replace [] [newEntry sl' key flips] h hnew (by simp)
    (fun f hf => ?_) (by simp) (fun f hf => ⟨(hnew.others f hf).1, ?_⟩) ?_ ?_⟩
  · rw [mem_singleton.mp hf]
    exact ⟨rfl, hdata⟩
  · rw [hkeep f.addr (hnew.others f hf).2, hsl']
  · change sl'.nKeys = _
    simp [hsl']
  · change sl'.nEle = _
    simp [hsl', newEntry]

section

variable [DecidableEq δ]

omit [DecidableEq δ] in
/-- `tbx_sl_insert` inserts the element. -/
theorem Stores.tbxSlInsert (h : Stores sl l M) (key : κ) (data : Option δ) (flips : Nat) :
    ∃ l', Stores (tbxSlInsert sl key data flips) l'
      (Function.update M key (insertElement sl.allowDups data (M key))) := by
  obtain ⟨a, b, rfl, ha, hptr, ⟨e, b, rfl, rfl, hcmp, hnext, _⟩ | ⟨hcmp, hb⟩⟩ :=
    h.wf.findKey_cases key
  · have hfind : findKey sl e.key = (predAt a, .eq) := Prod.ext hptr hcmp
    have helems := h.elements_cons
    refine ⟨a ++ e :: b, ?_⟩
    rw [Toolbox.tbxSlInsert, hfind]
    simp only [hnext]
    split_ifs with hdups
    · rw [helems, insertElement, if_pos hdups]
      refine h.setElements (n := { sl.nodes e.addr with dups := data :: (sl.nodes e.addr).dups })
        rfl rfl rfl ?_
      simp only [helems, SlNode.elements, length_cons]
      omega
    · rw [helems, insertElement, if_neg hdups]
      exact h.setElements (n := { sl.nodes e.addr with data := data }) rfl rfl rfl
        (by simp [helems, SlNode.elements])
  · have habsent := h.absent ha hb
    obtain ⟨e, hnew⟩ := h.posTbxSlInsert ha hb data flips
    refine ⟨a ++ e :: b, ?_⟩
    have hgo : Toolbox.tbxSlInsert sl key data flips =
        (Toolbox.posTbxSlInsert { sl with nKeys := sl.nKeys + 1, nEle := sl.nEle + 1 }
          (predAt a) key data flips).1 := by
      rw [Toolbox.tbxSlInsert, ← hptr]
      cases hc : (findKey sl key).2 with
      | eq => exact absurd hc hcmp
      | lt => simp only [hc]
      | gt => simp only [hc]
    rw [hgo, habsent]
    exact hnew

/-- The removal of one element of a stored key. -/
theorem Stores.tbxSlRemove_one (h : Stores sl (a ++ e :: b) M)
    (hfind : findKey sl e.key = (predAt a, .eq))
    (hnext : (sl.nodes (predAt a 0)).next 0 = some e.addr) (d : δ) :
    ∃ l', Stores (tbxSlRemove sl e.key (some d)).1 l'
      (Function.update M e.key ((M e.key).erase (some d))) := by
  have helems := h.elements_cons
  rw [Toolbox.tbxSlRemove, hfind]
  simp only [hnext]
  by_cases hfirst : (sl.nodes e.addr).data = some d
  · simp only [if_pos hfirst]
    have herase : (M e.key).erase (some d) = (sl.nodes e.addr).dups := by simp [helems, hfirst]
    rw [herase]
    cases hdups : (sl.nodes e.addr).dups with
    | nil => exact ⟨a ++ b, h.unlinkNode (by simp [helems, hdups])⟩
    | cons d' ds =>
      refine ⟨a ++ e :: b, ?_⟩
      refine h.setElements (n := { sl.nodes e.addr with data := d', dups := ds }) rfl rfl rfl ?_
      simp only [helems, hdups, SlNode.elements, length_cons]
      omega
  · have herase : (M e.key).erase (some d) =
        (sl.nodes e.addr).data :: (sl.nodes e.addr).dups.erase (some d) := by
      rw [helems, erase_cons_tail (by simpa using hfirst)]
    have hmem : some d ∈ M e.key ↔ some d ∈ (sl.nodes e.addr).dups := by
      simp [helems, Ne.symm hfirst]
    simp only [if_neg hfirst]
    by_cases hin : some d ∈ (sl.nodes e.addr).dups
    · have hlen := length_erase_of_mem hin
      have hpos := length_pos_of_mem hin
      simp only [if_pos hin]
      refine ⟨a ++ e :: b, ?_⟩
      rw [herase]
      refine h.setElements
        (n := { sl.nodes e.addr with dups := (sl.nodes e.addr).dups.erase (some d) })
        rfl rfl rfl ?_
      simp only [helems, SlNode.elements, length_cons, hlen]
      omega
    · simp only [if_neg hin]
      refine ⟨a ++ e :: b, ?_⟩
      rw [erase_of_not_mem (hmem.not.mpr hin), update_eq_self]
      exact h

/-- `tbx_sl_remove` removes the elements. -/
theorem Stores.tbxSlRemove (h : Stores sl l M) (key : κ) (data : Option δ) :
    ∃ l', Stores (tbxSlRemove sl key data).1 l'
      (Function.update M key (removeElement (M key) data)) := by
  obtain ⟨a, b, rfl, ha, hptr, ⟨e, b, rfl, rfl, hcmp, hnext, _⟩ | ⟨hcmp, hb⟩⟩ :=
    h.wf.findKey_cases key
  · have hfind : findKey sl e.key = (predAt a, .eq) := Prod.ext hptr hcmp
    cases data with
    | none =>
      have helems := h.elements_cons
      rw [Toolbox.tbxSlRemove, hfind]
      simp only [hnext]
      refine ⟨a ++ b, h.unlinkNode ?_⟩
      rw [helems, length_cons]
      rfl
    | some d => exact h.tbxSlRemove_one hfind hnext d
  · have habsent := h.absent ha hb
    have hgo : Toolbox.tbxSlRemove sl key data = (sl, 1) := by
      rw [Toolbox.tbxSlRemove]
      cases hc : (findKey sl key).2 with
      | eq => exact absurd hc hcmp
      | lt => simp only [hc]
      | gt => simp only [hc]
    have hsame : removeElement (M key) data = M key := by
      cases data <;> simp [removeElement, habsent]
    refine ⟨a ++ b, ?_⟩
    rw [hgo, hsame, update_eq_self]
    exact h

omit [DecidableEq δ] in
theorem Stores.tbxSlEmpty (h : Stores sl l M) : Stores (tbxSlEmpty sl) [] fun _ => [] :=
  ⟨h.wf.tbxSlEmpty, by simp, fun _ hk => absurd rfl hk, rfl, rfl⟩

/-- No call changes whether duplicates are allowed. -/
theorem SlOp.apply_allowDups (sl : TbxSl κ δ) (op : SlOp κ δ) :
    (op.apply sl).allowDups = sl.allowDups := by
  cases op with
  | insert key data flips =>
    simp only [SlOp.apply, Toolbox.tbxSlInsert]
    split
    · split_ifs <;> rfl
    · rfl
  | remove key data =>
    simp only [SlOp.apply, Toolbox.tbxSlRemove]
    split
    · split
      · rfl
      · split_ifs
        · split <;> rfl
        · rfl
        · rfl
    · rfl
  | empty => rfl

/-- One call refines its effect on the multimap. -/
theorem Stores.apply (h : Stores sl l M) (op : SlOp κ δ) :
    ∃ l', Stores (op.apply sl) l' (op.spec sl.allowDups M) := by
  cases op with
  | insert key data flips => exact h.tbxSlInsert key data flips
  | remove key data => exact h.tbxSlRemove key data
  | empty => exact ⟨[], h.tbxSlEmpty⟩

/-- A run of calls refines the run of their effects. -/
theorem Stores.run (h : Stores sl l M) (ops : List (SlOp κ δ)) :
    ∃ l', Stores (ops.foldl SlOp.apply sl) l' (ops.foldl (SlOp.spec sl.allowDups) M) := by
  induction ops generalizing sl l M with
  | nil => exact ⟨l, h⟩
  | cons op ops ih =>
    obtain ⟨l', h'⟩ := h.apply op
    have hrest := ih h'
    rw [SlOp.apply_allowDups] at hrest
    exact hrest

omit [DecidableEq δ] in
theorem stores_new {maxLevels} (hpos : 0 < maxLevels) (allowDups : Bool) :
    Stores (tbxSlNew maxLevels allowDups : TbxSl κ δ) [] fun _ => [] :=
  ⟨wf_new hpos allowDups, by simp, fun _ hk => absurd rfl hk, rfl, rfl⟩

end

end

section

variable [LinearOrder κ] {sl : TbxSl κ δ} {l a b : List (Entry κ)} {M : κ → List (Option δ)}
variable {cmp : κ → Ordering}

/-- The nodes that the next pointers of level `i` lead to from the head. -/
def levelChain (sl : TbxSl κ δ) (i : Nat) : List Nat :=
  follow (fun a => (sl.nodes a).next i) sl.fresh head

/-- The keys of the nodes on level `i`. -/
def levelKeys (sl : TbxSl κ δ) (i : Nat) : List κ :=
  (levelChain sl i).filterMap fun a => (sl.nodes a).key

/-- The elements of some keys, with their keys. -/
def pairs (M : κ → List (Option δ)) (ks : List κ) : List (Option κ × Option δ) :=
  ks.flatMap fun k => (M k).map fun d => (some k, d)

/-- What a skip list with the contents `M` promises. -/
structure SortedMultimap (sl : TbxSl κ δ) (M : κ → List (Option δ)) : Prop where
  keyed : ∀ i < sl.maxLevels, (levelKeys sl i).length = (levelChain sl i).length
  increasing : ∀ i < sl.maxLevels, (levelKeys sl i).Pairwise (· < ·)
  nested : ∀ i, i + 1 < sl.maxLevels → (levelChain sl (i + 1)).Sublist (levelChain sl i)
  max_used : sl.currentMax = 0 ∨ levelChain sl sl.currentMax ≠ []
  max_top : ∀ i, sl.currentMax < i → i < sl.maxLevels → levelChain sl i = []
  keys : ∀ k, k ∈ levelKeys sl 0 ↔ M k ≠ []
  nKeys : sl.nKeys = (levelKeys sl 0).length
  nEle : sl.nEle = ((levelKeys sl 0).map fun k => (M k).length).sum
  search : ∀ k, tbxSlSearchCompare sl (fun x => compare x k) = (M k).head?.join
  first : ∀ k, tbxSlFirstKey sl = some k ↔ IsLeast {k | M k ≠ []} k
  last : ∀ k, tbxSlKeyLast sl = some k ↔ IsGreatest {k | M k ≠ []} k
  iterate : ∀ (k : κ) (fuel : Nat), sl.nEle ≤ fuel →
    drain sl fuel (tbxSlIterSearchCompare sl (fun x => compare x k) 0) =
      pairs M ((levelKeys sl 0).filter fun k' => k ≤ k')

theorem Wf.levelChain_eq (h : Wf sl l) {i} (hi : i < sl.maxLevels) :
    levelChain sl i = onLevel l i := by
  refine (h.links i hi).follow_eq ?_
  have hsub := (onLevel_sublist l i).length_le
  have hlen := h.length_lt
  rw [length_map] at hsub
  omega

theorem Wf.levelKeys_eq (h : Wf sl l) {i} (hi : i < sl.maxLevels) :
    levelKeys sl i = (l.filter fun e => i ≤ e.level).map Entry.key := by
  rw [levelKeys, h.levelChain_eq hi, onLevel, filterMap_map, ← filterMap_eq_map]
  refine filterMap_congr fun e he => ?_
  exact (h.node e (mem_of_mem_filter he)).1

theorem Wf.levelKeys_zero (h : Wf sl l) : levelKeys sl 0 = l.map Entry.key := by
  rw [h.levelKeys_eq (Nat.zero_lt_of_lt h.max_lt)]
  simp

/-- Where an iteration with round mode 0 starts. -/
theorem Stores.iterSearch (h : Stores sl (a ++ b) M) (hcut : Cut cmp a b) :
    tbxSlIterSearchCompare sl cmp 0 =
      match b with
      | [] => ⟨none, []⟩
      | e :: _ => ⟨some e.addr, M e.key⟩ := by
  have hnext := h.wf.next_predAt_zero
  rw [tbxSlIterSearchCompare, h.wf.findKeyCompare hcut]
  cases b with
  | nil =>
    have hnone : (sl.nodes (predAt a 0)).next 0 = none := by simpa using hnext
    simp [hnone]
  | cons e b =>
    have hsome : (sl.nodes (predAt a 0)).next 0 = some e.addr := by simpa using hnext
    simp [hsome, h.elements e (show e ∈ a ++ e :: b by simp)]

theorem Stores.next_entry (h : Stores sl (a ++ e :: b) M) :
    (sl.nodes e.addr).next 0 = b.head?.map Entry.addr := by
  have hlinks := h.wf.links 0 (Nat.zero_lt_of_lt h.wf.max_lt)
  rw [onLevel_append, onLevel_cons_of_le (Nat.zero_le _)] at hlinks
  rw [hlinks.next_at, onLevel_zero, List.head?_map]

omit [LinearOrder κ] in
/-- The elements of a node come first. -/
theorem drain_elements (sl : TbxSl κ δ) (x : Nat) (es : List (Option δ)) (fuel : Nat) :
    drain sl (es.length + fuel) ⟨some x, es⟩ =
      es.map (fun d => ((sl.nodes x).key, d)) ++ drain sl fuel ⟨some x, []⟩ := by
  induction es with
  | nil => simp
  | cons d es ih =>
    rw [length_cons, Nat.add_right_comm]
    simp [Toolbox.drain, tbxSlNext, ih]

/-- Draining the elements of a node leads to the node behind it. -/
theorem Stores.drain (h : Stores sl (a ++ e :: b) M) (es : List (Option δ)) {fuel : Nat}
    (hfuel : es.length + size M b ≤ fuel) :
    drain sl fuel ⟨some e.addr, es⟩ =
      es.map (fun d => (some e.key, d)) ++ pairs M (b.map Entry.key) := by
  induction b generalizing a e es fuel with
  | nil =>
    obtain ⟨rest, rfl⟩ := Nat.exists_eq_add_of_le (Nat.le_of_add_right_le hfuel)
    have hnext : (sl.nodes e.addr).next 0 = none := by simpa using h.next_entry
    rw [drain_elements, (h.wf.node e (by simp)).1]
    cases rest <;> simp [Toolbox.drain, tbxSlNext, hnext, pairs]
  | cons f b ihb =>
    obtain ⟨rest, rfl⟩ := Nat.exists_eq_add_of_le (Nat.le_of_add_right_le hfuel)
    have hnext : (sl.nodes e.addr).next 0 = some f.addr := by simpa using h.next_entry
    have helems : (sl.nodes f.addr).elements = M f.key := h.elements f (by simp)
    have h' : Stores sl ((a ++ [e]) ++ f :: b) M := by simpa using h
    -- the call that finds no element left returns the first one of the next node
    have hstep : Toolbox.drain sl rest ⟨some e.addr, []⟩ =
        Toolbox.drain sl rest ⟨some f.addr, M f.key⟩ := by
      cases rest with
      | zero => rfl
      | succ rest => simp [Toolbox.drain, tbxSlNext, hnext, ← helems, SlNode.elements]
    rw [drain_elements, (h.wf.node e (by simp)).1, hstep, ihb h' (M f.key) (by simpa using hfuel)]
    simp [pairs]

/-- Behind a cut an iteration yields all elements. -/
theorem Stores.iterate (h : Stores sl (a ++ b) M) (hcut : Cut cmp a b) {fuel : Nat}
    (hfuel : sl.nEle ≤ fuel) :
    Toolbox.drain sl fuel (tbxSlIterSearchCompare sl cmp 0) = pairs M (b.map Entry.key) := by
  rw [h.iterSearch hcut]
  cases b with
  | nil =>
    cases fuel with
    | zero => rfl
    | succ fuel => rfl
  | cons e b =>
    have hsize := h.nEle
    rw [size_append, size_cons] at hsize
    have hdrain := h.drain (M e.key) (show _ ≤ fuel by omega)
    simpa [pairs] using hdrain

section

variable (h : Stores sl l M)
include h

/-- `tbx_sl_search_compare` returns the first element of the key. -/
theorem Stores.search (k : κ) :
    tbxSlSearchCompare sl (fun x => compare x k) = (M k).head?.join := by
  obtain ⟨a, b, rfl, hcut, ha, hb⟩ := h.wf.cut_key k
  rw [tbxSlSearchCompare, h.iterSearch hcut]
  cases b with
  | nil =>
    have habsent : M k = [] := h.absent ha (by simp)
    simp [habsent]
  | cons e b =>
    have he : e ∈ a ++ e :: b := by simp
    simp only [h.wf.cmp_node he]
    by_cases hek : e.key = k
    · subst hek
      rw [if_pos (compare_eq_iff_eq.mpr rfl), ← h.elements e he]
      rfl
    · have hlt : k < e.key := lt_of_le_of_ne (hb e (by simp)) (Ne.symm hek)
      have habsent : M k = [] := by
        refine h.absent ha fun f hf => ?_
        rcases mem_cons.mp hf with rfl | hf
        · exact hlt
        · exact hlt.trans (h.wf.lt_behind hf)
      rw [if_neg (fun hcmp => hek (compare_eq_iff_eq.mp hcmp)), habsent]
      rfl

/-- `tbx_sl_first_key` returns the first key. -/
theorem Stores.firstKey : tbxSlFirstKey sl = (l.map Entry.key).head? := by
  have hcut : Cut (fun _ => .gt) [] l := ⟨by simp, by simp⟩
  have hcount := h.nKeys
  have hnext := Wf.next_predAt_zero (show Wf sl ([] ++ l) from h.wf)
  rw [tbxSlFirstKey, Wf.findKeyCompare (show Wf sl ([] ++ l) from h.wf) hcut]
  cases l with
  | nil => rw [if_pos (by simp [hcount])]; rfl
  | cons e l =>
    rw [if_neg (by simp only [hcount, length_cons]; omega)]
    simp [hnext, (h.wf.node e (by simp)).1]

/-- `tbx_sl_key_last` returns the last key. -/
theorem Stores.keyLast : tbxSlKeyLast sl = (l.map Entry.key).getLast? := by
  have hcut : Cut (fun _ => .lt) l [] := ⟨by simp, by simp⟩
  have hcount := h.nKeys
  rw [tbxSlKeyLast, Wf.findKeyCompare (show Wf sl (l ++ []) by simpa using h.wf) hcut]
  induction l using List.reverseRecOn with
  | nil => rw [if_pos (by simp [hcount])]; rfl
  | append_singleton l e _ =>
    rw [if_neg (by simp only [hcount, length_append, length_singleton]; omega)]
    simp [predAt, last_append, (h.wf.node e (by simp)).1]

theorem Stores.first_iff (k : κ) : tbxSlFirstKey sl = some k ↔ IsLeast {k | M k ≠ []} k := by
  have hmem := h.mem_iff
  rw [h.firstKey]
  cases l with
  | nil =>
    refine ⟨fun hk => by simp at hk, fun hk => ?_⟩
    simpa using (hmem k).mp hk.1
  | cons e l =>
    have hleast : IsLeast {k | M k ≠ []} e.key := by
      refine ⟨h.ne_nil (by simp), fun k' hk' => ?_⟩
      obtain ⟨f, hf, rfl⟩ := h.stored k' hk'
      rcases mem_cons.mp hf with rfl | hf
      · exact le_rfl
      · exact ((pairwise_cons.mp h.wf.sorted).1 f hf).le
    constructor
    · intro hk
      obtain rfl : e.key = k := by simpa using hk
      exact hleast
    · intro hk
      rw [hk.unique hleast]
      rfl

theorem Stores.last_iff (k : κ) : tbxSlKeyLast sl = some k ↔ IsGreatest {k | M k ≠ []} k := by
  have hmem := h.mem_iff
  rw [h.keyLast]
  induction l using List.reverseRecOn with
  | nil =>
    refine ⟨fun hk => by simp at hk, fun hk => ?_⟩
    simpa using (hmem k).mp hk.1
  | append_singleton l e _ =>
    have hgreatest : IsGreatest {k | M k ≠ []} e.key := by
      refine ⟨h.ne_nil (by simp), fun k' hk' => ?_⟩
      obtain ⟨f, hf, rfl⟩ := h.stored k' hk'
      rcases mem_append.mp hf with hf | hf
      · exact (h.wf.front_lt hf).le
      · rw [mem_singleton.mp hf]
    constructor
    · intro hk
      obtain rfl : e.key = k := by simpa using hk
      exact hgreatest
    · intro hk
      rw [hk.unique hgreatest]
      simp

theorem Stores.sortedMultimap : SortedMultimap sl M where
  keyed := fun i hi => by
    rw [h.wf.levelKeys_eq hi, h.wf.levelChain_eq hi, onLevel, length_map, length_map]
  increasing := fun i hi => by
    rw [h.wf.levelKeys_eq hi]
    exact pairwise_map.mpr (h.wf.sorted.sublist filter_sublist)
  nested := fun i hi => by
    rw [h.wf.levelChain_eq hi, h.wf.levelChain_eq (by omega)]
    exact onLevel_succ_sublist l i
  max_used := h.wf.max_used.imp_right fun ⟨e, he, heq⟩ => by
    rw [h.wf.levelChain_eq h.wf.max_lt]
    exact ne_nil_of_mem (mem_onLevel.mpr ⟨e, he, Nat.le_of_eq heq.symm, rfl⟩)
  max_top := fun i htop hi => by
    rw [h.wf.levelChain_eq hi]
    exact Wf.onLevel_above_max (show Wf sl (l ++ []) by simpa using h.wf) htop
  keys := fun k => by rw [h.wf.levelKeys_zero, h.mem_iff]
  nKeys := by rw [h.wf.levelKeys_zero, h.nKeys, length_map]
  nEle := by simp [h.wf.levelKeys_zero, h.nEle, size, comp_def]
  search := h.search
  first := h.first_iff
  last := h.last_iff
  iterate := fun k fuel hfuel => by
    obtain ⟨a, b, rfl, hcut, ha, hb⟩ := h.wf.cut_key k
    have hfilter : (levelKeys sl 0).filter (fun k' => k ≤ k') = b.map Entry.key := by
      rw [h.wf.levelKeys_zero, map_append, filter_append,
        filter_eq_nil_iff.mpr, filter_eq_self.mpr, nil_append]
      · intro k' hk'
        obtain ⟨e, he, rfl⟩ := mem_map.mp hk'
        simpa using hb e he
      · intro k' hk'
        obtain ⟨e, he, rfl⟩ := mem_map.mp hk'
        simpa using ha e he
    rw [hfilter, h.iterate hcut hfuel]

end

/-- After any calls on a new list, with any levels, it is the sorted multimap that the calls
describe. -/
theorem skip_list_sorted_multimap [DecidableEq δ] {maxLevels : Nat} (hpos : 0 < maxLevels)
    (allowDups : Bool) (ops : List (SlOp κ δ)) :
    SortedMultimap (ops.foldl SlOp.apply (tbxSlNew maxLevels allowDups))
      (ops.foldl (SlOp.spec allowDups) fun _ => []) := by
  obtain ⟨l, h⟩ := (stores_new hpos allowDups : Stores (tbxSlNew maxLevels allowDups) [] _).run ops
  exact h.sortedMultimap

theorem skip_list_sorted_multimap_four_levels :
    0 < 4 ∧ SortedMultimap
      ([.insert 3 (some 'a') 1, .insert 1 none 2, .insert 3 (some 'b') 0, .remove 3 (some 'a'),
          .empty, .insert 2 (some 'c') 5].foldl SlOp.apply
        (tbxSlNew 4 true : TbxSl Nat Char))
      ([.insert 3 (some 'a') 1, .insert 1 none 2, .insert 3 (some 'b') 0, .remove 3 (some 'a'),
          .empty, .insert 2 (some 'c') 5].foldl (SlOp.spec true) fun _ => []) :=
  ⟨by decide, skip_list_sorted_multimap (by decide) true _⟩

end

end LStore.Toolbox
