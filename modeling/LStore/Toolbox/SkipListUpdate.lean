import LStore.Toolbox.SkipListSearch

/-!
# Linking and unlinking nodes

The update loops of `pos_tbx_sl_insert` and `tbx_sl_remove` touch one pointer of a
predecessor on each level of the node. Both keep the shape of the list, with the
node added at the cut or taken out of it, and `current_max` the highest level in
use.
-/

namespace LStore.Toolbox

open Links List Function

variable {κ δ : Type*}

section

variable {nodes : Nat → SlNode κ δ} {ptr : Nat → Nat} {a x i n : Nat}

@[simp] theorem withNext_level (n : SlNode κ δ) (f : Nat → Option Nat) :
    (n.withNext f).level = n.level := rfl

@[simp] theorem withNext_next (n : SlNode κ δ) (f : Nat → Option Nat) :
    (n.withNext f).next = f := rfl

@[simp] theorem withNext_data (n : SlNode κ δ) (f : Nat → Option Nat) :
    (n.withNext f).data = n.data := rfl

@[simp] theorem withNext_dups (n : SlNode κ δ) (f : Nat → Option Nat) :
    (n.withNext f).dups = n.dups := rfl

@[simp] theorem withNext_withNext (n : SlNode κ δ) (f f' : Nat → Option Nat) :
    (n.withNext f).withNext f' = n.withNext f' := rfl

theorem setNext_apply (nodes : Nat → SlNode κ δ) (a i : Nat) (p : Option Nat) (x : Nat) :
    setNext nodes a i p x =
      (nodes x).withNext fun j => if x = a ∧ j = i then p else (nodes x).next j := by
  by_cases hx : x = a
  · subst hx
    rw [setNext, update_self]
    congr 1
    funext j
    simp [update_apply]
  · rw [setNext, update_of_ne hx]
    simp only [hx, false_and, if_false]
    rfl

/-- The link loop, for a node that is no predecessor. -/
theorem foldl_linkLevel (hptr : ∀ i, ptr i ≠ a) (nodes : Nat → SlNode κ δ) (n x : Nat) :
    (List.range n).foldl (linkLevel ptr a) nodes x =
      (nodes x).withNext fun i =>
        if i < n then
          if x = ptr i then some a else if x = a then (nodes (ptr i)).next i
          else (nodes x).next i
        else (nodes x).next i := by
  induction n generalizing x with
  | zero => rfl
  | succ n ih =>
    rw [range_succ, foldl_append, foldl_cons, foldl_nil, linkLevel,
      setNext_apply, setNext_apply, ih, ih]
    simp only [withNext_next, withNext_withNext]
    congr 1
    funext i
    by_cases hi : i = n
    · subst hi
      by_cases hx : x = ptr i
      · simp [hx]
      · by_cases hxa : x = a
        · simp [hxa, Ne.symm (hptr i)]
        · simp [hx, hxa]
    · have hlt : i < n + 1 ↔ i < n := by omega
      simp [hi, hlt]

/-- The unlink loop. -/
theorem foldl_unlink (hptr : ∀ i < n, ptr i ≠ a) (nodes : Nat → SlNode κ δ) (x : Nat) :
    (List.range n).foldl (fun nodes i => setNext nodes (ptr i) i ((nodes a).next i)) nodes x =
      (nodes x).withNext fun i =>
        if i < n ∧ x = ptr i then (nodes a).next i else (nodes x).next i := by
  induction n generalizing x with
  | zero =>
    rfl
  | succ n ih =>
    have hptr' : ∀ i < n, ptr i ≠ a := fun i hi => hptr i (by omega)
    rw [range_succ, foldl_append, foldl_cons, foldl_nil,
      setNext_apply, ih hptr', ih hptr']
    simp only [withNext_next, withNext_withNext]
    congr 1
    funext i
    by_cases hi : i = n
    · subst hi
      by_cases hx : x = ptr i
      · simp [hx]
      · simp [hx]
    · have hlt : i < n + 1 ↔ i < n := by omega
      simp [hi, hlt]

end

section

variable [LinearOrder κ] {sl : TbxSl κ δ} {l m : List (Entry κ)} {key : κ}

/-- The entry of the new node. -/
def newEntry (sl : TbxSl κ δ) (key : κ) (flips : Nat) : Entry κ :=
  ⟨sl.fresh, key, getRandomLevel sl.maxLevels flips sl.currentMax⟩

theorem Wf.predAt_lt_fresh (h : Wf sl (l ++ m)) (i : Nat) : predAt l i < sl.fresh := by
  rcases predAt_mem l i with heq | ⟨e, he, _, heq⟩
  · rw [heq]
    exact h.fresh_pos
  · rw [← heq]
    exact (h.addr e (mem_append_left m he)).2

/-- The heap after the insertion of a node at the cut. -/
theorem Wf.posTbxSlInsert_nodes (h : Wf sl (l ++ m)) (key : κ) (data : Option δ) (flips x : Nat) :
    (posTbxSlInsert sl (predAt l) key data flips).1.nodes x =
      if x = sl.fresh then
        ⟨(newEntry sl key flips).level, some key,
          fun i => if i ≤ (newEntry sl key flips).level then
            (sl.nodes (predAt l i)).next i else none, data, []⟩
      else
        (sl.nodes x).withNext fun i =>
          if i ≤ (newEntry sl key flips).level ∧ x = predAt l i then some sl.fresh
          else (sl.nodes x).next i := by
  have hptr : (fun i => if sl.currentMax < i then head else predAt l i) = predAt l := by
    funext i
    split_ifs with hi
    · rw [predAt, h.onLevel_above_max hi, last_nil]
    · rfl
  have hne : ∀ i, predAt l i ≠ sl.fresh := fun i => ne_of_lt (h.predAt_lt_fresh i)
  simp only [posTbxSlInsert, hptr]
  by_cases hx : x = sl.fresh
  · subst hx
    rw [update_self, foldl_linkLevel hne, if_pos rfl]
    simp only [update_self, SlNode.create, newEntry, SlNode.mk.injEq, withNext_level,
      withNext_next, withNext_dups, true_and, and_true]
    funext i
    by_cases hi : i ≤ getRandomLevel sl.maxLevels flips sl.currentMax
    · simp [hi, Nat.lt_succ_of_le hi, Ne.symm (hne i), update_of_ne (hne i)]
    · simp [hi, show ¬i < getRandomLevel sl.maxLevels flips sl.currentMax + 1 by omega]
  · rw [update_of_ne hx, foldl_linkLevel hne, if_neg hx, update_of_ne hx]
    congr 1
    funext i
    by_cases hi : i ≤ getRandomLevel sl.maxLevels flips sl.currentMax
    · simp [newEntry, hi, Nat.lt_succ_of_le hi, hx]
    · simp [newEntry, hi, show ¬i < getRandomLevel sl.maxLevels flips sl.currentMax + 1 by omega]

/-- The new node holds the data, the other nodes keep their elements. -/
theorem Wf.posTbxSlInsert_elements (h : Wf sl (l ++ m)) (key : κ) (data : Option δ) (flips : Nat) :
    ((posTbxSlInsert sl (predAt l) key data flips).1.nodes sl.fresh).elements = [data] ∧
      ∀ x ≠ sl.fresh, ((posTbxSlInsert sl (predAt l) key data flips).1.nodes x).elements =
        (sl.nodes x).elements := by
  constructor
  · rw [h.posTbxSlInsert_nodes, if_pos rfl]
    rfl
  · intro x hx
    rw [h.posTbxSlInsert_nodes, if_neg hx]
    rfl

theorem Wf.nodup_level (h : Wf sl l) (i : Nat) : (head :: onLevel l i).Nodup :=
  h.nodup_head.sublist ((onLevel_sublist l i).cons_cons head)

theorem Wf.fresh_notMem (h : Wf sl l) (i : Nat) : sl.fresh ∉ head :: onLevel l i := by
  intro hmem
  rcases mem_cons.mp hmem with heq | hmem
  · have := h.fresh_pos
    omega
  · obtain ⟨e, he, _, heq⟩ := mem_onLevel.mp hmem
    have := (h.addr e he).2
    omega

/-- Inserting a node keeps the shape, with its entry at the cut. -/
theorem Wf.posTbxSlInsert (h : Wf sl (l ++ m)) (hl : ∀ e ∈ l, e.key < key)
    (hm : ∀ e ∈ m, key < e.key) (data : Option δ) (flips : Nat) :
    Wf (posTbxSlInsert sl (predAt l) key data flips).1 (l ++ newEntry sl key flips :: m) := by
  have hbelow := h.max_lt
  have hlevel : getRandomLevel sl.maxLevels flips sl.currentMax < sl.maxLevels := by
    simp only [getRandomLevel]
    split_ifs <;> omega
  have hnodes := h.posTbxSlInsert_nodes key data flips
  have hmax : (Toolbox.posTbxSlInsert sl (predAt l) key data flips).1.currentMax =
      max sl.currentMax (newEntry sl key flips).level := rfl
  have hold : ∀ e ∈ l ++ m, e.addr ≠ sl.fresh := fun e he => ne_of_lt (h.addr e he).2
  refine ⟨?_, ?_, ?_, ?_, ?_, ?_, ?_, ?_, ?_⟩
  · intro e he
    rcases mem_middle.mp he with rfl | he
    · rw [hnodes, if_pos (show (newEntry sl key flips).addr = sl.fresh from rfl)]
      exact ⟨rfl, rfl⟩
    · rw [hnodes, if_neg (hold e he)]
      exact h.node e he
  · intro e he
    rcases mem_middle.mp he with rfl | he
    · exact ⟨h.fresh_pos, Nat.lt_succ_self _⟩
    · exact ⟨(h.addr e he).1, Nat.lt_succ_of_lt (h.addr e he).2⟩
  · have hperm : ((l ++ newEntry sl key flips :: m).map Entry.addr).Perm
        (sl.fresh :: (l ++ m).map Entry.addr) := by
      rw [map_append, map_append]
      exact perm_middle
    rw [hperm.nodup_iff, nodup_cons]
    refine ⟨fun hin => ?_, h.distinct⟩
    obtain ⟨e, he, heq⟩ := mem_map.mp hin
    exact hold e he heq
  · have hsorted := pairwise_append.mp h.sorted
    refine pairwise_append.mpr ⟨hsorted.1, pairwise_cons.mpr ⟨hm, hsorted.2.1⟩, ?_⟩
    intro e he f hf
    rcases mem_cons.mp hf with rfl | hf
    · exact hl e he
    · exact hsorted.2.2 e he f hf
  · intro i hi
    have hlinks := h.links i hi
    by_cases hup : i ≤ (newEntry sl key flips).level
    · -- on its levels the node stands behind the predecessor
      have hnd := h.nodup_level i
      have hnew := h.fresh_notMem i
      rw [onLevel_append] at hlinks hnd hnew
      rw [onLevel_append, onLevel_cons_of_le hup]
      refine hlinks.insert hnd ?_ ?_ ?_
      · change ((Toolbox.posTbxSlInsert sl (predAt l) key data flips).1.nodes (predAt l i)).next i = _
        rw [hnodes, if_neg (ne_of_lt (h.predAt_lt_fresh i))]
        simp [hup]
        rfl
      · change ((Toolbox.posTbxSlInsert sl (predAt l) key data flips).1.nodes sl.fresh).next i = _
        rw [hnodes, if_pos rfl]
        simp [hup]
        rfl
      · intro x hx hlast
        have hxf : x ≠ sl.fresh := fun heq => hnew (heq ▸ hx)
        have hpred : x ≠ predAt l i := hlast
        rw [hnodes, if_neg hxf]
        simp [hpred]
    · have hsame : onLevel (l ++ newEntry sl key flips :: m) i = onLevel (l ++ m) i := by
        rw [onLevel_append, onLevel_cons_of_lt (by omega), onLevel_append]
      rw [hsame]
      refine hlinks.congr fun x hx => ?_
      have hxf : x ≠ sl.fresh := fun heq => h.fresh_notMem i (heq ▸ hx)
      rw [hnodes, if_neg hxf]
      simp [hup]
  · intro e he
    rcases mem_middle.mp he with rfl | he
    · exact le_max_right _ _
    · exact le_trans (h.levels e he) (le_max_left _ _)
  · exact Nat.max_lt.mpr ⟨h.max_lt, hlevel⟩
  · rw [hmax]
    by_cases hup : sl.currentMax ≤ (newEntry sl key flips).level
    · exact .inr ⟨newEntry sl key flips, by simp, (Nat.max_eq_right hup).symm⟩
    · rw [Nat.max_eq_left (by omega)]
      exact h.max_used.imp_right fun ⟨e, he, heq⟩ => ⟨e, mem_middle.mpr (.inr he), heq⟩
  · exact Nat.lt_succ_of_lt h.fresh_pos

end

section

variable [LinearOrder κ] {sl : TbxSl κ δ} {l m : List (Entry κ)} {e : Entry κ}

theorem Wf.predAt_ne (h : Wf sl (l ++ e :: m)) (i : Nat) : predAt l i ≠ e.addr := by
  intro heq
  rcases predAt_mem l i with hhead | ⟨f, hf, _, hfa⟩
  · have := (h.addr e (by simp)).1
    omega
  · have hnd := h.distinct
    rw [map_append, nodup_append] at hnd
    exact hnd.2.2 f.addr (mem_map_of_mem hf) e.addr (by simp) (hfa.trans heq)

/-- The heap after a node is unlinked. -/
theorem Wf.unlinkNode_nodes (h : Wf sl (l ++ e :: m)) (x : Nat) :
    (unlinkNode sl (predAt l) e.addr).nodes x =
      (sl.nodes x).withNext fun i =>
        if i ≤ e.level ∧ x = predAt l i then (sl.nodes e.addr).next i
        else (sl.nodes x).next i := by
  have hlevel : (sl.nodes e.addr).level = e.level := (h.node e (by simp)).2
  simp only [unlinkNode, hlevel]
  rw [foldl_unlink fun i _ => h.predAt_ne i]
  simp only [Nat.lt_succ_iff]

omit [LinearOrder κ] in
/-- The levels above what `lowerMax` finds are empty, and it is not unless it is 0. -/
theorem lowerMax_spec (nodes : Nat → SlNode κ δ) (n : Nat) :
    lowerMax nodes n ≤ n ∧ (∀ i, lowerMax nodes n < i → i ≤ n → (nodes head).next i = none) ∧
      (lowerMax nodes n = 0 ∨ (nodes head).next (lowerMax nodes n) ≠ none) := by
  induction n with
  | zero => exact ⟨le_refl 0, fun i h h' => by simp only [lowerMax] at h; omega, .inl rfl⟩
  | succ n ih =>
    rw [lowerMax]
    split_ifs with hnone
    · refine ⟨Nat.le_succ_of_le ih.1, fun i hlt hle => ?_, ih.2.2⟩
      by_cases hi : i = n + 1
      · rw [hi]
        exact hnone
      · exact ih.2.1 i hlt (by omega)
    · exact ⟨le_rfl, fun i hlt hle => by omega, .inr hnone⟩

omit [LinearOrder κ] in
theorem onLevel_eq_nil_of_next {i} (hl : Linked (fun a => (sl.nodes a).next i) head (onLevel l i)) :
    (sl.nodes head).next i = none ↔ onLevel l i = [] := by
  cases hlev : onLevel l i with
  | nil =>
    rw [hlev] at hl
    exact ⟨fun _ => rfl, fun _ => hl⟩
  | cons a as =>
    rw [hlev] at hl
    have hnext : (sl.nodes head).next i = some a := hl.1
    simp [hnext]

/-- Unlinking a node keeps the shape, without its entry. -/
theorem Wf.unlinkNode (h : Wf sl (l ++ e :: m)) :
    Wf (unlinkNode sl (predAt l) e.addr) (l ++ m) := by
  have hnodes := h.unlinkNode_nodes
  have hsub : (l ++ m).Sublist (l ++ e :: m) := by simp
  have hmem : ∀ f ∈ l ++ m, f ∈ l ++ e :: m := fun f hf => hsub.subset hf
  have hlevel : (sl.nodes e.addr).level = e.level := (h.node e (by simp)).2
  have hlinks : ∀ i < sl.maxLevels, Linked
      (fun a => ((Toolbox.unlinkNode sl (predAt l) e.addr).nodes a).next i) head
        (onLevel (l ++ m) i) := by
    intro i hi
    have hold := h.links i hi
    have hnd := h.nodup_level i
    by_cases hup : i ≤ e.level
    · rw [onLevel_append, onLevel_cons_of_le hup] at hold hnd
      rw [onLevel_append]
      refine hold.remove hnd ?_ ?_
      · change ((Toolbox.unlinkNode sl (predAt l) e.addr).nodes (predAt l i)).next i = _
        rw [hnodes]
        simp [hup]
      · intro x _ hlast
        have hpred : x ≠ predAt l i := hlast
        rw [hnodes]
        simp [hpred]
    · have hsame : onLevel (l ++ e :: m) i = onLevel (l ++ m) i := by
        rw [onLevel_append, onLevel_cons_of_lt (by omega), onLevel_append]
      rw [hsame] at hold
      refine hold.congr fun x _ => ?_
      rw [hnodes]
      simp [hup]
  have hempty : ∀ i < sl.maxLevels,
      ((Toolbox.unlinkNode sl (predAt l) e.addr).nodes head).next i = none ↔
        onLevel (l ++ m) i = [] := fun i hi => onLevel_eq_nil_of_next (hlinks i hi)
  obtain ⟨hle, habove, htop⟩ :=
    lowerMax_spec (Toolbox.unlinkNode sl (predAt l) e.addr).nodes sl.currentMax
  have hmax : (Toolbox.unlinkNode sl (predAt l) e.addr).currentMax =
      if e.level = sl.currentMax then
        lowerMax (Toolbox.unlinkNode sl (predAt l) e.addr).nodes sl.currentMax
      else sl.currentMax := by
    rw [← hlevel]
    rfl
  have hmlt := h.max_lt
  have hlevels : ∀ f ∈ l ++ m, f.level ≤ (Toolbox.unlinkNode sl (predAt l) e.addr).currentMax := by
    intro f hf
    have hold := h.levels f (hmem f hf)
    rw [hmax]
    split_ifs
    · by_contra hlt
      have hnil := (hempty f.level (by omega)).mp (habove f.level (by omega) hold)
      exact ne_nil_of_mem (mem_onLevel.mpr ⟨f, hf, le_rfl, rfl⟩) hnil
    · exact hold
  refine ⟨?_, fun f hf => h.addr f (hmem f hf), h.distinct.sublist (hsub.map _),
    h.sorted.sublist hsub, hlinks, hlevels, ?_, ?_, h.fresh_pos⟩
  · intro f hf
    rw [hnodes]
    exact h.node f (hmem f hf)
  · rw [hmax]
    change _ < sl.maxLevels
    split_ifs <;> omega
  · split_ifs at hmax with htopnode
    · rw [hmax]
      refine htop.imp_right fun hne => ?_
      have hlev := (hempty _ (by omega)).not.mp hne
      obtain ⟨a, ha⟩ := exists_mem_of_ne_nil _ hlev
      obtain ⟨f, hf, hge, _⟩ := mem_onLevel.mp ha
      have := hlevels f hf
      exact ⟨f, hf, by omega⟩
    · rw [hmax]
      refine h.max_used.imp_right fun ⟨f, hf, heq⟩ => ⟨f, (mem_middle.mp hf).resolve_left ?_, heq⟩
      rintro rfl
      exact htopnode heq

/-- An emptied list has no entries. -/
theorem Wf.tbxSlEmpty (h : Wf sl l) : Wf (tbxSlEmpty sl) ([] : List (Entry κ)) := by
  refine ⟨by simp, by simp, by simp, by simp, fun i hi => ?_, by simp, ?_, .inl rfl, h.fresh_pos⟩
  · change ((Toolbox.tbxSlEmpty sl).nodes head).next i = none
    have hi' : i < sl.maxLevels := hi
    simp [Toolbox.tbxSlEmpty, hi']
  · exact Nat.zero_lt_of_lt h.max_lt

theorem wf_new {maxLevels} (hpos : 0 < maxLevels) (allowDups : Bool) :
    Wf (tbxSlNew maxLevels allowDups : TbxSl κ δ) [] :=
  ⟨by simp, by simp, by simp, by simp, fun _ _ => rfl, by simp, hpos, .inl rfl, Nat.zero_lt_one⟩

end

end LStore.Toolbox
