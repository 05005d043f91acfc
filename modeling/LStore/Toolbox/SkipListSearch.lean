import LStore.Base.Links
import LStore.Toolbox.SkipList
import Mathlib.Data.List.Induction
import Mathlib.Data.List.Perm.Subperm

/-!
# The shape of a skip list and its search

A well-formed skip list is a list of entries in key order: on every level the next
pointers run through the entries that reach this level. A search that compares keys
against a cut between the entries ends, on every level, at the last entry in front
of the cut.
-/

namespace LStore.Toolbox

open Links List

variable {κ δ : Type*}

/-- A node of the list: its address, key and level. -/
structure Entry (κ : Type*) where
  addr : Nat
  key : κ
  level : Nat

/-- The addresses of the entries that reach level `i`. -/
def onLevel (l : List (Entry κ)) (i : Nat) : List Nat :=
  (l.filter fun e => i ≤ e.level).map Entry.addr

/-- The predecessor on level `i` of what follows `l`. -/
def predAt (l : List (Entry κ)) (i : Nat) : Nat := last head (onLevel l i)

/-- The entries of a skip list. -/
structure Wf [LinearOrder κ] (sl : TbxSl κ δ) (l : List (Entry κ)) : Prop where
  node : ∀ e ∈ l, (sl.nodes e.addr).key = some e.key ∧ (sl.nodes e.addr).level = e.level
  addr : ∀ e ∈ l, head < e.addr ∧ e.addr < sl.fresh
  distinct : (l.map Entry.addr).Nodup
  sorted : l.Pairwise fun e f => e.key < f.key
  links : ∀ i < sl.maxLevels, Linked (fun a => (sl.nodes a).next i) head (onLevel l i)
  levels : ∀ e ∈ l, e.level ≤ sl.currentMax
  max_lt : sl.currentMax < sl.maxLevels
  max_used : sl.currentMax = 0 ∨ ∃ e ∈ l, e.level = sl.currentMax
  fresh_pos : head < sl.fresh

variable {l m : List (Entry κ)} {e : Entry κ} {i : Nat}

@[simp] theorem onLevel_nil (i : Nat) : onLevel ([] : List (Entry κ)) i = [] := rfl

@[simp] theorem onLevel_append (l m : List (Entry κ)) (i : Nat) :
    onLevel (l ++ m) i = onLevel l i ++ onLevel m i := by
  simp [onLevel]

theorem onLevel_cons_of_le (h : i ≤ e.level) : onLevel (e :: l) i = e.addr :: onLevel l i := by
  simp [onLevel, h]

theorem onLevel_cons_of_lt (h : e.level < i) : onLevel (e :: l) i = onLevel l i := by
  have : ¬i ≤ e.level := by omega
  simp [onLevel, this]

theorem mem_onLevel {a} : a ∈ onLevel l i ↔ ∃ e ∈ l, i ≤ e.level ∧ e.addr = a := by
  simp [onLevel, and_assoc]

@[simp] theorem onLevel_zero (l : List (Entry κ)) : onLevel l 0 = l.map Entry.addr := by
  simp [onLevel]

theorem onLevel_sublist (l : List (Entry κ)) (i : Nat) : (onLevel l i).Sublist (l.map Entry.addr) :=
  filter_sublist.map Entry.addr

/-- A level is a sublist of the level below. -/
theorem onLevel_succ_sublist (l : List (Entry κ)) (i : Nat) :
    (onLevel l (i + 1)).Sublist (onLevel l i) := by
  induction l with
  | nil => simp
  | cons e l ih =>
    by_cases hup : i + 1 ≤ e.level
    · rw [onLevel_cons_of_le hup, onLevel_cons_of_le (by omega)]
      exact ih.cons_cons e.addr
    · by_cases hhere : i ≤ e.level
      · rw [onLevel_cons_of_lt (by omega), onLevel_cons_of_le hhere]
        exact ih.cons e.addr
      · rw [onLevel_cons_of_lt (by omega), onLevel_cons_of_lt (by omega)]
        exact ih

/-- The predecessor on a level is a node of the level below. -/
theorem predAt_succ (l : List (Entry κ)) (i : Nat) :
    ∃ p q, onLevel l i = p ++ q ∧ last head p = predAt l (i + 1) := by
  induction l using List.reverseRecOn with
  | nil => exact ⟨[], [], rfl, rfl⟩
  | append_singleton l e ih =>
    by_cases hup : i + 1 ≤ e.level
    · refine ⟨onLevel (l ++ [e]) i, [], by simp, ?_⟩
      rw [predAt, onLevel_append, onLevel_append, onLevel_cons_of_le hup,
        onLevel_cons_of_le (by omega), last_append, last_append]
      rfl
    · obtain ⟨p, q, heq, hlast⟩ := ih
      refine ⟨p, q ++ onLevel [e] i, by rw [onLevel_append, heq, append_assoc], ?_⟩
      rw [hlast, predAt, predAt, onLevel_append, onLevel_cons_of_lt (by omega)]
      simp

theorem predAt_mem (l : List (Entry κ)) (i : Nat) :
    predAt l i = head ∨ ∃ e ∈ l, i ≤ e.level ∧ e.addr = predAt l i := by
  rcases mem_cons.mp (last_mem head (onLevel l i)) with h | h
  · exact .inl h
  · exact .inr (mem_onLevel.mp h)

variable [LinearOrder κ] {sl : TbxSl κ δ} {cmp : κ → Ordering}

/-- The keys in front of an entry are smaller. -/
theorem Wf.front_lt (h : Wf sl (l ++ e :: m)) {f} (hf : f ∈ l) : f.key < e.key :=
  (pairwise_append.mp h.sorted).2.2 f hf e (by simp)

/-- The keys behind an entry are larger. -/
theorem Wf.lt_behind (h : Wf sl (l ++ e :: m)) {f} (hf : f ∈ m) : e.key < f.key :=
  (pairwise_cons.mp (pairwise_append.mp h.sorted).2.1).1 f hf

theorem Wf.nodup_head (h : Wf sl l) : (head :: l.map Entry.addr).Nodup := by
  refine nodup_cons.mpr ⟨fun hmem => ?_, h.distinct⟩
  obtain ⟨e, he, heq⟩ := mem_map.mp hmem
  have := (h.addr e he).1
  omega

theorem Wf.length_lt (h : Wf sl l) : l.length < sl.fresh := by
  have hsub : head :: l.map Entry.addr ⊆ List.range sl.fresh := by
    intro a ha
    rcases mem_cons.mp ha with rfl | ha
    · exact mem_range.mpr h.fresh_pos
    · obtain ⟨e, he, rfl⟩ := mem_map.mp ha
      exact mem_range.mpr (h.addr e he).2
  have hlen := (subperm_of_subset h.nodup_head hsub).length_le
  rw [length_cons, length_map, length_range] at hlen
  exact hlen

theorem Wf.length_behind (h : Wf sl (l ++ m)) : m.length < sl.fresh :=
  (sublist_append_right l m).length_le.trans_lt h.length_lt

omit [LinearOrder κ] in
/-- The walk along a level up to the cut. -/
theorem walkLevel_eq {nodes : Nat → SlNode κ δ} {i sn} {p q : List Nat}
    (h : Linked (fun a => (nodes a).next i) sn (p ++ q)) (hp : ∀ a ∈ p, (nodes a).cmp cmp = .lt)
    (hq : ∀ a ∈ q.head?, (nodes a).cmp cmp ≠ .lt) {fuel} (hfuel : p.length < fuel) :
    walkLevel nodes cmp i fuel sn =
      (last sn p, (q.head?.map fun a => (nodes a).cmp cmp).getD .lt) := by
  induction p generalizing sn fuel with
  | nil =>
    rcases fuel with _ | fuel
    · simp at hfuel
    cases q with
    | nil =>
      have hnext : (nodes sn).next i = none := h
      simp [walkLevel, hnext]
    | cons b q =>
      have hnext : (nodes sn).next i = some b := h.1
      have hb := hq b (by simp)
      cases hcmp : (nodes b).cmp cmp with
      | lt => exact absurd hcmp hb
      | eq => simp [walkLevel, hnext, hcmp]
      | gt => simp [walkLevel, hnext, hcmp]
  | cons b p ih =>
    obtain ⟨hb, hp'⟩ := forall_mem_cons.mp hp
    rcases fuel with _ | fuel
    · simp at hfuel
    have hnext : (nodes sn).next i = some b := h.1
    rw [walkLevel, hnext]
    simp only [hb]
    exact ih h.2 hp' (by simpa using hfuel)

/-- A cut of the entries: what compares as smaller is in front. -/
structure Cut (cmp : κ → Ordering) (l m : List (Entry κ)) : Prop where
  below : ∀ e ∈ l, cmp e.key = .lt
  above : ∀ e ∈ m, cmp e.key ≠ .lt

theorem Wf.cmp_node (h : Wf sl l) {e} (he : e ∈ l) (cmp : κ → Ordering) :
    (sl.nodes e.addr).cmp cmp = cmp e.key := by
  rw [SlNode.cmp, (h.node e he).1]

section

variable (h : Wf sl (l ++ m))
include h

/-- One level of the search, from a node of the level in front of the cut. -/
theorem Wf.walkLevel (hcut : Cut cmp l m) {i : Nat} (hi : i < sl.maxLevels) {p q}
    (hpq : onLevel l i = p ++ q) :
    walkLevel sl.nodes cmp i sl.fresh (last head p) =
      (predAt l i, ((onLevel m i).head?.map fun a => (sl.nodes a).cmp cmp).getD .lt) := by
  have hlinks := h.links i hi
  rw [onLevel_append, hpq, append_assoc, linked_append] at hlinks
  have hlt : ∀ a ∈ q, (sl.nodes a).cmp cmp = .lt := by
    intro a ha
    obtain ⟨e, he, _, rfl⟩ := mem_onLevel.mp (hpq ▸ mem_append_right p ha)
    rw [h.cmp_node (mem_append_left m he)]
    exact hcut.below e he
  have hnot : ∀ a ∈ (onLevel m i).head?, (sl.nodes a).cmp cmp ≠ .lt := by
    intro a ha
    obtain ⟨e, he, _, rfl⟩ := mem_onLevel.mp (mem_of_mem_head? ha)
    rw [h.cmp_node (mem_append_right l he)]
    exact hcut.above e he
  have hfuel : q.length < sl.fresh := by
    have hlen := (onLevel_sublist l i).length_le
    have := h.length_lt
    rw [hpq, length_append, length_map] at hlen
    rw [length_append] at this
    omega
  rw [walkLevel_eq hlinks.2 hlt hnot hfuel, predAt, hpq, last_append]

/-- The search from level `i` down. -/
theorem Wf.findLevels (hcut : Cut cmp l m) {i} (hi : i < sl.maxLevels) {p q}
    (hpq : onLevel l i = p ++ q) (ptr : Nat → Nat) :
    (findLevels sl.nodes cmp sl.fresh i (last head p) ptr).1 =
        (fun j => if j ≤ i then predAt l j else ptr j) ∧
      (findLevels sl.nodes cmp sl.fresh i (last head p) ptr).2 =
        (m.head?.map fun e => cmp e.key).getD .lt := by
  induction i generalizing p q ptr with
  | zero =>
    rw [Toolbox.findLevels, h.walkLevel hcut hi hpq]
    refine ⟨funext fun j => ?_, ?_⟩
    · by_cases hj : j = 0
      · subst hj
        simp
      · simp [hj]
    · cases m with
      | nil => rfl
      | cons e m => simp [h.cmp_node (show e ∈ l ++ e :: m by simp)]
  | succ i ih =>
    obtain ⟨p', q', hpq', hlast⟩ := predAt_succ l i
    rw [Toolbox.findLevels, h.walkLevel hcut hi hpq]
    rw [← hlast]
    obtain ⟨hptr, hcmp⟩ := ih (by omega) hpq' (Function.update ptr (i + 1) (last head p'))
    refine ⟨?_, hcmp⟩
    rw [hptr]
    funext j
    by_cases hj : j = i + 1
    · subst hj
      simp [hlast]
    · by_cases hle : j ≤ i
      · simp [hle, show j ≤ i + 1 by omega]
      · simp [hle, hj, show ¬j ≤ i + 1 by omega]

theorem Wf.onLevel_above_max {i} (hi : sl.currentMax < i) : onLevel l i = [] := by
  rw [onLevel, filter_eq_nil_iff.mpr, map_nil]
  intro e he hle
  have := h.levels e (mem_append_left m he)
  simp only [decide_eq_true_eq] at hle
  omega

/-- `find_key_compare` ends at the predecessors of the cut, with the comparison of the entry
behind it. -/
theorem Wf.findKeyCompare (hcut : Cut cmp l m) :
    findKeyCompare sl cmp = (predAt l, (m.head?.map fun e => cmp e.key).getD .lt) := by
  obtain ⟨hptr, hcmp⟩ := h.findLevels hcut h.max_lt (p := []) rfl fun _ => head
  refine Prod.ext ?_ hcmp
  refine hptr.trans (funext fun j => ?_)
  by_cases hj : j ≤ sl.currentMax
  · rw [if_pos hj]
  · have hnone : predAt l j = head := by rw [predAt, h.onLevel_above_max (by omega), last_nil]
    rw [if_neg hj]
    exact hnone.symm

/-- The node behind the cut. -/
theorem Wf.next_predAt {i} (hi : i < sl.maxLevels) :
    (sl.nodes (predAt l i)).next i = (onLevel m i).head? := by
  have hlinks := h.links i hi
  rw [onLevel_append] at hlinks
  exact hlinks.next_last

theorem Wf.next_predAt_zero : (sl.nodes (predAt l 0)).next 0 = m.head?.map Entry.addr := by
  have hpos : 0 < sl.maxLevels := Nat.zero_lt_of_lt h.max_lt
  rw [h.next_predAt hpos, onLevel_zero, List.head?_map]

end

/-- The cut at a key. -/
theorem Wf.cut_key (h : Wf sl l) (key : κ) :
    ∃ a b, l = a ++ b ∧ Cut (fun k => compare k key) a b ∧ (∀ e ∈ a, e.key < key) ∧
      ∀ e ∈ b, key ≤ e.key := by
  have hsplit : ∃ a b, l = a ++ b ∧ (∀ e ∈ a, e.key < key) ∧ ∀ e ∈ b, key ≤ e.key := by
    have hsorted := h.sorted
    clear h
    induction l with
    | nil => exact ⟨[], [], rfl, by simp, by simp⟩
    | cons e l ih =>
      obtain ⟨hhead, htail⟩ := pairwise_cons.mp hsorted
      by_cases he : e.key < key
      · obtain ⟨a, b, rfl, ha, hb⟩ := ih htail
        refine ⟨e :: a, b, rfl, fun f hf => ?_, hb⟩
        rcases mem_cons.mp hf with rfl | hf
        · exact he
        · exact ha f hf
      · refine ⟨[], e :: l, rfl, by simp, fun f hf => ?_⟩
        rcases mem_cons.mp hf with rfl | hf
        · exact not_lt.mp he
        · exact (not_lt.mp he).trans (hhead f hf).le
  obtain ⟨a, b, rfl, ha, hb⟩ := hsplit
  exact ⟨a, b, rfl, ⟨fun e he => compare_lt_iff_lt.mpr (ha e he), fun e he hlt =>
    absurd (compare_lt_iff_lt.mp hlt) (not_lt.mpr (hb e he))⟩, ha, hb⟩

/-- What `find_key` finds: the entry of the key behind the cut, or no such entry. -/
theorem Wf.findKey_cases (h : Wf sl l) (key : κ) :
    ∃ a b, l = a ++ b ∧ (∀ e ∈ a, e.key < key) ∧ (findKey sl key).1 = predAt a ∧
      ((∃ e b', b = e :: b' ∧ e.key = key ∧ (findKey sl key).2 = .eq ∧
          (sl.nodes (predAt a 0)).next 0 = some e.addr ∧ ∀ f ∈ b', key < f.key) ∨
        ((findKey sl key).2 ≠ .eq ∧ ∀ f ∈ b, key < f.key)) := by
  obtain ⟨a, b, rfl, hcut, ha, hb⟩ := h.cut_key key
  have hfind : findKey sl key = (predAt a, (b.head?.map fun e => compare e.key key).getD .lt) :=
    h.findKeyCompare hcut
  refine ⟨a, b, rfl, ha, by rw [hfind], ?_⟩
  cases b with
  | nil => exact .inr ⟨by simp [hfind], by simp⟩
  | cons e b =>
    have hcmp : (findKey sl key).2 = compare e.key key := by simp [hfind]
    by_cases heq : e.key = key
    · refine .inl ⟨e, b, rfl, heq, by rw [hcmp, heq, compare_eq_iff_eq], ?_, ?_⟩
      · rw [h.next_predAt_zero]
        rfl
      · intro f hf
        rw [← heq]
        exact h.lt_behind hf
    · refine .inr ⟨by rw [hcmp]; exact fun h => heq (compare_eq_iff_eq.mp h), fun f hf => ?_⟩
      have hlt : key < e.key := lt_of_le_of_ne (hb e (by simp)) (Ne.symm heq)
      rcases mem_cons.mp hf with rfl | hf
      · exact hlt
      · exact hlt.trans (h.lt_behind hf)

/-- The other entries have other keys and addresses. -/
theorem Wf.others {e} (h : Wf sl (l ++ e :: m)) :
    ∀ f ∈ l ++ m, f.key ≠ e.key ∧ f.addr ≠ e.addr := by
  have hnd := h.distinct
  rw [map_append, map_cons, perm_middle.nodup_iff, nodup_cons] at hnd
  intro f hf
  constructor
  · rcases mem_append.mp hf with hf | hf
    · exact (h.front_lt hf).ne
    · exact (h.lt_behind hf).ne'
  · intro heq
    refine hnd.1 (heq ▸ ?_)
    rw [← map_append]
    exact mem_map_of_mem hf

/-- `find_key` for the key of an entry. -/
theorem Wf.findKey_entry {e} (h : Wf sl (l ++ e :: m)) :
    findKey sl e.key = (predAt l, .eq) ∧ (sl.nodes (predAt l 0)).next 0 = some e.addr := by
  have hcut : Cut (fun k => compare k e.key) l (e :: m) := by
    refine ⟨fun f hf => compare_lt_iff_lt.mpr (h.front_lt hf), fun f hf hlt => ?_⟩
    have hlt' : f.key < e.key := compare_lt_iff_lt.mp hlt
    rcases mem_cons.mp hf with rfl | hf
    · exact lt_irrefl _ hlt'
    · exact lt_asymm hlt' (h.lt_behind hf)
  refine ⟨?_, h.next_predAt_zero⟩
  have hfind : findKey sl e.key =
      (predAt l, ((e :: m).head?.map fun f => compare f.key e.key).getD .lt) :=
    h.findKeyCompare hcut
  rw [hfind, List.head?_cons, Option.map_some, Option.getD_some, compare_eq_iff_eq.mpr rfl]

/-- The shape does not depend on the elements. -/
theorem Wf.congr (h : Wf sl l) {sl' : TbxSl κ δ}
    (hnodes : ∀ x, (sl'.nodes x).key = (sl.nodes x).key ∧
      (sl'.nodes x).level = (sl.nodes x).level ∧ (sl'.nodes x).next = (sl.nodes x).next)
    (hfresh : sl'.fresh = sl.fresh) (hmax : sl'.maxLevels = sl.maxLevels)
    (hcur : sl'.currentMax = sl.currentMax) : Wf sl' l where
  node := fun e he => by
    obtain ⟨hkey, hlevel, _⟩ := hnodes e.addr
    rw [hkey, hlevel]
    exact h.node e he
  addr := hfresh ▸ h.addr
  distinct := h.distinct
  sorted := h.sorted
  links := fun i hi => (h.links i (hmax ▸ hi)).congr fun x _ => by rw [(hnodes x).2.2]
  levels := hcur ▸ h.levels
  max_lt := hcur ▸ hmax ▸ h.max_lt
  max_used := hcur ▸ h.max_used
  fresh_pos := hfresh ▸ h.fresh_pos

end LStore.Toolbox
