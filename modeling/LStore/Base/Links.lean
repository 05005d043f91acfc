import Mathlib.Data.List.Basic

/-!
# Chains of links

`next` gives the successor of each node. `Linked next a l` says that following it
from `a` visits exactly `l`. The two edits of a chain are local: linking a node in
behind its predecessor, and linking the predecessor past a node.
-/

namespace Links

open List

variable {α : Type*} {next next' : α → Option α} {a b x y : α} {l m : List α}

theorem mem_middle : x ∈ l ++ b :: m ↔ x = b ∨ x ∈ l ++ m := by
  rw [perm_middle.mem_iff, mem_cons]

/-- Following `next` from a node visits `l` and ends there. -/
def Linked (next : α → Option α) : α → List α → Prop
  | a, [] => next a = none
  | a, b :: l => next a = some b ∧ Linked next b l

/-- Following `next` from a node visits `l` first. -/
def Seg (next : α → Option α) : α → List α → Prop
  | _, [] => True
  | a, b :: l => next a = some b ∧ Seg next b l

/-- The last node of the chain of `a` and `l`. -/
def last : α → List α → α
  | a, [] => a
  | _, b :: l => last b l

@[simp] theorem last_nil (a : α) : last a [] = a := rfl

@[simp] theorem last_cons (a b : α) (l : List α) : last a (b :: l) = last b l := rfl

theorem last_append (a : α) (l m : List α) : last a (l ++ m) = last (last a l) m := by
  induction l generalizing a with
  | nil => rfl
  | cons b l ih => exact ih b

theorem linked_append : Linked next a (l ++ m) ↔ Seg next a l ∧ Linked next (last a l) m := by
  induction l generalizing a with
  | nil => simp [Seg]
  | cons b l ih => simp [Seg, Linked, ih, and_assoc]

theorem last_mem (a : α) (l : List α) : last a l ∈ a :: l := by
  induction l generalizing a with
  | nil => simp
  | cons b l ih =>
    exact mem_cons_of_mem a (ih b)

theorem Seg.congr (h : Seg next a l) (hag : ∀ x ∈ a :: l.dropLast, next' x = next x) :
    Seg next' a l := by
  induction l generalizing a with
  | nil => trivial
  | cons b l ih =>
    refine ⟨(hag a (by simp)).trans h.1, ?_⟩
    cases l with
    | nil => trivial
    | cons c l =>
      refine ih h.2 fun x hx => hag x ?_
      exact mem_cons_of_mem a hx

theorem Linked.congr (h : Linked next a l) (hag : ∀ x ∈ a :: l, next' x = next x) :
    Linked next' a l := by
  induction l generalizing a with
  | nil => exact (hag a (by simp)).trans h
  | cons b l ih =>
    exact ⟨(hag a (by simp)).trans h.1, ih h.2 fun x hx => hag x (mem_cons_of_mem a hx)⟩

/-- The nodes in front of the last one do not include it. -/
theorem last_notMem_dropLast (hnd : (a :: l).Nodup) (hl : l ≠ []) : last a l ∉ a :: l.dropLast := by
  induction l generalizing a with
  | nil => exact absurd rfl hl
  | cons b l ih =>
    obtain ⟨ha, hnd'⟩ := nodup_cons.mp hnd
    intro hmem
    rcases mem_cons.mp hmem with heq | hmem
    · exact ha (heq ▸ last_mem b l)
    · cases l with
      | nil => simp at hmem
      | cons c l =>
        exact ih hnd' (by simp) hmem

/-- A segment that changes only behind its last node. -/
theorem Seg.congr_last (h : Seg next a l) (hnd : (a :: l).Nodup)
    (hag : ∀ x ∈ a :: l, x ≠ last a l → next' x = next x) : Seg next' a l := by
  by_cases hl : l = []
  · subst hl
    trivial
  · refine h.congr fun x hx => hag x ?_ ?_
    · rcases mem_cons.mp hx with rfl | hx
      · simp
      · exact mem_cons_of_mem a (dropLast_subset l hx)
    · rintro rfl
      exact last_notMem_dropLast hnd hl hx

/-- A chain may be entered from another node that links to its first one. -/
theorem Linked.enter (h : Linked next b m) (hfirst : next' a = next b)
    (hag : ∀ x ∈ m, next' x = next x) : Linked next' a m := by
  cases m with
  | nil => exact hfirst.trans h
  | cons c m => exact ⟨hfirst.trans h.1, h.2.congr hag⟩

theorem ne_last_of_mem (hnd : (a :: (l ++ m)).Nodup) {x} (hx : x ∈ m) : x ≠ last a l := by
  rintro rfl
  have hdis := nodup_append.mp (show ((a :: l) ++ m).Nodup from hnd)
  exact hdis.2.2 _ (last_mem a l) _ hx rfl

/-- Linking `b` in behind `l`. -/
theorem Linked.insert (h : Linked next a (l ++ m)) (hnd : (a :: (l ++ m)).Nodup)
    (hlast : next' (last a l) = some b) (hnew : next' b = next (last a l))
    (hag : ∀ x ∈ a :: (l ++ m), x ≠ last a l → next' x = next x) :
    Linked next' a (l ++ b :: m) := by
  obtain ⟨hseg, hrest⟩ := linked_append.mp h
  refine linked_append.mpr ⟨?_, hlast, ?_⟩
  · exact hseg.congr_last (hnd.sublist (by simp)) fun x hx => hag x (mem_append_left m hx)
  · exact hrest.enter hnew fun x hx => hag x (mem_append_right (a :: l) hx) (ne_last_of_mem hnd hx)

/-- Linking past `b`. -/
theorem Linked.remove (h : Linked next a (l ++ b :: m)) (hnd : (a :: (l ++ b :: m)).Nodup)
    (hlast : next' (last a l) = next b)
    (hag : ∀ x ∈ a :: (l ++ m), x ≠ last a l → next' x = next x) : Linked next' a (l ++ m) := by
  obtain ⟨hseg, _, hrest⟩ := linked_append.mp h
  refine linked_append.mpr ⟨?_, ?_⟩
  · exact hseg.congr_last (hnd.sublist (by simp)) fun x hx => hag x (mem_append_left m hx)
  · exact hrest.enter hlast fun x hx => hag x (mem_append_right (a :: l) hx)
      (ne_last_of_mem hnd (mem_cons_of_mem b hx))

/-- The node behind the first part of a chain. -/
theorem Linked.next_last (h : Linked next a (l ++ m)) : next (last a l) = m.head? := by
  obtain ⟨_, hrest⟩ := linked_append.mp h
  cases m with
  | nil => exact hrest
  | cons b m => exact hrest.1

theorem Linked.next_at (h : Linked next a (l ++ b :: m)) : next b = m.head? := by
  obtain ⟨_, _, hrest⟩ := linked_append.mp h
  cases m with
  | nil => exact hrest
  | cons c m => exact hrest.1

/-- The nodes that following `next` visits, at most `fuel` of them. -/
def follow (next : α → Option α) : Nat → α → List α
  | 0, _ => []
  | fuel + 1, a =>
    match next a with
    | none => []
    | some b => b :: follow next fuel b

theorem Linked.follow_eq (h : Linked next a l) {fuel} (hfuel : l.length ≤ fuel) :
    follow next fuel a = l := by
  induction l generalizing a fuel with
  | nil =>
    cases fuel with
    | zero => rfl
    | succ fuel => rw [follow, show next a = none from h]
  | cons b l ih =>
    rcases fuel with _ | fuel
    · simp at hfuel
    rw [follow, h.1]
    simp only [List.cons.injEq, true_and]
    exact ih h.2 (by simpa using hfuel)

end Links
