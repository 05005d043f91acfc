import Mathlib.Data.List.Sort

/-!
# Ordered lists of closed integer intervals

A list of values, each occupying a closed interval `[lo, hi]` of integers, kept
in the order of the lower ends. A search visits the values that reach into the
queried interval from the left, then those that start inside it. On a list of
pairwise disjoint intervals this is exactly intersection, in increasing order.
-/

namespace IntervalList

/-- A type whose values occupy a closed interval of integers. -/
class Spanned (α : Type*) where
  lo : α → Int
  hi : α → Int

open Spanned

variable {α : Type*} [Spanned α]

/-- What a search for `[l, h]` visits: values that start before `l` and reach
it, and values that start inside `[l, h]`. -/
def Meets (l h : Int) (a : α) : Prop :=
  (lo a < l ∧ l ≤ hi a) ∨ (l ≤ lo a ∧ lo a ≤ h)

instance (l h : Int) (a : α) : Decidable (Meets l h a) :=
  inferInstanceAs (Decidable (_ ∨ _))

/-- Insert by lower end. -/
def insertByLo (a : α) (m : List α) : List α :=
  m.orderedInsert (fun x y => lo x ≤ lo y) a

/-- The visited values, in list order. -/
def search (l h : Int) (m : List α) : List α := m.filter (fun a => Meets l h a)

/-- Nonempty intervals, pairwise disjoint and listed from left to right. -/
structure Ordered (m : List α) : Prop where
  nonempty : ∀ a ∈ m, lo a ≤ hi a
  apart : m.Pairwise fun a b => hi a < lo b

theorem meets_iff {l h : Int} {a : α} (ha : lo a ≤ hi a) (hlh : l ≤ h) :
    Meets l h a ↔ lo a ≤ h ∧ l ≤ hi a := by
  unfold Meets
  omega

@[simp] theorem mem_insertByLo {a b : α} {m : List α} :
    b ∈ insertByLo a m ↔ b = a ∨ b ∈ m := by
  simp [insertByLo, List.mem_orderedInsert]

theorem insertByLo_perm (a : α) (m : List α) : (insertByLo a m).Perm (a :: m) :=
  List.perm_orderedInsert _ a m

/-- A value that starts behind all members goes to the end. -/
theorem insertByLo_last {a : α} {m : List α} (h : ∀ b ∈ m, lo b < lo a) :
    insertByLo a m = m ++ [a] := by
  induction m with
  | nil => rfl
  | cons b m ih =>
    have hb := h b (by simp)
    have hle : ¬lo a ≤ lo b := by omega
    have hrest : insertByLo a m = m ++ [a] := ih fun x hx => h x (by simp [hx])
    simp only [insertByLo] at hrest
    simp [insertByLo, hle, hrest]

@[simp] theorem mem_search {l h : Int} {a : α} {m : List α} :
    a ∈ search l h m ↔ a ∈ m ∧ Meets l h a := by
  simp [search]

theorem ordered_nil : Ordered ([] : List α) :=
  ⟨by simp, List.Pairwise.nil⟩

theorem ordered_cons {a : α} {m : List α} :
    Ordered (a :: m) ↔ lo a ≤ hi a ∧ (∀ b ∈ m, hi a < lo b) ∧ Ordered m := by
  constructor
  · rintro ⟨hne, hap⟩
    obtain ⟨hhead, htail⟩ := List.pairwise_cons.mp hap
    exact ⟨hne a (by simp), hhead, fun b hb => hne b (by simp [hb]), htail⟩
  · rintro ⟨ha, hhead, hne, hap⟩
    refine ⟨?_, List.pairwise_cons.mpr ⟨hhead, hap⟩⟩
    intro b hb
    rcases List.mem_cons.mp hb with rfl | hb
    · exact ha
    · exact hne b hb

theorem Ordered.sublist {m m' : List α} (h : Ordered m) (hs : m'.Sublist m) :
    Ordered m' :=
  ⟨fun a ha => h.nonempty a (hs.subset ha), h.apart.sublist hs⟩

theorem Ordered.search {m : List α} (h : Ordered m) (l u : Int) :
    Ordered (search l u m) :=
  h.sublist List.filter_sublist

theorem Ordered.erase [DecidableEq α] {m : List α} (h : Ordered m) (a : α) :
    Ordered (m.erase a) :=
  h.sublist List.erase_sublist

theorem Ordered.nodup {m : List α} (h : Ordered m) : m.Nodup := by
  refine h.apart.imp_of_mem ?_
  intro a b ha _ hab heq
  subst heq
  have := h.nonempty a ha
  omega

/-- Two distinct members of an ordered list do not overlap. -/
theorem Ordered.disjoint {m : List α} (h : Ordered m) {a b : α} (ha : a ∈ m)
    (hb : b ∈ m) (hab : a ≠ b) : hi a < lo b ∨ hi b < lo a := by
  induction m with
  | nil => simp at ha
  | cons c m ih =>
    obtain ⟨_, hhead, htail⟩ := ordered_cons.mp h
    rcases List.mem_cons.mp ha with rfl | ham
    · rcases List.mem_cons.mp hb with rfl | hbm
      · exact absurd rfl hab
      · exact Or.inl (hhead b hbm)
    · rcases List.mem_cons.mp hb with rfl | hbm
      · exact Or.inr (hhead a ham)
      · exact ih htail ham hbm

/-- Inserting an interval that overlaps no member keeps the list ordered. -/
theorem Ordered.insert {m : List α} (h : Ordered m) {a : α} (ha : lo a ≤ hi a)
    (hd : ∀ b ∈ m, hi a < lo b ∨ hi b < lo a) : Ordered (insertByLo a m) := by
  induction m with
  | nil => exact ordered_cons.mpr ⟨ha, by simp, ordered_nil⟩
  | cons c m ih =>
    obtain ⟨hc, hhead, htail⟩ := ordered_cons.mp h
    have hdc := hd c (by simp)
    by_cases hle : lo a ≤ lo c
    · have heq : insertByLo a (c :: m) = a :: c :: m := by
        simp [IntervalList.insertByLo, hle]
      rw [heq]
      refine ordered_cons.mpr ⟨ha, ?_, h⟩
      intro b hb
      rcases List.mem_cons.mp hb with rfl | hb
      · omega
      · have := hhead b hb
        omega
    · have heq : insertByLo a (c :: m) = c :: insertByLo a m := by
        simp [IntervalList.insertByLo, hle]
      rw [heq]
      refine ordered_cons.mpr ⟨hc, ?_, ih htail fun b hb => hd b (by simp [hb])⟩
      intro b hb
      rcases mem_insertByLo.mp hb with rfl | hb
      · omega
      · exact hhead b hb

theorem Ordered.mem_erase [DecidableEq α] {m : List α} (h : Ordered m) {a b : α} :
    b ∈ m.erase a ↔ b ≠ a ∧ b ∈ m :=
  h.nodup.mem_erase_iff

/-- The number of visited values is what a loop that removes them counts down. -/
theorem length_search (l h : Int) (m : List α) :
    (search l h m).length = m.countP (fun a => Meets l h a) := by
  simp [search, List.countP_eq_length_filter]

theorem countP_insertByLo (p : α → Bool) (a : α) (m : List α) :
    (insertByLo a m).countP p = m.countP p + if p a then 1 else 0 := by
  rw [(insertByLo_perm a m).countP_eq, List.countP_cons]

omit [Spanned α] in
theorem countP_erase_add [DecidableEq α] (p : α → Bool) {a : α} {m : List α} (ha : a ∈ m) :
    (m.erase a).countP p + (if p a then 1 else 0) = m.countP p := by
  rw [(List.perm_cons_erase ha).countP_eq p, List.countP_cons]

end IntervalList
