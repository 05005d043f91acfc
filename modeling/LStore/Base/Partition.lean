import Mathlib.Data.List.Perm.Basic

/-!
# Splitting a filtered list

A list filtered by a disjunction of exclusive conditions is, up to order, made of the
lists filtered by each of them.
-/

namespace Partition

variable {α ι : Type*} {s : List α}

theorem filter_or_perm {p q} [DecidablePred p] [DecidablePred q] (h : ∀ x ∈ s, p x → ¬q x) :
    (s.filter fun x => p x ∨ q x).Perm ((s.filter fun x => p x) ++ s.filter fun x => q x) := by
  induction s with
  | nil => simp
  | cons x s ih =>
    have hrest := ih fun y hy => h y (by simp [hy])
    by_cases hp : p x
    · have hq : ¬q x := h x (by simp) hp
      simpa [hp, hq] using hrest
    · by_cases hq : q x
      · simp only [hp, hq, or_true, decide_true, List.filter_cons_of_pos, decide_false,
          Bool.false_eq_true, not_false_eq_true, List.filter_cons_of_neg]
        exact (hrest.cons x).trans List.perm_middle.symm
      · simpa [hp, hq] using hrest

/-- Conditions indexed by a list, no two of which hold of one member. -/
theorem flatMap_filter_perm {Q : ι → α → Prop} [∀ i, DecidablePred (Q i)] {is : List ι}
    (h : is.Pairwise fun i j => ∀ x ∈ s, Q i x → ¬Q j x) :
    (is.flatMap fun i => s.filter fun x => Q i x).Perm (s.filter fun x => ∃ i ∈ is, Q i x) := by
  induction is with
  | nil => simp
  | cons i is ih =>
    obtain ⟨hhead, htail⟩ := List.pairwise_cons.mp h
    have hsplit : (s.filter fun x => ∃ j ∈ i :: is, Q j x) =
        s.filter fun x => Q i x ∨ ∃ j ∈ is, Q j x := by
      refine List.filter_congr fun x _ => ?_
      simp
    rw [hsplit, List.flatMap_cons]
    refine ((ih htail).append_left _).trans (filter_or_perm ?_).symm
    rintro x hx hi ⟨j, hj, hq⟩
    exact hhead j hj x hx hi hq

end Partition
