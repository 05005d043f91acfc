import Mathlib.Data.List.Infix

/-!
# Maps from paths

A tree is given by what stands at each path, as a function or as a finite table of entries. Moving
a subtree relabels the paths below it. The table and the function agree as long as the target of
the move is free.
-/

namespace PathMap

open List

variable {κ β : Type*} {f : List κ → Option β} {m : List (List κ × β)}

/-- Nothing stands at a path or below it. -/
def Free (f : List κ → Option β) (d : List κ) : Prop := ∀ r, f (d ++ r) = none

/-- Neither path lies at or below the other. -/
def Apart (x y : List κ) : Prop := ¬ x <+: y ∧ ¬ y <+: x

theorem Apart.symm {x y : List κ} (h : Apart x y) : Apart y x := ⟨h.2, h.1⟩

theorem Apart.append {x y : List κ} (h : Apart x y) (r : List κ) : ¬ x <+: y ++ r := by
  intro hpre
  rcases prefix_or_prefix_of_prefix hpre (prefix_append y r) with hxy | hyx
  · exact h.1 hxy
  · exact h.2 hyx

variable [DecidableEq κ]

/-- The tree after the subtree at `s` has been moved to `d`. -/
def moved (f : List κ → Option β) (s d p : List κ) : Option β :=
  if d <+: p then f (s ++ p.drop d.length) else if s <+: p then none else f p

theorem moved_under (f : List κ → Option β) (s d r : List κ) :
    moved f s d (d ++ r) = f (s ++ r) := by
  rw [moved, if_pos (prefix_append d r), drop_left]

theorem moved_self (f : List κ → Option β) (s d : List κ) : moved f s d d = f s := by
  simpa using moved_under f s d []

theorem moved_gone {s d p : List κ} (hd : ¬ d <+: p) (hs : s <+: p) : moved f s d p = none := by
  rw [moved, if_neg hd, if_pos hs]

theorem moved_other {s d p : List κ} (hd : ¬ d <+: p) (hs : ¬ s <+: p) : moved f s d p = f p := by
  rw [moved, if_neg hd, if_neg hs]

/-- Nothing is left where the subtree stood. -/
theorem free_source {s d} (h : Apart d s) : Free (moved f s d) s :=
  fun r => moved_gone (h.append r) (prefix_append s r)

/-- A move elsewhere leaves a free path free. -/
theorem Free.moved {s d q} (h : Free f q) (hd : Apart d q) : Free (PathMap.moved f s d) q := by
  intro r
  by_cases hs : s <+: q ++ r
  · exact moved_gone (hd.append r) hs
  · rw [moved_other (hd.append r) hs]
    exact h r

/-- Moving a subtree to a free path and back changes nothing. -/
theorem moved_back {s d} (h : Free f d) : moved (moved f s d) d s = f := by
  funext p
  by_cases hs : s <+: p
  · obtain ⟨r, rfl⟩ := hs
    rw [moved_under, moved_under]
  · by_cases hd : d <+: p
    · obtain ⟨r, rfl⟩ := hd
      rw [moved_gone hs (prefix_append d r), h r]
    · rw [moved_other hs hd, moved_other hd hs]

/-- Moves of subtrees that have nothing to do with each other commute. -/
theorem moved_comm {s d s' d' : List κ} (hs : Apart s s') (hsd : Apart s d') (hds : Apart d s')
    (hd : Apart d d') : moved (moved f s d) s' d' = moved (moved f s' d') s d := by
  funext p
  by_cases hp : d <+: p
  · obtain ⟨r, rfl⟩ := hp
    rw [moved_other (hd.symm.append r) (hds.symm.append r), moved_under, moved_under,
      moved_other (hsd.symm.append r) (hs.symm.append r)]
  by_cases hp' : d' <+: p
  · obtain ⟨r, rfl⟩ := hp'
    rw [moved_under, moved_other (hds.append r) (hs.append r), moved_other hp (hsd.append r),
      moved_under]
  by_cases hq : s <+: p
  · rw [moved_gone (f := moved f s' d') hp hq]
    by_cases hq' : s' <+: p
    · exact moved_gone hp' hq'
    · rw [moved_other hp' hq', moved_gone hp hq]
  · rw [moved_other (f := moved f s' d') hp hq]
    by_cases hq' : s' <+: p
    · rw [moved_gone hp' hq', moved_gone hp' hq']
    · rw [moved_other hp' hq', moved_other hp hq, moved_other hp' hq']

/-- What a table of entries has at a path. -/
def find (m : List (List κ × β)) (p : List κ) : Option β :=
  (m.find? fun e => decide (e.1 = p)).map Prod.snd

theorem find_ne_none_iff {p} : find m p ≠ none ↔ ∃ e ∈ m, e.1 = p := by
  simp [find]

/-- The path an entry has after a move. -/
def relocate (s d p : List κ) : List κ := if s <+: p then d ++ p.drop s.length else p

/-- A table after a move: the entries keep their order. -/
def move (s d : List κ) (m : List (List κ × β)) : List (List κ × β) :=
  m.map fun e => (relocate s d e.1, e.2)

/-- A table without the entry at a path. -/
def erase (p : List κ) (m : List (List κ × β)) : List (List κ × β) :=
  m.filter fun e => decide (e.1 ≠ p)

theorem find_filter (m : List (List κ × β)) (keep : List κ → Bool) (p : List κ) :
    find (m.filter fun e => keep e.1) p = if keep p then find m p else none := by
  induction m with
  | nil => simp [find]
  | cons e m ih =>
    unfold find at ih ⊢
    by_cases hp : e.1 = p
    · by_cases hk : keep p = true
      · simp [hp, hk]
      · rw [filter_cons, if_neg (by rwa [hp]), ih, if_neg hk, if_neg hk]
    · by_cases hk : keep e.1 = true
      · simp only [filter_cons, if_pos hk, List.find?_cons, hp, decide_false, ih]
      · simp only [filter_cons, if_neg hk, List.find?_cons, hp, decide_false, ih]

theorem find_erase (m : List (List κ × β)) (q p : List κ) :
    find (erase q m) p = if p = q then none else find m p := by
  unfold erase
  rw [find_filter m (fun k => decide (k ≠ q))]
  by_cases hp : p = q <;> simp [hp]

theorem find_congr {s d p q : List κ} (h : ∀ e ∈ m, relocate s d e.1 = p ↔ e.1 = q) :
    find (move s d m) p = find m q := by
  induction m with
  | nil => rfl
  | cons e m ih =>
    obtain ⟨he, hm⟩ := forall_mem_cons.1 h
    have ih := ih hm
    unfold find move at ih ⊢
    by_cases hq : e.1 = q
    · subst hq
      simp only [map_cons, List.find?_cons, he.2 rfl, decide_true, Option.map_some]
    · have hp : relocate s d e.1 ≠ p := fun hp => hq (he.1 hp)
      simp only [map_cons, List.find?_cons, hp, hq, decide_false]
      exact ih

theorem relocate_eq_under {s d k r : List κ} (hk : ¬ d <+: k) :
    relocate s d k = d ++ r ↔ k = s ++ r := by
  unfold relocate
  split_ifs with hs
  · obtain ⟨t, rfl⟩ := hs
    rw [drop_left, append_cancel_left_eq, append_cancel_left_eq]
  · constructor
    · rintro rfl
      exact absurd (prefix_append d r) hk
    · rintro rfl
      exact absurd (prefix_append s r) hs

theorem relocate_eq_other {s d k p : List κ} (hd : ¬ d <+: p) (hs : ¬ s <+: p) :
    relocate s d k = p ↔ k = p := by
  unfold relocate
  split_ifs with hk
  · obtain ⟨t, rfl⟩ := hk
    rw [drop_left]
    constructor
    · rintro rfl
      exact absurd (prefix_append d t) hd
    · rintro rfl
      exact absurd (prefix_append s t) hs
  · exact Iff.rfl

theorem relocate_ne_gone {s d k p : List κ} (hd : ¬ d <+: p) (hs : s <+: p) :
    relocate s d k ≠ p := by
  unfold relocate
  split_ifs with hk
  · rintro rfl
    exact hd (prefix_append _ _)
  · rintro rfl
    exact hk hs

/-- A move of a table to a free path is the move of what it holds. -/
theorem find_move {s d : List κ} (h : Free (find m) d) :
    find (move s d m) = moved (find m) s d := by
  have hkeys : ∀ e ∈ m, ¬ d <+: e.1 := by
    rintro e he ⟨r, hr⟩
    exact find_ne_none_iff.2 ⟨e, he, hr.symm⟩ (h r)
  funext p
  by_cases hd : d <+: p
  · obtain ⟨r, rfl⟩ := hd
    rw [moved_under]
    exact find_congr fun e he => relocate_eq_under (hkeys e he)
  by_cases hs : s <+: p
  · rw [moved_gone hd hs]
    by_contra hsome
    obtain ⟨e', he', hp⟩ := find_ne_none_iff.1 hsome
    obtain ⟨e, -, rfl⟩ := mem_map.1 he'
    exact relocate_ne_gone hd hs hp
  · rw [moved_other hd hs]
    exact find_congr fun e _ => relocate_eq_other hd hs

end PathMap
