import Mathlib.Order.Lattice

/-!
# Paths of labelled edges

A node has an edge for every label, `next a i` being where it leads. A path is the list of
the edges it takes, each given by its source and label. Two edits of the graph act on paths
edge by edge: a node that splits edges is visited behind each of them, and a node that is
taken out is skipped.
-/

namespace Paths

open List

variable {α ι : Type*} {next next' : α → ι → Option α} {a b v : α} {p : List (α × ι)}

/-- The edges `p` lead from one node to another. -/
def Path (next : α → ι → Option α) : α → List (α × ι) → α → Prop
  | a, [], b => a = b
  | a, e :: p, b => e.1 = a ∧ ∃ c, next e.1 e.2 = some c ∧ Path next c p b

section

variable (v) (cut : α × ι → Prop) [DecidablePred cut]

/-- The path through a node `v` that splits the edges `cut`. -/
def split (p : List (α × ι)) : List (α × ι) :=
  p.flatMap fun e => if cut e then [e, (v, e.2)] else [e]

theorem mem_split {x} : x ∈ split v cut p ↔ x ∈ p ∨ x.1 = v ∧ ∃ e ∈ p, cut e ∧ e.2 = x.2 := by
  simp only [split, mem_flatMap]
  constructor
  · rintro ⟨e, he, hx⟩
    split_ifs at hx with hat
    · rw [mem_cons, mem_singleton] at hx
      rcases hx with rfl | rfl
      · exact .inl he
      · exact .inr ⟨rfl, e, he, hat, rfl⟩
    · rw [mem_singleton] at hx
      exact .inl (hx ▸ he)
  · rintro (hx | ⟨hv, e, he, hat, hi⟩)
    · refine ⟨x, hx, ?_⟩
      split_ifs <;> simp
    · refine ⟨e, he, ?_⟩
      rw [if_pos hat, hi, ← hv]
      simp

/-- Splitting edges keeps a path. -/
theorem Path.split (h : Path next a p b)
    (hin : ∀ e ∈ p, cut e → next' e.1 e.2 = some v ∧ next' v e.2 = next e.1 e.2)
    (hout : ∀ e ∈ p, ¬cut e → next' e.1 e.2 = next e.1 e.2) : Path next' a (split v cut p) b := by
  induction p generalizing a with
  | nil => exact h
  | cons e p ih =>
    obtain ⟨hsrc, c, hc, hrest⟩ := h
    have htail := ih hrest (fun f hf => hin f (by simp [hf])) fun f hf => hout f (by simp [hf])
    by_cases hat : cut e
    · obtain ⟨hto, hfrom⟩ := hin e (by simp) hat
      have heq : Paths.split v cut (e :: p) = e :: (v, e.2) :: Paths.split v cut p := by
        simp [Paths.split, hat]
      rw [heq]
      exact ⟨hsrc, v, hto, rfl, c, hfrom.trans hc, htail⟩
    · have heq : Paths.split v cut (e :: p) = e :: Paths.split v cut p := by
        simp [Paths.split, hat]
      rw [heq]
      exact ⟨hsrc, c, (hout e (by simp) hat).trans hc, htail⟩

end

section

variable [DecidableEq α] (v)

/-- The path that no longer visits `v`. -/
def skip (p : List (α × ι)) : List (α × ι) := p.filter fun e => e.1 ≠ v

theorem mem_skip {x} : x ∈ skip v p ↔ x ∈ p ∧ x.1 ≠ v := by
  simp [skip]

/-- Taking out a node keeps a path that only passes it, when the edge that leads there now
leads where the path went on. -/
theorem Path.skip (h : Path next a p b) (ha : a ≠ v) (hb : b ≠ v) (hloop : ∀ j, next v j ≠ some v)
    (hin : ∀ e ∈ p, next e.1 e.2 = some v → ∀ j, (v, j) ∈ p → next' e.1 e.2 = next v j)
    (hout : ∀ e ∈ p, e.1 ≠ v → next e.1 e.2 ≠ some v → next' e.1 e.2 = next e.1 e.2) :
    Path next' a (skip v p) b := by
  induction hn : p.length using Nat.strongRecOn generalizing a p with
  | _ n ih =>
    cases p with
    | nil => exact h
    | cons e p =>
      obtain ⟨rfl, c, hc, hrest⟩ := h
      have heq : Paths.skip v (e :: p) = e :: Paths.skip v p := by simp [Paths.skip, ha]
      rw [heq]
      by_cases hcv : c = v
      · -- the path goes on from the node, by some edge
        subst hcv
        cases p with
        | nil => exact absurd hrest.symm hb
        | cons f p =>
          obtain ⟨hf, d, hd, hrest⟩ := hrest
          have hdv : d ≠ c := by
            rintro rfl
            exact hloop f.2 (hf ▸ hd)
          have hmem : (c, f.2) ∈ e :: f :: p := by
            rw [← hf]
            simp
          have hjump := hin e (by simp) hc f.2 hmem
          have hskip : Paths.skip c (f :: p) = Paths.skip c p := by simp [Paths.skip, hf]
          rw [hskip]
          refine ⟨rfl, d, hjump.trans (hf ▸ hd), ?_⟩
          refine ih p.length (by simp at hn; omega) hrest hdv ?_ ?_ rfl
          · exact fun x hx hxc j hj => hin x (by simp [hx]) hxc j (by simp [hj])
          · exact fun x hx => hout x (by simp [hx])
      · refine ⟨rfl, c, (hout e (by simp) ha ?_).trans hc, ?_⟩
        · rw [hc]
          simpa using hcv
        · refine ih p.length (by simp at hn; omega) hrest hcv ?_ ?_ rfl
          · exact fun x hx hxc j hj => hin x (by simp [hx]) hxc j (by simp [hj])
          · exact fun x hx => hout x (by simp [hx])

end

section

variable {β : Type*} [LinearOrder β] {r : α → β} {e f : α × ι} {c : α} {x : β}

/-- Every edge of the path leads upwards. -/
def Rising (next : α → ι → Option α) (r : α → β) (p : List (α × ι)) : Prop :=
  ∀ e ∈ p, ∀ c, next e.1 e.2 = some c → r e.1 < r c

theorem Path.le (h : Path next a p b) (hr : Rising next r p) : r a ≤ r b := by
  induction p generalizing a with
  | nil => exact le_of_eq (congrArg r h)
  | cons e p ih =>
    obtain ⟨rfl, c, hc, hrest⟩ := h
    have hlt := hr e (by simp) c hc
    exact hlt.le.trans (ih hrest fun f hf => hr f (by simp [hf]))

/-- The ends of an edge lie between the ends of the path. -/
theorem Path.between (h : Path next a p b) (hr : Rising next r p) (he : e ∈ p)
    (hc : next e.1 e.2 = some c) : r a ≤ r e.1 ∧ r c ≤ r b := by
  induction p generalizing a with
  | nil => simp at he
  | cons f p ih =>
    obtain ⟨rfl, d, hd, hrest⟩ := h
    have hr' : Rising next r p := fun g hg => hr g (by simp [hg])
    rcases mem_cons.mp he with rfl | he
    · obtain rfl := Option.some.inj (hc.symm.trans hd)
      exact ⟨le_rfl, hrest.le hr'⟩
    · obtain ⟨hle, hle'⟩ := ih hrest hr' he
      exact ⟨(hr f (by simp) d hd).le.trans hle, hle'⟩

/-- An edge of the path has an end. -/
theorem Path.edge (h : Path next a p b) (he : e ∈ p) : ∃ c, next e.1 e.2 = some c := by
  induction p generalizing a with
  | nil => simp at he
  | cons f p ih =>
    obtain ⟨_, d, hd, hrest⟩ := h
    rcases mem_cons.mp he with rfl | he
    · exact ⟨d, hd⟩
    · exact ih hrest he

/-- The edge leads over the cut `x`. -/
def Crosses (next : α → ι → Option α) (r : α → β) (x : β) (e : α × ι) : Prop :=
  r e.1 < x ∧ ∃ c, next e.1 e.2 = some c ∧ x ≤ r c

theorem Path.exists_crossing (h : Path next a p b) (ha : r a < x) (hb : x ≤ r b) :
    ∃ e ∈ p, Crosses next r x e := by
  induction p generalizing a with
  | nil =>
    obtain rfl : a = b := h
    exact absurd ha (not_lt.mpr hb)
  | cons f p ih =>
    obtain ⟨rfl, d, hd, hrest⟩ := h
    by_cases hx : x ≤ r d
    · exact ⟨f, by simp, ha, d, hd, hx⟩
    · obtain ⟨e, he, hcross⟩ := ih hrest (not_le.mp hx)
      exact ⟨e, by simp [he], hcross⟩

theorem Path.crossing_unique (h : Path next a p b) (hr : Rising next r p) (he : e ∈ p)
    (hf : f ∈ p) (hce : Crosses next r x e) (hcf : Crosses next r x f) : e = f := by
  induction p generalizing a with
  | nil => simp at he
  | cons g p ih =>
    obtain ⟨rfl, d, hd, hrest⟩ := h
    have hr' : Rising next r p := fun k hk => hr k (by simp [hk])
    -- behind an edge over the cut all sources are above it
    have habove : Crosses next r x g → ∀ k ∈ p, ¬Crosses next r x k := by
      rintro ⟨_, c, hc, hxc⟩ k hk ⟨hlt, _⟩
      obtain rfl := Option.some.inj (hc.symm.trans hd)
      obtain ⟨c', hc'⟩ := hrest.edge hk
      exact absurd hlt (not_lt.mpr (hxc.trans (hrest.between hr' hk hc').1))
    rcases mem_cons.mp he with rfl | he'
    · rcases mem_cons.mp hf with rfl | hf'
      · rfl
      · exact absurd hcf (habove hce f hf')
    · rcases mem_cons.mp hf with rfl | hf'
      · exact absurd hce (habove hcf e he')
      · exact ih hrest hr' he' hf'

/-- An edge of the path over the cut shows that the path leads over it. -/
theorem Path.crosses_ends (h : Path next a p b) (hr : Rising next r p) (he : e ∈ p)
    (hce : Crosses next r x e) : r a < x ∧ x ≤ r b := by
  obtain ⟨hlt, c, hc, hxc⟩ := hce
  obtain ⟨hle, hle'⟩ := h.between hr he hc
  exact ⟨hle.trans_lt hlt, hxc.trans hle'⟩

end

end Paths
