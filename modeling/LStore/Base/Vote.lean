import Mathlib.Data.List.Induction
import Mathlib.Data.List.Nodup

/-!
# Plurality votes

Voters name a key each, in order. `table` groups the voters by key, the groups in the
order in which their keys were first named, and `leader` picks the first of the largest
groups. `Leads` says the same of the list of keys alone.
-/

namespace Vote

open List

variable {κ ι : Type*} [DecidableEq κ] {keys : List κ}

/-- Count the voter `i` for the key `k`. -/
def add (k : κ) (i : ι) : List (κ × List ι) → List (κ × List ι)
  | [] => [(k, [i])]
  | e :: t => if e.1 = k then (e.1, e.2 ++ [i]) :: t else e :: add k i t

/-- The groups of voters. -/
def table (votes : List (κ × ι)) : List (κ × List ι) :=
  votes.foldl (fun t v => add v.1 v.2 t) []

/-- The first of the largest groups. -/
def leader : List (κ × List ι) → Option (κ × List ι)
  | [] => none
  | e :: t => some (t.foldl (fun best x => if best.2.length < x.2.length then x else best) e)

/-- The voters of a key. -/
def voters (votes : List (κ × ι)) (k : κ) : List ι :=
  (votes.filter fun v => decide (v.1 = k)).map Prod.snd

/-- The key named most often, the first named among several. -/
def Leads (keys : List κ) (k : κ) : Prop :=
  k ∈ keys ∧ ∀ k' ∈ keys, k' ≠ k → keys.count k' < keys.count k ∨
    keys.count k' = keys.count k ∧ keys.idxOf k < keys.idxOf k'

instance (keys : List κ) (k : κ) : Decidable (Leads keys k) :=
  inferInstanceAs (Decidable (_ ∧ ∀ k' ∈ keys, _))

theorem Leads.unique {k k'} (h : Leads keys k) (h' : Leads keys k') : k = k' := by
  by_contra hne
  have hk := h.2 k' h'.1 (Ne.symm hne)
  have hk' := h'.2 k h.1 hne
  omega

theorem mem_voters {votes : List (κ × ι)} {k : κ} {i} : i ∈ voters votes k ↔ (k, i) ∈ votes := by
  simp [voters]

theorem voters_eq_nil {votes : List (κ × ι)} {k} (h : k ∉ votes.map Prod.fst) :
    voters votes k = [] := by
  rw [eq_nil_iff_forall_not_mem]
  intro i hi
  exact h (mem_map.mpr ⟨(k, i), mem_voters.mp hi, rfl⟩)

theorem length_voters (votes : List (κ × ι)) (k : κ) :
    (voters votes k).length = (votes.map Prod.fst).count k := by
  rw [voters, length_map, List.count, countP_map, countP_eq_length_filter]
  rfl

theorem voters_concat (votes : List (κ × ι)) (v : κ × ι) (k : κ) :
    voters (votes ++ [v]) k = voters votes k ++ if v.1 = k then [v.2] else [] := by
  by_cases h : v.1 = k <;> simp [voters, h]

/-- A new vote goes to the group of its key, or opens one at the end. -/
theorem add_eq (k : κ) (i : ι) (t : List (κ × List ι)) (hnd : (t.map Prod.fst).Nodup) :
    add k i t = if k ∈ t.map Prod.fst then
      t.map fun e => if e.1 = k then (e.1, e.2 ++ [i]) else e
    else t ++ [(k, [i])] := by
  induction t with
  | nil => rfl
  | cons e t ih =>
    rw [map_cons, nodup_cons] at hnd
    by_cases he : e.1 = k
    · have hrest : t.map (fun e => if e.1 = k then (e.1, e.2 ++ [i]) else e) = t := by
        refine (map_congr_left fun x hx => if_neg fun hxk => ?_).trans (map_id t)
        exact hnd.1 (by rw [he, ← hxk]; exact mem_map_of_mem hx)
      rw [add, if_pos he, if_pos (by simp [he]), map_cons, if_pos he, hrest]
    · have hmem : k ∈ (e :: t).map Prod.fst ↔ k ∈ t.map Prod.fst := by
        simp [Ne.symm he]
      rw [add, if_neg he, ih hnd.2]
      by_cases hk : k ∈ t.map Prod.fst
      · rw [if_pos hk, if_pos (hmem.mpr hk), map_cons, if_neg he]
      · rw [if_neg hk, if_neg (mt hmem.mp hk), cons_append]

variable (votes : List (κ × ι))

/-- The groups stand in the order in which their keys were first named. -/
def Ordered (keys : List κ) (t : List (κ × List ι)) : Prop :=
  t.Pairwise fun e e' => keys.idxOf e.1 < keys.idxOf e'.1

theorem Ordered.nodup {t : List (κ × List ι)} (h : Ordered keys t) : (t.map Prod.fst).Nodup := by
  rw [List.Nodup, pairwise_map]
  exact h.imp fun hlt heq => by rw [heq] at hlt; omega

theorem table_concat (v : κ × ι) : table (votes ++ [v]) = add v.1 v.2 (table votes) := by
  rw [table, foldl_append]
  rfl

/-- What the table of a list of votes holds. -/
structure Tabulates (votes : List (κ × ι)) (t : List (κ × List ι)) : Prop where
  ordered : Ordered (votes.map Prod.fst) t
  mem_iff : ∀ e, e ∈ t ↔ e.1 ∈ votes.map Prod.fst ∧ e.2 = voters votes e.1

variable {votes} {t : List (κ × List ι)}

theorem Tabulates.mem_keys (h : Tabulates votes t) (k : κ) :
    k ∈ t.map Prod.fst ↔ k ∈ votes.map Prod.fst := by
  constructor
  · intro hk
    obtain ⟨e, he, rfl⟩ := mem_map.mp hk
    exact ((h.mem_iff e).mp he).1
  · intro hk
    exact mem_map.mpr ⟨(k, voters votes k), (h.mem_iff _).mpr ⟨hk, rfl⟩, rfl⟩

theorem Tabulates.concat (h : Tabulates votes t) (v : κ × ι) :
    Tabulates (votes ++ [v]) (add v.1 v.2 t) := by
  have hkeys := h.mem_keys
  have hold : ∀ e ∈ t, e.1 ∈ votes.map Prod.fst := fun e he => ((h.mem_iff e).mp he).1
  rw [add_eq v.1 v.2 t h.ordered.nodup]
  have hmap : (votes ++ [v]).map Prod.fst = votes.map Prod.fst ++ [v.1] := by simp
  split_ifs with hk
  · have hfst : ∀ e : κ × List ι,
        (if e.1 = v.1 then (e.1, e.2 ++ [v.2]) else e).1 = e.1 := by
      intro e
      split <;> rfl
    refine ⟨?_, fun e => ?_⟩
    · rw [Ordered, pairwise_map, hmap]
      refine h.ordered.imp_of_mem fun {e e'} he he' hlt => ?_
      rw [hfst, hfst, idxOf_append_of_mem (hold e he), idxOf_append_of_mem (hold e' he')]
      exact hlt
    · rw [mem_map, hmap, voters_concat]
      constructor
      · rintro ⟨e', he', rfl⟩
        obtain ⟨hmem, hval⟩ := (h.mem_iff e').mp he'
        rw [hfst]
        refine ⟨mem_append_left _ hmem, ?_⟩
        by_cases hv : e'.1 = v.1
        · rw [if_pos hv, if_pos hv.symm, hval]
        · rw [if_neg hv, if_neg (Ne.symm hv), hval, append_nil]
      · rintro ⟨hmem, hval⟩
        have hmem' : e.1 ∈ votes.map Prod.fst := by
          rcases mem_append.mp hmem with hmem | hmem
          · exact hmem
          · rw [mem_singleton.mp hmem]
            exact (hkeys _).mp hk
        refine ⟨(e.1, voters votes e.1), (h.mem_iff _).mpr ⟨hmem', rfl⟩, ?_⟩
        split_ifs with hv
        · rw [if_pos hv.symm] at hval
          exact Prod.ext rfl hval.symm
        · rw [if_neg (Ne.symm hv), append_nil] at hval
          exact Prod.ext rfl hval.symm
  · have hnew : v.1 ∉ votes.map Prod.fst := fun hmem => hk ((hkeys _).mpr hmem)
    have hlast : (votes.map Prod.fst ++ [v.1]).idxOf v.1 = (votes.map Prod.fst).length := by
      rw [idxOf_append_of_notMem hnew]
      simp
    refine ⟨?_, fun e => ?_⟩
    · rw [Ordered, pairwise_append, hmap]
      refine ⟨h.ordered.imp_of_mem fun {e e'} he he' hlt => ?_, pairwise_singleton _ _, ?_⟩
      · rw [idxOf_append_of_mem (hold e he), idxOf_append_of_mem (hold e' he')]
        exact hlt
      · intro e he e' he'
        rw [mem_singleton.mp he', hlast, idxOf_append_of_mem (hold e he)]
        exact idxOf_lt_length_of_mem (hold e he)
    · rw [mem_append, mem_singleton, hmap, voters_concat, h.mem_iff]
      constructor
      · rintro (⟨hmem, hval⟩ | rfl)
        · have hv : v.1 ≠ e.1 := fun heq => hnew (heq ▸ hmem)
          exact ⟨mem_append_left _ hmem, by rw [hval, if_neg hv, append_nil]⟩
        · simp [voters_eq_nil hnew]
      · rintro ⟨hmem, hval⟩
        by_cases hv : v.1 = e.1
        · right
          rw [if_pos hv, voters_eq_nil (hv ▸ hnew), nil_append] at hval
          exact Prod.ext hv.symm hval
        · left
          rw [if_neg hv, append_nil] at hval
          refine ⟨?_, hval⟩
          rcases mem_append.mp hmem with hmem | hmem
          · exact hmem
          · exact absurd (mem_singleton.mp hmem).symm hv

theorem tabulates_table (votes : List (κ × ι)) : Tabulates votes (table votes) := by
  induction votes using List.reverseRecOn with
  | nil => exact ⟨List.Pairwise.nil, fun e => by simp [table]⟩
  | append_singleton votes v ih =>
    rw [table_concat]
    exact ih.concat v

/-- The best of a list of groups, the first of them among equals. -/
def Best (keys : List κ) (t : List (κ × List ι)) (b : κ × List ι) : Prop :=
  b ∈ t ∧ ∀ e ∈ t, e.2.length < b.2.length ∨
    e.2.length = b.2.length ∧ (e = b ∨ keys.idxOf b.1 < keys.idxOf e.1)

theorem best_foldl {e : κ × List ι} {t} (h : Ordered keys (e :: t)) :
    Best keys (e :: t)
      (t.foldl (fun best x => if best.2.length < x.2.length then x else best) e) := by
  induction t using List.reverseRecOn with
  | nil => exact ⟨by simp, by simp⟩
  | append_singleton t x ih =>
    rw [← cons_append] at h ⊢
    have hsplit := pairwise_append.mp h
    obtain ⟨hmem, hbest⟩ := ih hsplit.1
    rw [foldl_append, foldl_cons, foldl_nil]
    generalize t.foldl (fun best x => if best.2.length < x.2.length then x else best) e = b at *
    split_ifs with hlt
    · refine ⟨by simp, fun y hy => ?_⟩
      rcases mem_append.mp hy with hy | hy
      · have := hbest y hy
        left
        omega
      · rw [mem_singleton.mp hy]
        exact .inr ⟨rfl, .inl rfl⟩
    · refine ⟨mem_append_left _ hmem, fun y hy => ?_⟩
      rcases mem_append.mp hy with hy | hy
      · exact hbest y hy
      · rw [mem_singleton.mp hy]
        rcases Nat.lt_or_ge x.2.length b.2.length with hx | hx
        · exact .inl hx
        · exact .inr ⟨by omega, .inr (hsplit.2.2 b hmem x (by simp))⟩

/-- The winner of the vote, with its voters. -/
theorem leader_table (hne : votes ≠ []) :
    ∃ k, Leads (votes.map Prod.fst) k ∧ leader (table votes) = some (k, voters votes k) := by
  have h := tabulates_table votes
  cases ht : table votes with
  | nil =>
    obtain ⟨v, hv⟩ := exists_mem_of_ne_nil votes hne
    have hmem := (h.mem_iff (v.1, voters votes v.1)).mpr ⟨mem_map_of_mem hv, rfl⟩
    rw [ht] at hmem
    simp at hmem
  | cons e t =>
    rw [ht] at h
    obtain ⟨hmem, hbest⟩ := best_foldl h.ordered
    rw [leader]
    generalize t.foldl (fun best x => if best.2.length < x.2.length then x else best) e = b at *
    obtain ⟨hkey, hvoters⟩ := (h.mem_iff b).mp hmem
    refine ⟨b.1, ⟨hkey, fun k' hk' hne' => ?_⟩, by rw [← hvoters]⟩
    have hlen := hbest (k', voters votes k') ((h.mem_iff _).mpr ⟨hk', rfl⟩)
    rw [hvoters, length_voters, length_voters] at hlen
    rcases hlen with hlt | ⟨heq, hsame | hbefore⟩
    · exact .inl hlt
    · exact absurd (congrArg Prod.fst hsame) hne'
    · exact .inr ⟨heq, hbefore⟩

end Vote
