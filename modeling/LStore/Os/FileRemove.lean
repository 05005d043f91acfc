import LStore.Os.FileTree

/-!
# What removing an object does

Each step of `osf_object_remove` cuts some paths out of the namespace. A file or symlink goes with
its attribute directory; a directory goes whole if it holds nothing but its attributes.
-/

namespace LStore.Os.File

open PathMap List

variable {β : Type*} {fs : Fs β} {p d : Path} {cut cut' : Path → Prop}

/-- `f'` is `f` without the paths in `cut`. -/
structure Cut (f : Path → Option (Node β)) (cut : Path → Prop) (f' : Path → Option (Node β)) :
    Prop where
  gone : ∀ p, cut p → f' p = none
  kept : ∀ p, ¬ cut p → f' p = f p

theorem Cut.le {f f' : Path → Option (Node β)} (h : Cut f cut f') (hp : f' p ≠ none) : f' p = f p :=
  h.kept p fun hcut => hp (h.gone p hcut)

theorem Cut.absent {f f' : Path → Option (Node β)} (h : Cut f cut f') (hp : f p = none) :
    f' p = none := by
  by_contra hne
  exact hne ((h.le hne).trans hp)

theorem Cut.trans {f f' f'' : Path → Option (Node β)} (h : Cut f cut f') (h' : Cut f' cut' f'') :
    Cut f (fun p => cut p ∨ cut' p) f'' where
  gone p hp := by
    by_cases hcut : cut' p
    · exact h'.gone p hcut
    · rw [h'.kept p hcut, h.gone p (hp.resolve_right hcut)]
  kept p hp := by
    rw [h'.kept p fun hcut => hp (.inr hcut), h.kept p fun hcut => hp (.inl hcut)]

/-- Only what was there matters. -/
theorem Cut.congr {f f' : Path → Option (Node β)} (h : Cut f cut f')
    (hsame : ∀ p, f p ≠ none → (cut p ↔ cut' p)) : Cut f cut' f' where
  gone p hp := by
    by_cases hf : f p = none
    · exact h.absent hf
    · exact h.gone p ((hsame p hf).2 hp)
  kept p hp := by
    by_cases hf : f p = none
    · rw [h.absent hf, hf]
    · exact h.kept p fun hcut => hp ((hsame p hf).1 hcut)

theorem isChild_iff : isChild d p = true ↔ ∃ x, p = d ++ [x] := by
  unfold isChild
  rw [decide_eq_true_iff]
  constructor
  · rintro ⟨hp, rfl⟩
    exact ⟨p.getLast hp, (dropLast_append_getLast hp).symm⟩
  · rintro ⟨x, rfl⟩
    simp

theorem lookup_snoc_ne_none {x} : lookup fs (d ++ [x]) ≠ none ↔ ∃ e ∈ fs, e.1 = d ++ [x] := by
  rw [lookup_of_ne (by simp), find_ne_none_iff]

theorem hasChild_iff : hasChild fs d = true ↔ ∃ x, lookup fs (d ++ [x]) ≠ none := by
  unfold hasChild
  rw [any_eq_true]
  constructor
  · rintro ⟨e, he, hchild⟩
    obtain ⟨x, hx⟩ := isChild_iff.1 hchild
    exact ⟨x, lookup_snoc_ne_none.2 ⟨e, he, hx⟩⟩
  · rintro ⟨x, hx⟩
    obtain ⟨e, he, hkey⟩ := lookup_snoc_ne_none.1 hx
    exact ⟨e, he, isChild_iff.2 ⟨x, hkey⟩⟩

theorem erase_cut (hp : p ≠ []) : Cut (lookup fs) (· = p) (lookup (erase p fs)) where
  gone q hq := by
    subst hq
    rw [lookup_of_ne hp, find_erase, if_pos rfl]
  kept q hq := by
    by_cases h0 : q = []
    · rw [h0, lookup_root, lookup_root]
    · rw [lookup_of_ne h0, lookup_of_ne h0, find_erase, if_neg hq]

/-- Removing what is not a directory, or not there at all. -/
theorem remove_cut_file (h : lookup fs p ≠ some .dir) :
    Cut (lookup fs) (· = p) (lookup (remove fs p)) := by
  have hp : p ≠ [] := by
    rintro rfl
    exact h (lookup_root fs)
  unfold remove
  rcases hl : lookup fs p with _ | _ | _ | _
  · exact ⟨fun q hq => by rw [hq, hl], fun _ _ => rfl⟩
  · exact erase_cut hp
  · exact erase_cut hp
  · exact absurd hl h

/-- Removing an empty directory. -/
theorem remove_cut_dir (hp : p ≠ []) (h : lookup fs p = some .dir)
    (hempty : ∀ x, lookup fs (p ++ [x]) = none) :
    Cut (lookup fs) (· = p) (lookup (remove fs p)) := by
  have hno : ¬ (p = [] ∨ hasChild fs p = true) := by
    rintro (h0 | hc)
    · exact hp h0
    · obtain ⟨x, hx⟩ := hasChild_iff.1 hc
      exact hx (hempty x)
  unfold remove
  rw [h]
  rw [if_neg hno]
  exact erase_cut hp

theorem purgeEntry_cut (purge : Fs β → Path → Fs β) (deeper : Bool) (h : lookup fs p ≠ some .dir) :
    Cut (lookup fs) (· = p) (lookup (purgeEntry purge deeper fs p)) := by
  have hremove := remove_cut_file h
  unfold purgeEntry
  rcases hl : lookup fs p with _ | _ | _ | _
  · exact ⟨fun q hq => by rw [hq, hl], fun _ _ => rfl⟩
  · exact hremove
  · exact hremove
  · exact absurd hl h

theorem purge_fold_cut {purge : Fs β → Path → Fs β} {deeper} {keys : List Path}
    (h : ∀ p ∈ keys, lookup fs p ≠ some .dir) :
    Cut (lookup fs) (· ∈ keys) (lookup (keys.foldl (purgeEntry purge deeper) fs)) := by
  induction keys generalizing fs with
  | nil => exact ⟨nofun, fun _ _ => rfl⟩
  | cons k keys ih =>
    obtain ⟨hk, hkeys⟩ := forall_mem_cons.1 h
    have hfirst := purgeEntry_cut purge deeper hk
    have hkeys' : ∀ p ∈ keys, lookup (purgeEntry purge deeper fs k) p ≠ some .dir := by
      intro p hp hdir
      rw [hfirst.le (by rw [hdir]; exact Option.some_ne_none _)] at hdir
      exact hkeys p hp hdir
    refine (hfirst.trans (ih hkeys')).congr fun p _ => ?_
    rw [mem_cons]

theorem mem_children_iff :
    p ∈ (fs.map Prod.fst).filter (isChild d) ↔ ∃ x, p = d ++ [x] ∧ lookup fs p ≠ none := by
  rw [mem_filter, mem_map, isChild_iff]
  constructor
  · rintro ⟨he, x, rfl⟩
    exact ⟨x, rfl, lookup_snoc_ne_none.2 he⟩
  · rintro ⟨x, rfl, hne⟩
    exact ⟨lookup_snoc_ne_none.1 hne, x, rfl⟩

/-- A directory without subdirectories is emptied. -/
theorem osfPurgeDir_cut (depth : Nat) (h : ∀ x, lookup fs (d ++ [x]) ≠ some .dir) :
    Cut (lookup fs) (fun p => ∃ x, p = d ++ [x]) (lookup (osfPurgeDir depth fs d)) := by
  have hfold : ∀ (purge : Fs β → Path → Fs β) (deeper : Bool),
      Cut (lookup fs) (fun p => ∃ x, p = d ++ [x])
        (lookup (((fs.map Prod.fst).filter (isChild d)).foldl (purgeEntry purge deeper) fs)) := by
    intro purge deeper
    refine (purge_fold_cut fun p hp => ?_).congr fun p hne => ?_
    · obtain ⟨x, rfl, -⟩ := mem_children_iff.1 hp
      exact h x
    · rw [mem_children_iff]
      exact exists_congr fun x => and_iff_left hne
  cases depth with
  | zero => exact hfold _ _
  | succ depth => exact hfold _ _

/-- Without depth, subdirectories are passed over. -/
theorem osfPurgeDir_dirs (h : ∀ x, lookup fs (d ++ [x]) ≠ none → lookup fs (d ++ [x]) = some .dir) :
    osfPurgeDir 0 fs d = fs := by
  have hfold : ∀ keys : List Path, (∀ p ∈ keys, lookup fs p = some .dir) →
      keys.foldl (purgeEntry (fun fs _ => fs) false) fs = fs := by
    intro keys hkeys
    induction keys with
    | nil => rfl
    | cons k keys ih =>
      obtain ⟨hk, hkeys⟩ := forall_mem_cons.1 hkeys
      have hstep : purgeEntry (fun fs _ => fs) false fs k = fs := by
        unfold purgeEntry
        rw [hk]
        rfl
      rw [foldl_cons, hstep, ih hkeys]
  apply hfold
  intro p hp
  obtain ⟨x, rfl, hne⟩ := mem_children_iff.1 hp
  exact h x hne

/-- A file or symlink goes, with the attribute directory that holds its values. -/
theorem osfObjectRemove_file {n : Node β} (hn : lookup fs p = some n) (hfile : n.isFile = true)
    (hattr : lookup fs (attrDir p) = some .dir)
    (hvalues : ∀ x r, lookup fs (attrDir p ++ x :: r) ≠ none →
      r = [] ∧ lookup fs (attrDir p ++ [x]) ≠ some .dir) :
    Cut (lookup fs) (fun q => q = p ∨ attrDir p <+: q) (lookup (osfObjectRemove fs p)) := by
  have hnd : lookup fs p ≠ some .dir := by
    rw [hn]
    intro h
    cases h
    exact Bool.noConfusion hfile
  have hvalue : ∀ x, lookup fs (attrDir p ++ [x]) ≠ some .dir := fun x hdir =>
    (hvalues x [] (by rw [hdir]; exact Option.some_ne_none _)).2 hdir
  have h₁ := remove_cut_file hnd
  have hvalue₁ : ∀ x, lookup (remove fs p) (attrDir p ++ [x]) ≠ some .dir := fun x hdir =>
    hvalue x (h₁.le (by rw [hdir]; exact Option.some_ne_none _) ▸ hdir)
  have h₂ := osfPurgeDir_cut 0 hvalue₁
  have h₁₂ := h₁.trans h₂
  have hdir : lookup (osfPurgeDir 0 (remove fs p) (attrDir p)) (attrDir p) = some .dir := by
    rw [h₁₂.kept, hattr]
    rintro (heq | ⟨x, hx⟩)
    · exact hnd (heq ▸ hattr)
    · simp at hx
  have h₃ := remove_cut_dir (by simp [attrDir]) hdir fun x => h₂.gone _ ⟨x, rfl⟩
  have heq : osfObjectRemove fs p =
      remove (osfPurgeDir 0 (remove fs p) (attrDir p)) (attrDir p) := by
    unfold osfObjectRemove
    rcases hl : lookup fs p with _ | _ | _ | _
    · rfl
    · rfl
    · rfl
    · exact absurd hl hnd
  rw [heq]
  refine (h₁₂.trans h₃).congr fun q hq => ?_
  constructor
  · rintro ((rfl | ⟨x, rfl⟩) | rfl)
    · exact .inl rfl
    · exact .inr (prefix_append _ _)
    · exact .inr prefix_rfl
  · rintro (rfl | ⟨r, rfl⟩)
    · exact .inl (.inl rfl)
    · cases r with
      | nil => exact .inr (append_nil _)
      | cons x r =>
        obtain ⟨rfl, -⟩ := hvalues x r hq
        exact .inl (.inr ⟨x, rfl⟩)

theorem osfIsDirEmpty_iff :
    osfIsDirEmpty fs d = true ↔ ∀ x, lookup fs (d ++ [x]) ≠ none → x = fileAttr := by
  unfold osfIsDirEmpty
  rw [all_eq_true]
  constructor
  · intro h x hx
    obtain ⟨e, he, hkey⟩ := lookup_snoc_ne_none.1 hx
    have hchild := h e he
    rw [hkey] at hchild
    simpa [isChild_iff.2 ⟨x, rfl⟩] using hchild
  · intro h e he
    simp only [Bool.not_eq_true', Bool.and_eq_false_imp, decide_eq_false_iff_not, ne_eq,
      not_not]
    intro hchild
    obtain ⟨x, hx⟩ := isChild_iff.1 hchild
    rw [hx, h x (lookup_snoc_ne_none.2 ⟨e, he, hx⟩)]

/-- A directory that holds nothing but its attributes goes whole. -/
theorem osfObjectRemove_dir (hp : p ≠ []) (hdir : lookup fs p = some .dir)
    (hattr : lookup fs (p ++ [fileAttr]) = some .dir)
    (hvalues : ∀ x, lookup fs (p ++ [fileAttr, x]) ≠ some .dir)
    (hdeep : ∀ x r, lookup fs (p ++ x :: r) ≠ none → x = fileAttr ∧ r.length ≤ 1) :
    Cut (lookup fs) (p <+: ·) (lookup (osfObjectRemove fs p)) := by
  have hempty : ∀ x, lookup fs (p ++ [x]) ≠ none → x = fileAttr := fun x hx => (hdeep x [] hx).1
  have h₀ : osfPurgeDir 0 fs p = fs := osfPurgeDir_dirs fun x hx => by rw [hempty x hx, hattr]
  have hvalues₁ : ∀ x, lookup fs (p ++ [fileAttr] ++ [x]) ≠ some .dir := by
    intro x
    rw [append_assoc]
    exact hvalues x
  have h₁ := osfPurgeDir_cut 1 hvalues₁
  have hattr₁ : lookup (osfPurgeDir 1 fs (p ++ [fileAttr])) (p ++ [fileAttr]) = some .dir := by
    rw [h₁.kept, hattr]
    rintro ⟨x, hx⟩
    simp at hx
  have h₂ := remove_cut_dir (by simp) hattr₁ fun x => h₁.gone _ ⟨x, rfl⟩
  have h₁₂ := h₁.trans h₂
  have hdir₂ : lookup (remove (osfPurgeDir 1 fs (p ++ [fileAttr])) (p ++ [fileAttr])) p =
      some .dir := by
    rw [h₁₂.kept, hdir]
    rintro (⟨x, hx⟩ | hx)
    · simp at hx
    · simp at hx
  have h₃ := remove_cut_dir hp hdir₂ fun x => by
    by_contra hne
    have hfs := h₁₂.le hne
    rw [hempty x (hfs ▸ hne), h₁₂.gone _ (.inr rfl)] at hne
    exact hne rfl
  have heq : osfObjectRemove fs p =
      remove (remove (osfPurgeDir 1 fs (p ++ [fileAttr])) (p ++ [fileAttr])) p := by
    unfold osfObjectRemove
    rw [hdir]
    rw [h₀]
  rw [heq]
  refine (h₁₂.trans h₃).congr fun q hq => ?_
  constructor
  · rintro ((⟨x, rfl⟩ | rfl) | rfl)
    · exact ⟨[fileAttr, x], by simp⟩
    · exact prefix_append _ _
    · exact prefix_rfl
  · rintro ⟨r, rfl⟩
    match r with
    | [] => exact .inr (append_nil p)
    | [x] =>
      obtain ⟨rfl, -⟩ := hdeep x [] hq
      exact .inl (.inr rfl)
    | [x, y] =>
      obtain ⟨rfl, -⟩ := hdeep x [y] hq
      exact .inl (.inl ⟨y, by simp⟩)
    | x :: y :: z :: r =>
      have hlen := (hdeep x _ hq).2
      simp at hlen

end LStore.Os.File
