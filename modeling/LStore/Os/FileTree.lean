import LStore.Os.FileMove

/-!
# Well-formed namespaces

Every file and symlink of the namespace has its attribute directory, every directory its own, and
there is nothing else in the attribute directories than attribute values and the directories of
the files. The proofs look at a file system through `lookup` only.
-/

namespace LStore.Os.File

open PathMap List Option

variable {β : Type*} {fs : Fs β} {p r q : Path}

/-- An object path: no name on it is the attribute directory's. -/
def IsObject (p : Path) : Prop := fileAttr ∉ p

instance (p : Path) : Decidable (IsObject p) := inferInstanceAs (Decidable (fileAttr ∉ p))

/-- A namespace in which each object has its attribute directory. -/
structure WellFormed (f : Path → Option (Node β)) : Prop where
  root : f [] = some .dir
  parent : ∀ {p x}, f (p ++ [x]) ≠ none → f p = some .dir
  dirAttr : ∀ {p}, IsObject p → f p = some .dir → f (p ++ [fileAttr]) = some .dir
  fileAttrDir : ∀ {p b n}, IsObject (p ++ [b]) → f (p ++ [b]) = some n → n.isFile = true →
    f (p ++ [fileAttr, fileAttr ++ b]) = some .dir
  attrDirName : ∀ {p x}, IsObject p → f (p ++ [fileAttr, x]) = some .dir →
    ∃ b, x = fileAttr ++ b
  attrOwner : ∀ {p b}, IsObject p → f (p ++ [fileAttr, fileAttr ++ b]) ≠ none →
    ∃ n, f (p ++ [b]) = some n ∧ n.isFile = true
  attrValue : ∀ {p x a}, IsObject p → f (p ++ [fileAttr, x, a]) ≠ some .dir

theorem fileAttr_append_inj {a b} (h : fileAttr ++ a = fileAttr ++ b) : a = b := by
  have hlist := congrArg String.toList h
  rw [String.toList_append, String.toList_append, append_cancel_left_eq] at hlist
  exact String.toList_inj.1 hlist

theorem aside_ne_fileAttr (b : String) (ui : Nat) : b ++ "_dmv_" ++ toString ui ≠ fileAttr := by
  intro h
  have hd : 'd' ∈ (b ++ "_dmv_" ++ toString ui).toList := by
    rw [String.toList_append, String.toList_append]
    exact mem_append_left _ (mem_append_right _ (by decide))
  rw [h] at hd
  revert hd
  decide

theorem attrDir_snoc (p : Path) (b : String) :
    attrDir (p ++ [b]) = p ++ [fileAttr, fileAttr ++ b] := by
  simp [attrDir]

theorem asideName_snoc (p : Path) (b : String) (ui : Nat) :
    asideName (p ++ [b]) ui = p ++ [b ++ "_dmv_" ++ toString ui] := by
  simp [asideName]

theorem IsObject.left (h : IsObject (p ++ r)) : IsObject p :=
  fun hp => h (mem_append_left _ hp)

theorem IsObject.above (hq : IsObject q) (h : p <+: q) : IsObject p := by
  obtain ⟨r, rfl⟩ := h
  exact hq.left

theorem isObject_aside {b} (h : IsObject (p ++ [b])) (ui : Nat) :
    IsObject (asideName (p ++ [b]) ui) := by
  rw [asideName_snoc]
  intro hmem
  rcases mem_append.1 hmem with hp | hlast
  · exact h.left hp
  · exact aside_ne_fileAttr b ui (mem_singleton.1 hlast).symm

/-- An object path lies above an attribute directory only when it lies above the directory that
holds it. -/
theorem above_of_above_attr {x} (hx : IsObject x) (h : x <+: p ++ fileAttr :: r) : x <+: p := by
  rcases prefix_or_prefix_of_prefix h (prefix_append p _) with hxp | ⟨t, rfl⟩
  · exact hxp
  · rw [prefix_append_right_inj] at h
    cases t with
    | nil => rw [append_nil]
    | cons y t =>
      obtain rfl := (cons_prefix_cons.1 h).1
      exact absurd (mem_append_right _ mem_cons_self) hx

theorem not_attr_above {x} (hx : IsObject x) : ¬ p ++ fileAttr :: r <+: x := by
  intro h
  exact hx.above h (mem_append_right _ mem_cons_self)

theorem attr_apart {x y} (hp : IsObject p) (hq : IsObject q)
    (hne : p ++ [fileAttr, x] ≠ q ++ [fileAttr, y]) :
    Apart (p ++ [fileAttr, x]) (q ++ [fileAttr, y]) := by
  have key : ∀ {p q : Path} {x y : String}, IsObject p → IsObject q →
      p ++ [fileAttr, x] <+: q ++ [fileAttr, y] → p ++ [fileAttr, x] = q ++ [fileAttr, y] := by
    intro p q x y hp hq h
    have hpq : p <+: q := above_of_above_attr hp ((prefix_append p _).trans h)
    obtain ⟨t, rfl⟩ := hpq
    rw [append_assoc, prefix_append_right_inj] at h
    cases t with
    | nil =>
      have hx := (cons_prefix_cons.1 h).2
      have hx := (cons_prefix_cons.1 hx).1
      rw [append_nil, hx]
    | cons z t =>
      obtain rfl := (cons_prefix_cons.1 h).1
      exact absurd (mem_append_right _ mem_cons_self) hq
  exact ⟨fun h => hne (key hp hq h), fun h => hne (key hq hp h).symm⟩

section

variable {f : Path → Option (Node β)} (hf : WellFormed f)
include hf

/-- What lies on the way to an entry exists, and is a directory. -/
theorem WellFormed.dir_above {x} (h : f (p ++ x :: r) ≠ none) : f p = some .dir := by
  induction r using List.reverseRecOn with
  | nil => exact hf.parent h
  | append_singleton r y ih =>
    apply ih
    rw [← cons_append, ← append_assoc] at h
    rw [hf.parent h]
    exact some_ne_none _

theorem WellFormed.free (h : f p = none) : Free f p := by
  intro r
  cases r with
  | nil => rwa [append_nil]
  | cons x r =>
    by_contra hne
    exact some_ne_none _ ((hf.dir_above hne).symm.trans h)

/-- A file or symlink has nothing below it. -/
theorem WellFormed.leaf {x n} (h : f p = some n) (hn : n.isFile = true) :
    f (p ++ x :: r) = none := by
  by_contra hne
  rw [hf.dir_above hne] at h
  cases h
  exact Bool.noConfusion hn

theorem WellFormed.exists_above (hp : f p ≠ none) (h : q <+: p) : f q ≠ none := by
  obtain ⟨r, rfl⟩ := h
  cases r with
  | nil => rwa [append_nil] at hp
  | cons x r =>
    rw [hf.dir_above hp]
    exact some_ne_none _

/-- The attribute directory of a name is there only for a file or symlink. -/
theorem WellFormed.free_attrDir {b} (hp : IsObject p)
    (h : ∀ n, f (p ++ [b]) = some n → n.isFile = false) : Free f (attrDir (p ++ [b])) := by
  apply hf.free
  rw [attrDir_snoc]
  by_contra hne
  obtain ⟨n, hn, hfile⟩ := hf.attrOwner hp hne
  exact Bool.noConfusion (hfile.symm.trans (h n hn))

/-- Below the attribute directory of a file there are values only. -/
theorem WellFormed.attr_values {b x} (hp : IsObject p)
    (h : f (attrDir (p ++ [b]) ++ x :: r) ≠ none) :
    r = [] ∧ f (attrDir (p ++ [b]) ++ [x]) ≠ some .dir := by
  rw [attrDir_snoc] at h ⊢
  have hvalue : f ((p ++ [fileAttr, fileAttr ++ b]) ++ [x]) ≠ some .dir := by
    rw [append_assoc]
    exact hf.attrValue hp
  refine ⟨?_, hvalue⟩
  cases r with
  | nil => rfl
  | cons y r =>
    rw [show (p ++ [fileAttr, fileAttr ++ b]) ++ x :: y :: r =
      (p ++ [fileAttr, fileAttr ++ b] ++ [x]) ++ y :: r by simp] at h
    exact absurd (hf.dir_above h) hvalue

end

theorem lookup_root (fs : Fs β) : lookup fs [] = some .dir := if_pos rfl

theorem lookup_of_ne (h : p ≠ []) : lookup fs p = find fs p := if_neg h

theorem lookup_move {s d} (hs : s ≠ []) (hd : d ≠ []) (h : Free (lookup fs) d) :
    lookup (move s d fs) = moved (lookup fs) s d := by
  have hfree : Free (find fs) d := by
    intro r
    rw [← lookup_of_ne (by simp [hd])]
    exact h r
  funext p
  by_cases hp : p = []
  · subst hp
    rw [moved_other (by simpa using hd) (by simpa using hs), lookup_root, lookup_root]
  · rw [lookup_of_ne hp, find_move hfree]
    unfold moved
    split
    · rw [lookup_of_ne (by simp [hs])]
    · rw [lookup_of_ne hp]

/-- A rename to a free path whose directory exists goes through. -/
theorem rename_free {s d n} (hs : s ≠ []) (hn : lookup fs s = some n) (hd : Free (lookup fs) d)
    (hdir : lookup fs d.dropLast = some .dir) (hsd : ¬ s <+: d) :
    ∃ fs', rename fs s d = some fs' ∧ lookup fs' = moved (lookup fs) s d := by
  have hd0 : d ≠ [] := by
    rintro rfl
    exact some_ne_none _ ((lookup_root fs).symm.trans (hd []))
  have hnone : lookup fs d = none := by
    have := hd []
    rwa [append_nil] at this
  refine ⟨move s d fs, ?_, lookup_move hs hd0 hd⟩
  unfold rename
  rw [if_neg (by simp [hs, hd0]), hn, hdir]
  dsimp only
  rw [if_neg (by rintro rfl; exact hsd prefix_rfl), if_neg hsd, hnone]

theorem rename_missing {s d} (h : lookup fs s = none) : rename fs s d = none := by
  unfold rename
  split
  · rfl
  · rw [h]

theorem rename_root (d : Path) : rename fs [] d = none := by
  unfold rename
  rw [if_pos (.inl rfl)]

end LStore.Os.File
