import LStore.Os.MoveAside

/-!
# Moving an object is all or nothing, except over some destinations

A move to a free path, or one that fails, keeps its promise. A move over an existing destination
puts the old destination aside and removes it at the end. That last step waits for ever when the
lock slot of the made-up name is one of the two the call holds, and it leaves a directory that is
not empty where it is. An object that has the made-up name already is put aside and removed too.
-/

namespace LStore.Os.File

open PathMap List Option

variable {β : Type*} {env : Env}

/-- A call returns, and what it reports is what it did. -/
def AllOrNothing (env : Env) (src dest : Path) (fs : Fs β) : Prop :=
  ∃ fuel ok st, osfMoveObject env (heldSlots env src dest) fuel false src dest ⟨fs, 0, 0⟩ =
      some (ok, st) ∧
    (ok = true → lookup st.fs = movedNamespace (lookup fs) src dest) ∧
    (ok = false → lookup st.fs = lookup fs)

/-- A call on a well-formed namespace: the source exists, and the destination is not at or
inside it. -/
structure MoveCall (fs : Fs β) (src dest : Path) : Prop where
  wellFormed : WellFormed (lookup fs)
  srcObject : IsObject src
  destObject : IsObject dest
  srcExists : lookup fs src ≠ none
  notInside : ¬ src <+: dest

/-- Where a move keeps its promise whatever renames fail: the destination is absent, or the
made-up name is free and the destination lies above the source, or it is a file, a symlink or an
empty directory and the made-up name has a lock slot of its own. -/
def Harmless (slot : Path → Nat) (fs : Fs β) (src dest aside : Path) : Prop :=
  lookup fs dest = none ∨ (lookup fs aside = none ∧ (dest <+: src ∨
    (slot aside ∉ [slot src, slot dest] ∧
      (lookup fs dest = some .dir → osfIsDirEmpty fs dest = true))))

theorem eq_snoc {p : Path} (h : p ≠ []) : ∃ q x, p = q ++ [x] :=
  ⟨p.dropLast, p.getLast h, (dropLast_append_getLast h).symm⟩

variable {f : Path → Option (Node β)} {m n : Node β} {d s : Path} {b b' c : String} {st : State β}

theorem osfMoveObject_free (env : Env) (held : List Nat) (k : Nat) (undo : Bool) (src : Path)
    {dest} (st : State β) (h : lookup st.fs dest = none) :
    osfMoveObject env held (k + 1) undo src dest st = some (moveEntry env undo src dest st) := by
  rw [osfMoveObject, h]

/-- The call that moves the old destination back succeeds. -/
theorem Aside.move_back (h : Aside f m d b b') (env : Env) (held : List Nat) (k : Nat)
    (hst : lookup st.fs = renamed f m (d ++ [b]) (d ++ [b'])) :
    ∃ r, osfMoveObject env held (k + 1) true (d ++ [b']) (d ++ [b]) st = some r ∧
      lookup r.2.fs = f := by
  have hnone : lookup st.fs (d ++ [b]) = none := by
    have hfree := h.free_dest []
    rwa [append_nil, ← hst] at hfree
  have hready : Ready (lookup st.fs) m d b' d b := hst ▸ h.ready_back
  have hspec := moveEntry_spec env true st hready
  refine ⟨_, osfMoveObject_free env held k true _ st hnone, ?_⟩
  have hok : (moveEntry env true (d ++ [b']) (d ++ [b]) st).1 = true := by
    by_contra hno
    exact Bool.noConfusion (hspec.cause (Bool.not_eq_true _ ▸ hno)).1
  rw [hspec.done hok, hst, h.back]

/-- What follows once the old destination is aside. -/
def afterAside (env : Env) (held : List Nat) (k : Nat) (src dest aside : Path) (st : State β) :
    Option (Bool × State β) :=
  match moveEntry env false src dest st with
  | (true, st) => (osfileRemoveObject env held aside st).map fun st => (true, st)
  | (false, st) => (osfMoveObject env held k true aside dest st).map fun r => (false, r.2)

/-- A move over an existing destination first puts it aside, or gives up with nothing changed. -/
theorem Aside.move_present (env : Env) (held : List Nat) (k : Nat) (src : Path) (st : State β)
    (h : Aside (lookup st.fs) m d b b')
    (hname : asideName (d ++ [b]) (env.rand st.draws) = d ++ [b']) :
    (∃ st₁, osfMoveObject env held (k + 2) false src (d ++ [b]) st = some (false, st₁) ∧
      lookup st₁.fs = lookup st.fs ∧ ∃ j, env.fails j = true) ∨
    ∃ st₁, lookup st₁.fs = renamed (lookup st.fs) m (d ++ [b]) (d ++ [b']) ∧
      osfMoveObject env held (k + 2) false src (d ++ [b]) st =
        afterAside env held (k + 1) src (d ++ [b]) (d ++ [b']) st₁ := by
  have hspec := moveEntry_spec env false { st with draws := st.draws + 1 } h.ready
  rw [osfMoveObject, h.node]
  dsimp only
  rw [hname, osfMoveObject_free env held k false _ { st with draws := st.draws + 1 } h.free]
  rcases hr : moveEntry env false (d ++ [b]) (d ++ [b']) { st with draws := st.draws + 1 } with
    ⟨ok, st₁⟩
  rw [hr] at hspec
  cases ok with
  | false => exact .inl ⟨st₁, rfl, hspec.same rfl, (hspec.cause rfl).2⟩
  | true => exact .inr ⟨st₁, hspec.done rfl, rfl⟩

/-- When the entry is not moved in, the old destination goes back and nothing has changed. -/
theorem Aside.after_failed (h : Aside f m d b b') (env : Env) (held : List Nat) (k : Nat)
    {src st₂} (hmove : moveEntry env false src (d ++ [b]) st = (false, st₂))
    (hst : lookup st₂.fs = renamed f m (d ++ [b]) (d ++ [b'])) :
    ∃ st₃, afterAside env held (k + 1) src (d ++ [b]) (d ++ [b']) st = some (false, st₃) ∧
      lookup st₃.fs = f := by
  obtain ⟨r, hback, hlook⟩ := h.move_back env held k hst
  refine ⟨r.2, ?_, hlook⟩
  rw [afterAside, hmove]
  dsimp only
  rw [hback]
  rfl

/-- When the entry is moved in, what is left is the removal of the old destination. -/
theorem afterAside_moved {held k src dest aside st₂}
    (hmove : moveEntry env false src dest st = (true, st₂)) :
    afterAside env held k src dest aside st =
      (osfileRemoveObject env held aside st₂).map fun st => (true, st) := by
  rw [afterAside, hmove]

/-- The removal of the old destination, when its lock is free and it is not a directory with
something in it. -/
theorem Aside.remove_done (h : Aside f m d b b') (hsrc : Aside.Source f n s c d b b') {held}
    (hslot : env.slot (d ++ [b']) ∉ held)
    (hst : lookup st.fs = renamed (renamed f m (d ++ [b]) (d ++ [b'])) n (s ++ [c]) (d ++ [b]))
    (hempty : m = .dir → ∀ x, f (d ++ [b] ++ [x]) ≠ none → x = fileAttr) :
    ∃ st₃, osfileRemoveObject env held (d ++ [b']) st = some st₃ ∧
      lookup st₃.fs = movedNamespace f (s ++ [c]) (d ++ [b]) := by
  have hcut := h.removed hsrc hst hempty
  rw [hst] at hcut
  refine ⟨{ st with fs := osfObjectRemove st.fs (d ++ [b']) }, ?_, h.moved_cut hsrc hcut⟩
  have hbelow : ∀ r, lookup st.fs (d ++ [b'] ++ r) = f (d ++ [b] ++ r) := by
    intro r
    rw [hst, h.at_aside hsrc]
  have hat : lookup st.fs (d ++ [b']) = some m := by
    have hnil := hbelow []
    rwa [append_nil, append_nil, h.node] at hnil
  unfold osfileRemoveObject
  rw [if_neg hslot, hat]
  cases m with
  | file content => rfl
  | symlink target => rfl
  | dir =>
    rw [if_pos]
    rw [osfIsDirEmpty_iff]
    intro x hx
    rw [hbelow] at hx
    exact hempty rfl x hx

variable {fs : Fs β} {src dest : Path}

theorem MoveCall.src_ne (h : MoveCall fs src dest) : src ≠ [] := by
  rintro rfl
  exact h.notInside nil_prefix

/-- A move to a free path keeps its promise. -/
theorem MoveCall.to_free (h : MoveCall fs src dest) (hnone : lookup fs dest = none) :
    AllOrNothing env src dest fs := by
  obtain ⟨s, c, rfl⟩ := eq_snoc h.src_ne
  have hdest : dest ≠ [] := by
    rintro rfl
    exact some_ne_none _ ((lookup_root fs).symm.trans hnone)
  obtain ⟨d, b, rfl⟩ := eq_snoc hdest
  obtain ⟨n, hn⟩ := ne_none_iff_exists'.1 h.srcExists
  have hmove := osfMoveObject_free env (heldSlots env (s ++ [c]) (d ++ [b])) 0 false (s ++ [c])
    ⟨fs, 0, 0⟩ hnone
  rcases hr : moveEntry env false (s ++ [c]) (d ++ [b]) ⟨fs, 0, 0⟩ with ⟨ok, st⟩
  refine ⟨1, ok, st, hmove.trans (congrArg some hr), ?_⟩
  have hapart : Apart (s ++ [c]) (d ++ [b]) :=
    ⟨h.notInside, fun hpre => h.wellFormed.exists_above h.srcExists hpre hnone⟩
  by_cases hdir : lookup fs d = some .dir
  · have hspec := moveEntry_spec env false ⟨fs, 0, 0⟩
      (h.wellFormed.ready h.srcObject h.destObject hapart hn hnone hdir)
    rw [hr] at hspec
    have hfour := fourApart h.srcObject h.destObject hapart
    exact ⟨fun hok => (hspec.done hok).trans (movedNamespace_free hfour hn hnone), hspec.same⟩
  · -- the directory of the destination does not exist, so the rename is refused
    have hrefused : rename fs (s ++ [c]) (d ++ [b]) = none := by
      unfold rename
      rw [if_neg (by simp), hn, dropLast_concat]
      split
      · next heq => exact absurd heq hdir
      · rfl
    obtain ⟨hfalse, hfs, -⟩ := moveEntry_missing env false ⟨fs, 0, 0⟩ hrefused
    rw [hr] at hfalse hfs
    exact ⟨fun hok => Bool.noConfusion (hok.symm.trans hfalse), fun _ => congrArg lookup hfs⟩

/-- The old destination and the name made up for it. -/
theorem MoveCall.aside {d b ui m} (h : MoveCall fs src (d ++ [b]))
    (hm : lookup fs (d ++ [b]) = some m) (hfree : lookup fs (asideName (d ++ [b]) ui) = none) :
    Aside (lookup fs) m d b (b ++ "_dmv_" ++ toString ui) where
  wellFormed := h.wellFormed
  destObject := h.destObject
  asideObject := asideName_snoc d b ui ▸ isObject_aside h.destObject ui
  node := hm
  free := asideName_snoc d b ui ▸ hfree

/-- Moving the root aside is refused by the file system. -/
theorem allOrNothing_root (env : Env) (src : Path)
    (hfree : lookup fs (asideName [] (env.rand 0)) = none) : AllOrNothing env src [] fs := by
  have hrefused := moveEntry_missing env false (⟨fs, 0, 1⟩ : State β)
    (rename_root (asideName [] (env.rand 0)))
  have haside := osfMoveObject_free env (heldSlots env src []) 0 false [] ⟨fs, 0, 1⟩ hfree
  rcases hr : moveEntry env false [] (asideName [] (env.rand 0)) (⟨fs, 0, 1⟩ : State β) with
    ⟨ok, st⟩
  rw [hr] at hrefused haside
  obtain ⟨rfl, hfs, -⟩ := hrefused
  refine ⟨2, false, st, ?_, nofun, fun _ => congrArg lookup hfs⟩
  rw [osfMoveObject, lookup_root]
  dsimp only
  rw [haside]

/-- A move over a destination that lies above the source takes the source out of the way with
it, fails, and puts everything back. -/
theorem Aside.above_source (env : Env) {m d b b'} (h : Aside (lookup fs) m d b b')
    (hname : asideName (d ++ [b]) (env.rand 0) = d ++ [b']) (habove : d ++ [b] <+: src) :
    AllOrNothing env src (d ++ [b]) fs := by
  rcases Aside.move_present env (heldSlots env src (d ++ [b])) 0 src ⟨fs, 0, 0⟩ h hname with
    ⟨st₁, hmove, hsame, -⟩ | ⟨st₁, hst, hmove⟩
  · exact ⟨2, false, st₁, hmove, nofun, fun _ => hsame⟩
  · have hgone : lookup st₁.fs src = none := by
      obtain ⟨r, rfl⟩ := habove
      rw [hst, renamed_src h.four]
    obtain ⟨hfalse, hfs, -⟩ := moveEntry_missing env false st₁ (rename_missing hgone)
    rcases hr : moveEntry env false src (d ++ [b]) st₁ with ⟨ok, st₂⟩
    rw [hr] at hfalse hfs
    obtain rfl : ok = false := hfalse
    obtain ⟨st₃, hafter, hlook⟩ := h.after_failed env (heldSlots env src (d ++ [b])) 0 hr
      ((congrArg lookup hfs).trans hst)
    exact ⟨2, false, st₃, hmove.trans hafter, nofun, fun _ => hlook⟩

/-- A move over a file, a symlink or an empty directory keeps its promise when the lock of the
made-up name is free. -/
theorem Aside.over_dest (env : Env) {m n d s b b' c} (h : Aside (lookup fs) m d b b')
    (hname : asideName (d ++ [b]) (env.rand 0) = d ++ [b'])
    (hsrc : Aside.Source (lookup fs) n s c d b b')
    (hslot : env.slot (d ++ [b']) ∉ heldSlots env (s ++ [c]) (d ++ [b]))
    (hempty : m = .dir → ∀ x, lookup fs (d ++ [b] ++ [x]) ≠ none → x = fileAttr) :
    AllOrNothing env (s ++ [c]) (d ++ [b]) fs := by
  rcases Aside.move_present env (heldSlots env (s ++ [c]) (d ++ [b])) 0 (s ++ [c])
    ⟨fs, 0, 0⟩ h hname with ⟨st₁, hmove, hsame, -⟩ | ⟨st₁, hst, hmove⟩
  · exact ⟨2, false, st₁, hmove, nofun, fun _ => hsame⟩
  · have hspec := moveEntry_spec env false st₁ (hst ▸ h.ready_source hsrc)
    rcases hr : moveEntry env false (s ++ [c]) (d ++ [b]) st₁ with ⟨ok, st₂⟩
    rw [hr] at hspec
    cases ok with
    | false =>
      obtain ⟨st₃, hafter, hlook⟩ := h.after_failed env (heldSlots env (s ++ [c]) (d ++ [b])) 0 hr
        ((hspec.same rfl).trans hst)
      exact ⟨2, false, st₃, hmove.trans hafter, nofun, fun _ => hlook⟩
    | true =>
      obtain ⟨st₃, hremove, hlook⟩ := h.remove_done hsrc hslot
        ((hspec.done rfl).trans (by rw [hst])) hempty
      refine ⟨2, true, st₃, ?_, fun _ => hlook, nofun⟩
      rw [hmove, afterAside_moved hr, hremove]
      rfl

theorem Aside.movedNamespace_aside {f : Path → Option (Node β)} {m} {d : Path} {b b'}
    (h : Aside f m d b b') (src : Path) : movedNamespace f src (d ++ [b]) (d ++ [b']) = none := by
  unfold movedNamespace
  rw [if_neg (apart_siblings h.ne).1, if_neg (fun hattr => h.four.destSrcAttr.2 hattr.2)]
  split
  · rfl
  · exact h.free

/-- When no rename fails, a move over an existing destination gets to its last step, and fails its
promise if the lock is taken or the old destination is a directory with something in it. -/
theorem Aside.broken (env : Env) {m n : Node β} {d s} {b b' c : String}
    (h : Aside (lookup fs) m d b b') (hname : asideName (d ++ [b]) (env.rand 0) = d ++ [b'])
    (hsrc : Aside.Source (lookup fs) n s c d b b') (hfails : ∀ j, env.fails j = false)
    (hbad : env.slot (d ++ [b']) ∈ heldSlots env (s ++ [c]) (d ++ [b]) ∨ (m = .dir ∧ ∃ x,
      lookup fs (d ++ [b] ++ [x]) ≠ none ∧ x ≠ fileAttr)) :
    ¬ AllOrNothing env (s ++ [c]) (d ++ [b]) fs := by
  have hnofail : ¬ ∃ j, env.fails j = true := by
    rintro ⟨j, hj⟩
    exact Bool.noConfusion ((hfails j).symm.trans hj)
  rintro ⟨fuel, ok, st, hret, hdone, -⟩
  match fuel with
  | 0 => exact absurd hret (some_ne_none _).symm
  | 1 =>
    rw [osfMoveObject, h.node] at hret
    exact absurd hret (some_ne_none _).symm
  | k + 2 =>
    rcases Aside.move_present env (heldSlots env (s ++ [c]) (d ++ [b])) k (s ++ [c])
      ⟨fs, 0, 0⟩ h hname with ⟨st₁, -, -, hfail⟩ | ⟨st₁, hst, hmove⟩
    · exact hnofail hfail
    have hspec := moveEntry_spec env false st₁ (hst ▸ h.ready_source hsrc)
    rcases hr : moveEntry env false (s ++ [c]) (d ++ [b]) st₁ with ⟨done, st₂⟩
    rw [hr] at hspec
    cases done with
    | false => exact hnofail (hspec.cause rfl).2
    | true =>
      have hst₂ := (hspec.done rfl).trans (by rw [hst])
      have hbelow : ∀ r, lookup st₂.fs (d ++ [b'] ++ r) = lookup fs (d ++ [b] ++ r) := by
        intro r
        rw [hst₂, h.at_aside hsrc]
      rw [hmove, afterAside_moved hr, osfileRemoveObject] at hret
      by_cases hslot : env.slot (d ++ [b']) ∈ heldSlots env (s ++ [c]) (d ++ [b])
      · rw [if_pos hslot] at hret
        exact absurd hret (some_ne_none _).symm
      obtain ⟨rfl, x, hx, hne⟩ := hbad.resolve_left hslot
      have hat : lookup st₂.fs (d ++ [b']) = some .dir := by
        have hnil := hbelow []
        rwa [append_nil, append_nil, h.node] at hnil
      have hfull : ¬ osfIsDirEmpty st₂.fs (d ++ [b']) = true := by
        rw [osfIsDirEmpty_iff]
        intro hall
        exact hne (hall x (by rwa [hbelow]))
      rw [if_neg hslot, hat] at hret
      rw [if_neg hfull] at hret
      cases hret
      have hmoved := congrFun (hdone rfl) (d ++ [b'])
      rw [hat, h.movedNamespace_aside] at hmoved
      exact some_ne_none _ hmoved

/-- The directories and attribute directories of a namespace of empty directories. -/
def dirPaths (names : List String) : List Path :=
  [fileAttr] :: names.flatMap fun x => [[x], [x, fileAttr]]

/-- Empty directories of the given names next to each other. -/
def emptyDirs (names : List String) : Fs Unit := (dirPaths names).map fun p => (p, .dir)

theorem lookup_emptyDirs {names p n} :
    lookup (emptyDirs names) p = some n ↔ n = .dir ∧ (p = [] ∨ p ∈ dirPaths names) := by
  by_cases hp : p = []
  · rw [hp, lookup_root, some.injEq, eq_comm, and_iff_left (.inl rfl)]
  rw [lookup_of_ne hp, or_iff_right hp]
  have hnode : ∀ {n}, find (emptyDirs names) p = some n → n = .dir := by
    intro n hn
    obtain ⟨e, he, rfl⟩ := map_eq_some_iff.1 hn
    obtain ⟨q, -, rfl⟩ := mem_map.1 (mem_of_find?_eq_some he)
    rfl
  have hmem : find (emptyDirs names) p ≠ none ↔ p ∈ dirPaths names := by
    rw [find_ne_none_iff]
    simp [emptyDirs]
  rw [← hmem]
  constructor
  · intro hn
    exact ⟨hnode hn, by rw [hn]; exact some_ne_none _⟩
  · rintro ⟨rfl, hsome⟩
    obtain ⟨n, hn⟩ := ne_none_iff_exists'.1 hsome
    rw [hn, hnode hn]

theorem mem_dirPaths {names p} : p ∈ dirPaths names ↔
    p = [fileAttr] ∨ ∃ x ∈ names, p = [x] ∨ p = [x, fileAttr] := by
  simp [dirPaths]

theorem dropLast_dirPaths {names p} (h : p ∈ dirPaths names) :
    p.dropLast = [] ∨ p.dropLast ∈ dirPaths names := by
  rcases mem_dirPaths.1 h with rfl | ⟨x, hx, rfl | rfl⟩
  · exact .inl rfl
  · exact .inl rfl
  · exact .inr (mem_dirPaths.2 (.inr ⟨x, hx, .inl rfl⟩))

/-- The attribute directories are empty. -/
theorem emptyDirs_noAttr {names p r x} (h : fileAttr ∉ names) :
    lookup (emptyDirs names) (p ++ fileAttr :: x :: r) = none := by
  by_contra hne
  obtain ⟨n, hn⟩ := ne_none_iff_exists'.1 hne
  have hmem := (lookup_emptyDirs.1 hn).2.resolve_left (by simp)
  have hdrop : fileAttr ∈ (p ++ fileAttr :: x :: r).dropLast := by
    rw [dropLast_append_of_ne_nil (by simp), dropLast_cons_of_ne_nil (by simp)]
    exact mem_append_right _ mem_cons_self
  rcases mem_dirPaths.1 hmem with heq | ⟨y, hy, heq | heq⟩ <;> rw [heq] at hdrop
  · exact not_mem_nil hdrop
  · exact not_mem_nil hdrop
  · exact h (mem_singleton.1 hdrop ▸ hy)

theorem emptyDirs_wellFormed {names} (h : fileAttr ∉ names) :
    WellFormed (lookup (emptyDirs names)) where
  root := rfl
  parent {p x} hne := by
    obtain ⟨n, hn⟩ := ne_none_iff_exists'.1 hne
    have hdrop := dropLast_dirPaths ((lookup_emptyDirs.1 hn).2.resolve_left (by simp))
    rw [dropLast_concat] at hdrop
    exact lookup_emptyDirs.2 ⟨rfl, hdrop⟩
  dirAttr {p} hp hdir := by
    refine lookup_emptyDirs.2 ⟨rfl, .inr (mem_dirPaths.2 ?_)⟩
    rcases (lookup_emptyDirs.1 hdir).2 with rfl | hmem
    · exact .inl rfl
    rcases mem_dirPaths.1 hmem with rfl | ⟨x, hx, rfl | rfl⟩
    · exact absurd mem_cons_self hp
    · exact .inr ⟨x, hx, .inr rfl⟩
    · exact absurd (by simp) hp
  fileAttrDir _ hn hfile := by
    obtain ⟨rfl, -⟩ := lookup_emptyDirs.1 hn
    exact Bool.noConfusion hfile
  attrDirName _ hdir := absurd (hdir.symm.trans (emptyDirs_noAttr h)) (some_ne_none _)
  attrOwner _ hne := absurd (emptyDirs_noAttr h) hne
  attrValue _ hdir := absurd (hdir.symm.trans (emptyDirs_noAttr h)) (some_ne_none _)

end LStore.Os.File
