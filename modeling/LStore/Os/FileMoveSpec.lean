import LStore.Os.FileTree

/-!
# What a move of one entry does

`Ready` collects what the two renames of `moveEntry` rely on. Under it the entry and its
attributes are either both moved or both left alone, and the latter happens only when the system
failed a forward rename.
-/

namespace LStore.Os.File

open PathMap List

variable {β : Type*}

/-- The namespace after an object has been moved with its attributes. -/
def renamed (f : Path → Option (Node β)) (n : Node β) (src dest : Path) : Path → Option (Node β) :=
  if n.isFile then moved (moved f src dest) (attrDir src) (attrDir dest) else moved f src dest

/-- The object at `s ++ [c]` can be moved to `d ++ [b]`. -/
structure Ready (f : Path → Option (Node β)) (n : Node β) (s : Path) (c : String) (d : Path)
    (b : String) : Prop where
  srcObject : IsObject (s ++ [c])
  destObject : IsObject (d ++ [b])
  apart : Apart (s ++ [c]) (d ++ [b])
  node : f (s ++ [c]) = some n
  srcDir : f s = some .dir
  free : Free f (d ++ [b])
  destDir : f d = some .dir
  attr : n.isFile = true → f (attrDir (s ++ [c])) = some .dir ∧ Free f (attrDir (d ++ [b])) ∧
    f (d ++ [fileAttr]) = some .dir

/-- The outcome of a forward or undoing rename: the change is made, or nothing changes and the
system failed the rename. -/
structure Renames (env : Env) (undo : Bool) (st : State β) (g : Path → Option (Node β))
    (r : Bool × State β) : Prop where
  draws : r.2.draws = st.draws
  done : r.1 = true → lookup r.2.fs = g
  same : r.1 = false → lookup r.2.fs = lookup st.fs
  cause : r.1 = false → undo = false ∧ ∃ k, env.fails k = true

theorem tryRename_spec (env : Env) (undo : Bool) {s d} {st : State β} {fs'}
    (h : rename st.fs s d = some fs') :
    Renames env undo st (lookup fs') (tryRename env undo s d st) := by
  unfold tryRename
  cases undo with
  | true =>
    rw [if_neg (by simp), h]
    exact ⟨rfl, fun _ => rfl, nofun, nofun⟩
  | false =>
    by_cases hfail : env.fails st.calls = true
    · rw [if_pos ⟨rfl, hfail⟩]
      exact ⟨rfl, nofun, fun _ => rfl, fun _ => ⟨rfl, _, hfail⟩⟩
    · rw [if_neg (fun hno => hfail hno.2), h]
      exact ⟨rfl, fun _ => rfl, nofun, nofun⟩

/-- A rename that the file system refuses changes nothing. -/
theorem tryRename_refused (env : Env) (undo : Bool) {s d} {st : State β}
    (h : rename st.fs s d = none) :
    (tryRename env undo s d st).1 = false ∧ (tryRename env undo s d st).2.fs = st.fs ∧
      (tryRename env undo s d st).2.draws = st.draws := by
  unfold tryRename
  rw [h]
  cases undo with
  | true => simp
  | false => by_cases hfail : env.fails st.calls = true <;> simp [hfail]

variable {f : Path → Option (Node β)} {n : Node β} {s d dest src : Path} {c b : String} {fs : Fs β}

theorem not_above_snoc {x p : Path} {y} (h : Apart x (p ++ [y])) : ¬ x <+: p :=
  fun hx => h.1 (hx.trans (prefix_append p [y]))

/-- An object is apart from an attribute directory unless it lies above it. -/
theorem object_apart_attrDir {x p : Path} {y} (hx : IsObject x) (h : ¬ x <+: p) :
    Apart x (attrDir (p ++ [y])) := by
  rw [attrDir_snoc]
  exact ⟨fun hpre => h (above_of_above_attr hx hpre), not_attr_above hx⟩

theorem attrDir_apart {p q : Path} {x y} (hp : IsObject p) (hq : IsObject q)
    (hne : p ++ [x] ≠ q ++ [y]) : Apart (attrDir (p ++ [x])) (attrDir (q ++ [y])) := by
  rw [attrDir_snoc, attrDir_snoc]
  refine attr_apart hp hq fun heq => hne ?_
  obtain ⟨rfl, htail⟩ := append_inj' heq rfl
  rw [fileAttr_append_inj (List.cons.inj (List.cons.inj htail).2).1]

theorem not_snoc_above (p : Path) (y : String) : ¬ p ++ [y] <+: p := by
  intro h
  have hlen := h.length_le
  rw [length_append, length_singleton] at hlen
  omega

/-- The four places a move of a file touches are apart. -/
structure FourApart (src dest : Path) : Prop where
  srcDest : Apart src dest
  srcAttr : Apart src (attrDir src)
  srcDestAttr : Apart src (attrDir dest)
  destSrcAttr : Apart dest (attrDir src)
  destAttr : Apart dest (attrDir dest)
  attrs : Apart (attrDir src) (attrDir dest)

theorem fourApart (hs : IsObject (s ++ [c])) (hd : IsObject (d ++ [b]))
    (h : Apart (s ++ [c]) (d ++ [b])) : FourApart (s ++ [c]) (d ++ [b]) where
  srcDest := h
  srcAttr := object_apart_attrDir hs (not_snoc_above s c)
  srcDestAttr := object_apart_attrDir hs (not_above_snoc h)
  destSrcAttr := object_apart_attrDir hd (not_above_snoc h.symm)
  destAttr := object_apart_attrDir hd (not_snoc_above d b)
  attrs := attrDir_apart hs.left hd.left fun heq => h.1 (heq ▸ prefix_rfl)

/-- After the first rename the attribute directory can be moved as well. -/
theorem Ready.rename_attr (h : Ready f n s c d b) (hn : n.isFile = true)
    (hfs : lookup fs = moved f (s ++ [c]) (d ++ [b])) :
    ∃ fs', rename fs (attrDir (s ++ [c])) (attrDir (d ++ [b])) = some fs' ∧
      lookup fs' = renamed f n (s ++ [c]) (d ++ [b]) := by
  obtain ⟨hattr, hfree, hdir⟩ := h.attr hn
  have hfour := fourApart h.srcObject h.destObject h.apart
  rw [renamed, if_pos hn, ← hfs]
  apply rename_free (n := .dir)
  · simp [attrDir_snoc]
  · rw [hfs, moved_other hfour.destSrcAttr.1 hfour.srcAttr.1, hattr]
  · rw [hfs]
    exact hfree.moved hfour.destAttr
  · rw [hfs, attrDir_snoc, show (d ++ [fileAttr, fileAttr ++ b]).dropLast = d ++ [fileAttr] by simp]
    rw [moved_other, hdir]
    · intro hpre
      exact not_snoc_above d b (above_of_above_attr (r := []) h.destObject hpre)
    · intro hpre
      exact not_above_snoc h.apart (above_of_above_attr (r := []) h.srcObject hpre)
  · exact hfour.attrs.1

/-- The first rename of a move goes through. -/
theorem Ready.rename_entry (h : Ready (lookup fs) n s c d b) :
    ∃ fs', rename fs (s ++ [c]) (d ++ [b]) = some fs' ∧
      lookup fs' = moved (lookup fs) (s ++ [c]) (d ++ [b]) :=
  rename_free (by simp) h.node h.free (by simpa using h.destDir) h.apart.1

/-- The rename that undoes the first one goes through. -/
theorem Ready.rename_undo (h : Ready f n s c d b) (hfs : lookup fs = moved f (s ++ [c]) (d ++ [b]))
    : ∃ fs', rename fs (d ++ [b]) (s ++ [c]) = some fs' ∧ lookup fs' = f := by
  have hnode : lookup fs (d ++ [b]) = some n := by rw [hfs, moved_self, h.node]
  have hfree : Free (lookup fs) (s ++ [c]) := by
    rw [hfs]
    exact free_source h.apart.symm
  have hdir : lookup fs (s ++ [c]).dropLast = some .dir := by
    rw [hfs, dropLast_concat, moved_other (not_above_snoc h.apart.symm) (not_snoc_above s c),
      h.srcDir]
  obtain ⟨fs', hren, hlook⟩ := rename_free (by simp) hnode hfree hdir h.apart.2
  exact ⟨fs', hren, by rw [hlook, hfs, moved_back h.free]⟩

section

variable (h : FourApart src dest)
include h

theorem renamed_dest (r : Path) : renamed f n src dest (dest ++ r) = f (src ++ r) := by
  unfold renamed
  split
  · rw [moved_other (h.destAttr.symm.append r) (h.destSrcAttr.symm.append r), moved_under]
  · exact moved_under f src dest r

theorem renamed_attr (hn : n.isFile = true) (r : Path) :
    renamed f n src dest (attrDir dest ++ r) = f (attrDir src ++ r) := by
  rw [renamed, if_pos hn, moved_under,
    moved_other (h.destSrcAttr.append r) (h.srcAttr.append r)]

theorem renamed_src (r : Path) : renamed f n src dest (src ++ r) = none := by
  unfold renamed
  split
  · rw [moved_other (h.srcDestAttr.symm.append r) (h.srcAttr.symm.append r)]
    exact moved_gone (h.srcDest.symm.append r) (prefix_append src r)
  · exact moved_gone (h.srcDest.symm.append r) (prefix_append src r)

theorem renamed_srcAttr (hn : n.isFile = true) (r : Path) :
    renamed f n src dest (attrDir src ++ r) = none := by
  rw [renamed, if_pos hn]
  exact moved_gone (h.attrs.symm.append r) (prefix_append _ r)

end

theorem renamed_other {p : Path} (hd : ¬ dest <+: p) (hs : ¬ src <+: p)
    (hda : n.isFile = true → ¬ attrDir dest <+: p) (hsa : n.isFile = true → ¬ attrDir src <+: p) :
    renamed f n src dest p = f p := by
  unfold renamed
  split
  · next hn => rw [moved_other (hda hn) (hsa hn), moved_other hd hs]
  · exact moved_other hd hs

/-- Moving an object to a free place and back changes nothing. -/
theorem renamed_back (h : FourApart src dest) (hfree : Free f dest)
    (hattr : n.isFile = true → Free f (attrDir dest)) :
    renamed (renamed f n src dest) n dest src = f := by
  unfold renamed
  split_ifs with hn
  · rw [moved_comm h.destAttr h.destSrcAttr h.srcDestAttr h.srcAttr, moved_back, moved_back hfree]
    exact (hattr hn).moved h.destAttr
  · exact moved_back hfree

/-- An entry that is ready is moved with its attributes, or nothing changes and the system failed
a rename. -/
theorem moveEntry_spec (env : Env) (undo : Bool) (st : State β)
    (h : Ready (lookup st.fs) n s c d b) :
    Renames env undo st (renamed (lookup st.fs) n (s ++ [c]) (d ++ [b]))
      (moveEntry env undo (s ++ [c]) (d ++ [b]) st) := by
  obtain ⟨fs₁, hren, hlook⟩ := h.rename_entry
  have hfirst := tryRename_spec env undo hren
  unfold moveEntry
  rcases hr : tryRename env undo (s ++ [c]) (d ++ [b]) st with ⟨ok, st₁⟩
  rw [hr] at hfirst
  cases ok with
  | false => exact ⟨hfirst.draws, nofun, hfirst.same, hfirst.cause⟩
  | true =>
    rw [h.node]
    have hmoved : lookup st₁.fs = moved (lookup st.fs) (s ++ [c]) (d ++ [b]) :=
      (hfirst.done rfl).trans hlook
    by_cases hn : n.isFile = true
    · dsimp only
      rw [if_pos hn]
      obtain ⟨fs₂, hren₂, hlook₂⟩ := h.rename_attr hn hmoved
      have hsecond := tryRename_spec env undo hren₂
      rcases hr₂ : tryRename env undo (attrDir (s ++ [c])) (attrDir (d ++ [b])) st₁ with ⟨ok, st₂⟩
      rw [hr₂] at hsecond
      cases ok with
      | true =>
        exact ⟨hsecond.draws.trans hfirst.draws, fun _ => (hsecond.done rfl).trans hlook₂,
          nofun, nofun⟩
      | false =>
        obtain ⟨fs₃, hren₃, hlook₃⟩ := h.rename_undo ((hsecond.same rfl).trans hmoved)
        have hundo := tryRename_spec env true hren₃
        have hok : (tryRename env true (d ++ [b]) (s ++ [c]) st₂).1 = true := by
          by_contra hno
          exact Bool.noConfusion (hundo.cause (Bool.not_eq_true _ ▸ hno)).1
        exact ⟨hundo.draws.trans (hsecond.draws.trans hfirst.draws), nofun,
          fun _ => (hundo.done hok).trans hlook₃, fun _ => hsecond.cause rfl⟩
    · dsimp only
      rw [if_neg hn]
      exact ⟨hfirst.draws, fun _ => by rw [renamed, if_neg hn]; exact hmoved, nofun, nofun⟩

/-- A source that is not there cannot be moved. -/
theorem moveEntry_missing (env : Env) (undo : Bool) (st : State β)
    (h : rename st.fs src dest = none) :
    (moveEntry env undo src dest st).1 = false ∧
      (moveEntry env undo src dest st).2.fs = st.fs ∧
      (moveEntry env undo src dest st).2.draws = st.draws := by
  obtain ⟨hfalse, hfs, hdraws⟩ := tryRename_refused env undo h
  unfold moveEntry
  rcases hr : tryRename env undo src dest st with ⟨ok, st₁⟩
  rw [hr] at hfalse hfs hdraws
  obtain rfl : ok = false := hfalse
  exact ⟨rfl, hfs, hdraws⟩

end LStore.Os.File
