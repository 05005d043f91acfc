import LStore.Os.FileMoveSpec
import LStore.Os.FileRemove

/-!
# An old destination put aside

The namespace while an old destination waits under its made-up name: the source can be moved in,
the old destination can be moved back, and cutting it out leaves the moved namespace.
-/

namespace LStore.Os.File

open PathMap List Option

variable {β : Type*}

/-- Whether a file or symlink stands at a path. -/
def isFileAt (f : Path → Option (Node β)) (p : Path) : Bool := (f p).any Node.isFile

/-- The old namespace with the source and its attributes renamed to the destination; a previous
destination is gone together with its attributes. -/
def movedNamespace (f : Path → Option (Node β)) (src dest p : Path) : Option (Node β) :=
  if dest <+: p then f (src ++ p.drop dest.length)
  else if isFileAt f src ∧ attrDir dest <+: p then
    f (attrDir src ++ p.drop (attrDir dest).length)
  else if src <+: p ∨ (isFileAt f src ∧ attrDir src <+: p) ∨
      (isFileAt f dest ∧ attrDir dest <+: p) then none
  else f p

theorem movedNamespace_free {f} {n : Node β} {src dest} (h : FourApart src dest)
    (hn : f src = some n) (hdest : f dest = none) :
    renamed f n src dest = movedNamespace f src dest := by
  have hsrc : isFileAt f src = n.isFile := by simp [isFileAt, hn]
  have hno : isFileAt f dest = false := by simp [isFileAt, hdest]
  funext p
  unfold movedNamespace
  rw [hsrc, hno]
  by_cases hd : dest <+: p
  · obtain ⟨r, rfl⟩ := hd
    rw [if_pos (prefix_append dest r), drop_left, renamed_dest h]
  rw [if_neg hd]
  by_cases hda : n.isFile = true ∧ attrDir dest <+: p
  · obtain ⟨hfile, r, rfl⟩ := hda
    rw [if_pos ⟨hfile, prefix_append _ r⟩, drop_left, renamed_attr h hfile]
  rw [if_neg hda]
  by_cases hs : src <+: p
  · obtain ⟨r, rfl⟩ := hs
    rw [if_pos (.inl (prefix_append src r)), renamed_src h]
  by_cases hsa : n.isFile = true ∧ attrDir src <+: p
  · obtain ⟨hfile, r, rfl⟩ := hsa
    rw [if_pos (.inr (.inl ⟨hfile, prefix_append _ r⟩)), renamed_srcAttr h hfile]
  · rw [if_neg (by simp [hs, hsa]), renamed_other hd hs (fun hfile hpre => hda ⟨hfile, hpre⟩)
      (fun hfile hpre => hsa ⟨hfile, hpre⟩)]

theorem WellFormed.ready {f : Path → Option (Node β)} (hf : WellFormed f) {n} {s d : Path} {c b}
    (hs : IsObject (s ++ [c])) (hd : IsObject (d ++ [b])) (hapart : Apart (s ++ [c]) (d ++ [b]))
    (hn : f (s ++ [c]) = some n) (hnone : f (d ++ [b]) = none) (hdir : f d = some .dir) :
    Ready f n s c d b where
  srcObject := hs
  destObject := hd
  apart := hapart
  node := hn
  srcDir := hf.parent (by rw [hn]; exact some_ne_none _)
  free := hf.free hnone
  destDir := hdir
  attr hfile := by
    refine ⟨?_, hf.free_attrDir hd.left (by simp [hnone]), hf.dirAttr hd.left hdir⟩
    rw [attrDir_snoc]
    exact hf.fileAttrDir hs hn hfile

/-- An old destination `d ++ [b]` and the free name `d ++ [b']` for it. -/
structure Aside (f : Path → Option (Node β)) (m : Node β) (d : Path) (b b' : String) : Prop where
  wellFormed : WellFormed f
  destObject : IsObject (d ++ [b])
  asideObject : IsObject (d ++ [b'])
  node : f (d ++ [b]) = some m
  free : f (d ++ [b']) = none

variable {f : Path → Option (Node β)} {m n : Node β} {d s p : Path} {b b' c : String}

theorem apart_siblings {x y} (h : x ≠ y) : Apart (p ++ [x]) (p ++ [y]) := by
  constructor <;> intro hpre <;> rw [prefix_append_right_inj] at hpre
  · exact h (cons_prefix_cons.1 hpre).1
  · exact h (cons_prefix_cons.1 hpre).1.symm

section

variable (h : Aside f m d b b')
include h

theorem Aside.ne : b ≠ b' := by
  rintro rfl
  exact some_ne_none _ (h.node.symm.trans h.free)

theorem Aside.dir : f d = some .dir :=
  h.wellFormed.parent (by rw [h.node]; exact some_ne_none _)

theorem Aside.ready : Ready f m d b d b' :=
  h.wellFormed.ready h.destObject h.asideObject (apart_siblings h.ne) h.node h.free h.dir

theorem Aside.four : FourApart (d ++ [b]) (d ++ [b']) :=
  fourApart h.destObject h.asideObject (apart_siblings h.ne)

/-- An existing path is not at or below the free name. -/
theorem Aside.not_aside_above (hp : f p ≠ none) : ¬ d ++ [b'] <+: p :=
  fun hpre => h.wellFormed.exists_above hp hpre h.free

end

/-- An object elsewhere stays where it is when the old destination is put aside. -/
theorem renamed_object (hp : IsObject p) (hd : ¬ d ++ [b] <+: p) (ha : ¬ d ++ [b'] <+: p) :
    renamed f m (d ++ [b]) (d ++ [b']) p = f p := by
  refine renamed_other ha hd (fun _ => ?_) (fun _ => ?_)
  · exact not_attr_above hp
  · exact not_attr_above hp

theorem Aside.dir_kept (h : Aside f m d b b') :
    renamed f m (d ++ [b]) (d ++ [b']) d = some .dir := by
  rw [renamed_object h.destObject.left (not_snoc_above d b) (not_snoc_above d b'), h.dir]

theorem not_attrDir_above_short {x} : ¬ attrDir (p ++ [x]) <+: p ++ [fileAttr] := by
  intro hpre
  have hlen := hpre.length_le
  simp [attrDir_snoc] at hlen

section

variable (h : Aside f m d b b')
include h

theorem Aside.attr_kept : renamed f m (d ++ [b]) (d ++ [b']) (d ++ [fileAttr]) = some .dir := by
  rw [renamed_other, h.wellFormed.dirAttr h.destObject.left h.dir]
  · exact fun hpre => not_snoc_above d b' (above_of_above_attr (r := []) h.asideObject hpre)
  · exact fun hpre => not_snoc_above d b (above_of_above_attr (r := []) h.destObject hpre)
  · exact fun _ => not_attrDir_above_short
  · exact fun _ => not_attrDir_above_short

theorem Aside.free_dest : Free (renamed f m (d ++ [b]) (d ++ [b'])) (d ++ [b]) :=
  fun r => renamed_src h.four r

theorem Aside.free_destAttr : Free (renamed f m (d ++ [b]) (d ++ [b'])) (attrDir (d ++ [b])) := by
  intro r
  by_cases hfile : m.isFile = true
  · exact renamed_srcAttr h.four hfile r
  · have hfree : Free f (attrDir (d ++ [b])) := by
      apply h.wellFormed.free_attrDir h.destObject.left
      intro n hn
      obtain rfl := some.inj (h.node.symm.trans hn)
      exact Bool.not_eq_true _ ▸ hfile
    rw [renamed, if_neg hfile]
    exact hfree.moved h.four.destSrcAttr r

/-- The old destination can be moved back. -/
theorem Aside.ready_back : Ready (renamed f m (d ++ [b]) (d ++ [b'])) m d b' d b where
  srcObject := h.asideObject
  destObject := h.destObject
  apart := h.four.srcDest.symm
  node := by
    have hdest := renamed_dest (f := f) (n := m) h.four []
    rwa [append_nil, append_nil, h.node] at hdest
  srcDir := h.dir_kept
  free := h.free_dest
  destDir := h.dir_kept
  attr hfile := by
    refine ⟨?_, h.free_destAttr, h.attr_kept⟩
    have hdest := renamed_attr (f := f) h.four hfile []
    rw [append_nil, append_nil] at hdest
    rw [hdest]
    exact (h.ready.attr hfile).1

theorem Aside.back : renamed (renamed f m (d ++ [b]) (d ++ [b'])) m (d ++ [b']) (d ++ [b]) = f :=
  renamed_back h.four (h.wellFormed.free h.free)
    fun _ => h.wellFormed.free_attrDir h.asideObject.left (by simp [h.free])

end

/-- A source apart from the old destination. -/
structure Aside.Source (f : Path → Option (Node β)) (n : Node β) (s : Path) (c : String)
    (d : Path) (b b' : String) : Prop where
  object : IsObject (s ++ [c])
  node : f (s ++ [c]) = some n
  dest : Apart (s ++ [c]) (d ++ [b])
  aside : Apart (s ++ [c]) (d ++ [b'])

section

variable (h : Aside f m d b b')
include h

theorem Aside.source (hs : IsObject (s ++ [c])) (hn : f (s ++ [c]) = some n)
    (hapart : Apart (s ++ [c]) (d ++ [b])) : Aside.Source f n s c d b b' := by
  have hne : f (s ++ [c]) ≠ none := by rw [hn]; exact some_ne_none _
  refine ⟨hs, hn, hapart, fun hpre => ?_, h.not_aside_above hne⟩
  rcases prefix_concat_iff.1 hpre with heq | habove
  · exact hne (heq ▸ h.free)
  · exact not_above_snoc hapart habove

section

variable (hsrc : Aside.Source f n s c d b b')
include hsrc

theorem Aside.Source.four : FourApart (s ++ [c]) (d ++ [b]) :=
  fourApart hsrc.object h.destObject hsrc.dest

theorem Aside.Source.fourAside : FourApart (s ++ [c]) (d ++ [b']) :=
  fourApart hsrc.object h.asideObject hsrc.aside

/-- The source is not touched when the old destination is put aside. -/
theorem Aside.Source.kept (r : Path) :
    renamed f m (d ++ [b]) (d ++ [b']) (s ++ [c] ++ r) = f (s ++ [c] ++ r) :=
  renamed_other (hsrc.aside.symm.append r) (hsrc.dest.symm.append r)
    (fun _ => (hsrc.fourAside h).srcDestAttr.symm.append r)
    (fun _ => (hsrc.four h).srcDestAttr.symm.append r)

/-- Nor are its attributes. -/
theorem Aside.sourceAttr_kept (r : Path) :
    renamed f m (d ++ [b]) (d ++ [b']) (attrDir (s ++ [c]) ++ r) = f (attrDir (s ++ [c]) ++ r) :=
  renamed_other ((hsrc.fourAside h).destSrcAttr.append r) ((hsrc.four h).destSrcAttr.append r)
    (fun _ => (hsrc.fourAside h).attrs.symm.append r)
    (fun _ => (hsrc.four h).attrs.symm.append r)

/-- With the old destination aside the source can be moved. -/
theorem Aside.ready_source : Ready (renamed f m (d ++ [b]) (d ++ [b'])) n s c d b where
  srcObject := hsrc.object
  destObject := h.destObject
  apart := hsrc.dest
  node := by
    rw [renamed_object hsrc.object hsrc.dest.2 hsrc.aside.2, hsrc.node]
  srcDir := by
    rw [renamed_object hsrc.object.left (not_above_snoc hsrc.dest.symm)
      (not_above_snoc hsrc.aside.symm)]
    exact h.wellFormed.parent (by rw [hsrc.node]; exact some_ne_none _)
  free := h.free_dest
  destDir := h.dir_kept
  attr hfile := by
    refine ⟨?_, h.free_destAttr, h.attr_kept⟩
    have hkept := h.sourceAttr_kept hsrc []
    rw [append_nil] at hkept
    rw [hkept, attrDir_snoc, h.wellFormed.fileAttrDir hsrc.object hsrc.node hfile]

/-- The old destination is at the made-up name while the source is moved in. -/
theorem Aside.at_aside (r : Path) :
    renamed (renamed f m (d ++ [b]) (d ++ [b'])) n (s ++ [c]) (d ++ [b]) (d ++ [b'] ++ r) =
      f (d ++ [b] ++ r) := by
  rw [renamed_other (h.four.srcDest.append r) (hsrc.aside.append r), renamed_dest h.four]
  · exact fun _ => h.four.destSrcAttr.symm.append r
  · exact fun _ => (hsrc.fourAside h).destSrcAttr.symm.append r

/-- So are its attributes. -/
theorem Aside.at_asideAttr (hm : m.isFile = true) (r : Path) :
    renamed (renamed f m (d ++ [b]) (d ++ [b'])) n (s ++ [c]) (d ++ [b])
      (attrDir (d ++ [b']) ++ r) = f (attrDir (d ++ [b]) ++ r) := by
  rw [renamed_other (h.four.srcDestAttr.append r), renamed_attr h.four hm]
  · exact (hsrc.fourAside h).srcDestAttr.append r
  · exact fun _ => h.four.attrs.append r
  · exact fun _ => (hsrc.fourAside h).attrs.append r

end

end

/-- With the old destination cut out, the namespace is the moved one. -/
theorem Aside.moved_cut (h : Aside f m d b b') (hsrc : Aside.Source f n s c d b b') {f'}
    (hcut : Cut (renamed (renamed f m (d ++ [b]) (d ++ [b'])) n (s ++ [c]) (d ++ [b])) (fun p =>
      d ++ [b'] <+: p ∨ (m.isFile = true ∧ attrDir (d ++ [b']) <+: p)) f') :
    f' = movedNamespace f (s ++ [c]) (d ++ [b]) := by
  have hfour := hsrc.four h
  funext p
  unfold movedNamespace
  rw [show isFileAt f (s ++ [c]) = n.isFile by simp [isFileAt, hsrc.node],
    show isFileAt f (d ++ [b]) = m.isFile by simp [isFileAt, h.node]]
  by_cases hd : d ++ [b] <+: p
  · obtain ⟨r, rfl⟩ := hd
    rw [if_pos (prefix_append _ r), drop_left, hcut.kept, renamed_dest hfour,
      hsrc.kept h]
    rintro (ha | ⟨-, ha⟩)
    · exact h.four.srcDest.symm.append r ha
    · exact h.four.srcDestAttr.symm.append r ha
  rw [if_neg hd]
  by_cases hda : n.isFile = true ∧ attrDir (d ++ [b]) <+: p
  · obtain ⟨hfile, r, rfl⟩ := hda
    rw [if_pos ⟨hfile, prefix_append _ r⟩, drop_left, hcut.kept,
      renamed_attr hfour hfile, h.sourceAttr_kept hsrc]
    rintro (ha | ⟨-, ha⟩)
    · exact h.four.destSrcAttr.append r ha
    · exact h.four.attrs.symm.append r ha
  rw [if_neg hda]
  have hda' : n.isFile = true → ¬ attrDir (d ++ [b]) <+: p := fun hfile hpre => hda ⟨hfile, hpre⟩
  split
  · next hgone =>
      apply hcut.absent
      by_cases hs : s ++ [c] <+: p
      · obtain ⟨r, rfl⟩ := hs
        exact renamed_src hfour r
      by_cases hsa : n.isFile = true ∧ attrDir (s ++ [c]) <+: p
      · obtain ⟨hfile, r, rfl⟩ := hsa
        exact renamed_srcAttr hfour hfile r
      obtain ⟨-, r, rfl⟩ := (hgone.resolve_left hs).resolve_left hsa
      rw [renamed_other hd hs hda' fun hfile hpre => hsa ⟨hfile, hpre⟩]
      exact h.free_destAttr r
  · next hkept =>
      rw [not_or, not_or] at hkept
      obtain ⟨hs, hsa, hma⟩ := hkept
      by_cases ha : d ++ [b'] <+: p
      · obtain ⟨r, rfl⟩ := ha
        rw [hcut.gone _ (.inl (prefix_append _ r)), h.wellFormed.free h.free r]
      by_cases haa : m.isFile = true ∧ attrDir (d ++ [b']) <+: p
      · obtain ⟨hfile, r, rfl⟩ := haa
        rw [hcut.gone _ (.inr ⟨hfile, prefix_append _ r⟩),
          h.wellFormed.free_attrDir h.asideObject.left (by simp [h.free]) r]
      rw [hcut.kept p (by rintro (h₁ | h₂); exacts [ha h₁, haa h₂]),
        renamed_other hd hs hda' (fun hfile hpre => hsa ⟨hfile, hpre⟩),
        renamed_other ha hd (fun hfile hpre => haa ⟨hfile, hpre⟩)
          (fun hfile hpre => hma ⟨hfile, hpre⟩)]

/-- An empty directory holds nothing but values in its attribute directory. -/
theorem WellFormed.empty_dir (hf : WellFormed f) (hp : IsObject p) (hdir : f p = some .dir)
    (hempty : ∀ x, f (p ++ [x]) ≠ none → x = fileAttr) :
    (∀ x, f (p ++ [fileAttr, x]) ≠ some .dir) ∧
      ∀ x r, f (p ++ x :: r) ≠ none → x = fileAttr ∧ r.length ≤ 1 := by
  have hvalues : ∀ x, f (p ++ [fileAttr, x]) ≠ some .dir := by
    intro x hx
    obtain ⟨y, rfl⟩ := hf.attrDirName hp hx
    obtain ⟨o, ho, hfile⟩ := hf.attrOwner hp (by rw [hx]; exact some_ne_none _)
    obtain rfl := hempty y (by rw [ho]; exact some_ne_none _)
    rw [hf.dirAttr hp hdir] at ho
    cases ho
    exact Bool.noConfusion hfile
  refine ⟨hvalues, fun x r hne => ?_⟩
  have hx : f (p ++ [x]) ≠ none := by
    apply hf.exists_above hne
    exact ⟨r, by simp⟩
  obtain rfl := hempty x hx
  refine ⟨rfl, ?_⟩
  match r with
  | [] => exact Nat.zero_le 1
  | [y] => exact Nat.le_refl 1
  | y :: z :: r =>
    rw [show p ++ fileAttr :: y :: z :: r = (p ++ [fileAttr, y]) ++ z :: r by simp] at hne
    exact absurd (hf.dir_above hne) (hvalues y)

/-- The removal of the old destination takes it out whole, with its attributes. -/
theorem Aside.removed (h : Aside f m d b b') (hsrc : Aside.Source f n s c d b b') {fs}
    (hfs : lookup fs = renamed (renamed f m (d ++ [b]) (d ++ [b'])) n (s ++ [c]) (d ++ [b]))
    (hempty : m = .dir → ∀ x, f (d ++ [b] ++ [x]) ≠ none → x = fileAttr) :
    Cut (lookup fs)
      (fun p => d ++ [b'] <+: p ∨ (m.isFile = true ∧ attrDir (d ++ [b']) <+: p))
      (lookup (osfObjectRemove fs (d ++ [b']))) := by
  have hbelow : ∀ r, lookup fs (d ++ [b'] ++ r) = f (d ++ [b] ++ r) := by
    intro r
    rw [hfs, h.at_aside hsrc]
  have hat : lookup fs (d ++ [b']) = some m := by
    have hnil := hbelow []
    rwa [append_nil, append_nil, h.node] at hnil
  by_cases hm : m.isFile = true
  · have hattr : ∀ r, lookup fs (attrDir (d ++ [b']) ++ r) = f (attrDir (d ++ [b]) ++ r) := by
      intro r
      rw [hfs, h.at_asideAttr hsrc hm]
    have hattrDir : lookup fs (attrDir (d ++ [b'])) = some .dir := by
      have hnil := hattr []
      rw [append_nil, append_nil] at hnil
      rw [hnil]
      exact (h.ready.attr hm).1
    have hcut := osfObjectRemove_file hat hm hattrDir fun x r hne => by
      rw [hattr] at hne ⊢
      exact h.wellFormed.attr_values h.destObject.left hne
    refine hcut.congr fun p hp => or_congr ?_ ⟨fun hpre => ⟨hm, hpre⟩, fun hpre => hpre.2⟩
    constructor
    · rintro rfl
      exact prefix_rfl
    · rintro ⟨r, rfl⟩
      cases r with
      | nil => exact append_nil _
      | cons x r =>
        rw [hbelow] at hp
        exact absurd (h.wellFormed.leaf h.node hm) hp
  · obtain rfl : m = .dir := by
      cases m with
      | dir => rfl
      | file content => exact absurd rfl hm
      | symlink target => exact absurd rfl hm
    obtain ⟨hvalues, hdeep⟩ := h.wellFormed.empty_dir h.destObject h.node (hempty rfl)
    have hcut := osfObjectRemove_dir (by simp) hat
      (by rw [hbelow]; exact h.wellFormed.dirAttr h.destObject h.node)
      (fun x => by rw [hbelow]; exact hvalues x)
      (fun x r hne => hdeep x r (hbelow (x :: r) ▸ hne))
    refine hcut.congr fun p _ => ⟨.inl, fun hp => hp.resolve_right ?_⟩
    rintro ⟨hfile, -⟩
    exact Bool.noConfusion hfile

end LStore.Os.File
