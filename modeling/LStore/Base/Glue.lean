import Mathlib.Data.List.SplitBy

/-!
# Glued buffers

Items bring buffers that are laid end to end, and each item expects its own part of the data in
its own buffer. The data then reaches the right places exactly when every item but the last ones
that expect nothing brings a buffer that holds its part and nothing more.
-/

namespace Glue

open List

variable {α β γ : Type*} {want have' : α → List γ} {l : List α}

/-- Every buffer starts with the part of its item, and a buffer that is followed by a part holds
nothing else. -/
structure Seamless (want have' : α → List γ) (l : List α) : Prop where
  starts : ∀ a ∈ l, want a <+: have' a
  whole : l.Pairwise fun a b => want b ≠ [] → have' a = want a

/-- Seamless buffers hold the parts in order. -/
theorem Seamless.glued (h : Seamless want have' l) : l.flatMap want <+: l.flatMap have' := by
  induction l with
  | nil => exact prefix_rfl
  | cons a l ih =>
    have hwhole := pairwise_cons.mp h.whole
    have hrest : Seamless want have' l :=
      ⟨fun b hb => h.starts b (mem_cons_of_mem a hb), hwhole.2⟩
    rw [flatMap_cons, flatMap_cons]
    by_cases hdone : ∀ b ∈ l, want b = []
    · rw [flatMap_eq_nil_iff.mpr hdone, append_nil]
      exact (h.starts a mem_cons_self).trans (prefix_append _ _)
    · push Not at hdone
      obtain ⟨b, hb, hne⟩ := hdone
      rw [hwhole.1 b hb hne, prefix_append_right_inj]
      exact ih hrest

/-- Buffers that do not share entries: an item's buffer starts with its part or has nothing of
it, and no buffer has anything of a later part. -/
structure Separated (want have' : α → List γ) (l : List α) : Prop where
  own : ∀ a ∈ l, want a <+: have' a ∨ have' a ≠ [] ∧ ∀ x ∈ have' a, x ∉ want a
  later : l.Pairwise fun a b => ∀ x ∈ have' a, x ∉ want b

/-- An entry in front of the parts that is in none of them. -/
theorem not_cons_append {x : γ} {xs ys zs} (hne : ys ≠ []) (hx : x ∉ ys) :
    ¬ys <+: (x :: xs) ++ zs := by
  obtain ⟨y, ys, rfl⟩ := exists_cons_of_ne_nil hne
  rw [cons_append, cons_prefix_cons]
  rintro ⟨rfl, -⟩
  exact hx mem_cons_self

/-- Separated buffers that hold the parts in order are seamless. -/
theorem Separated.seamless (hsep : Separated want have' l) (h : l.flatMap want <+: l.flatMap have')
    : Seamless want have' l := by
  induction l with
  | nil => exact ⟨by simp, List.Pairwise.nil⟩
  | cons a l ih =>
    have hlater := pairwise_cons.mp hsep.later
    have hrest : Separated want have' l :=
      ⟨fun b hb => hsep.own b (mem_cons_of_mem a hb), hlater.2⟩
    have hnot : ∀ x ∈ have' a, x ∉ l.flatMap want := by
      intro x hx hmem
      obtain ⟨b, hb, hxb⟩ := mem_flatMap.mp hmem
      exact hlater.1 b hb x hx hxb
    rw [flatMap_cons, flatMap_cons] at h
    have hforeign : ¬want a <+: have' a → want a ++ l.flatMap want = [] := by
      intro hstart
      obtain ⟨hne, hown⟩ := (hsep.own a mem_cons_self).resolve_left hstart
      obtain ⟨x, xs, hx⟩ := exists_cons_of_ne_nil hne
      by_contra hparts
      rw [hx] at h
      refine not_cons_append hparts ?_ h
      have hmem : x ∈ have' a := by rw [hx]; exact mem_cons_self
      rw [mem_append, not_or]
      exact ⟨hown x hmem, hnot x hmem⟩
    have hstart : want a <+: have' a := by
      by_contra hstart
      have hnil := append_eq_nil_iff.mp (hforeign hstart)
      rw [hnil.1] at hstart
      exact hstart nil_prefix
    obtain ⟨more, hmore⟩ := hstart
    rw [← hmore, append_assoc, prefix_append_right_inj] at h
    cases more with
    | nil =>
      rw [append_nil] at hmore
      have hseam := ih hrest (by simpa using h)
      refine ⟨forall_mem_cons.mpr ⟨hmore ▸ prefix_rfl, hseam.starts⟩,
        pairwise_cons.mpr ⟨fun b _ _ => hmore.symm, hseam.whole⟩⟩
    | cons x more =>
      have hmem : x ∈ have' a := by rw [← hmore]; simp
      have hnil : l.flatMap want = [] := by
        by_contra hparts
        exact not_cons_append hparts (hnot x hmem) h
      have hall : ∀ b ∈ l, want b = [] := by simpa using hnil
      refine ⟨forall_mem_cons.mpr ⟨⟨_, hmore⟩, ?_⟩, pairwise_cons.mpr ⟨?_, ?_⟩⟩
      · intro b hb
        rw [hall b hb]
        exact nil_prefix
      · intro b hb hne
        exact absurd (hall b hb) hne
      · refine pairwise_iff_forall_sublist.mpr ?_
        intro b c hsub hne
        exact absurd (hall c (hsub.subset (by simp))) hne

/-- Pairing with a longer list and with its beginning. -/
theorem zip_eq_zip_iff {xs : List β} {as ws : List γ} (hlen : xs.length = ws.length) :
    xs.zip as = xs.zip ws ↔ ws <+: as := by
  induction xs generalizing as ws with
  | nil => simp [length_eq_zero_iff.mp hlen.symm]
  | cons x xs ih =>
    cases ws with
    | nil => exact absurd hlen (Nat.succ_ne_zero _)
    | cons w ws =>
      cases as with
      | nil => simp
      | cons a as =>
        rw [zip_cons_cons, zip_cons_cons, cons_prefix_cons,
          ← ih (Nat.succ.inj hlen)]
        simp [eq_comm]

/-- Parts that are paired one by one are paired as a whole. -/
theorem flatMap_zip {f : α → List β} (l : List α) (hlen : ∀ a ∈ l, (f a).length = (want a).length) :
    (l.flatMap fun a => (f a).zip (want a)) = (l.flatMap f).zip (l.flatMap want) := by
  induction l with
  | nil => rfl
  | cons a l ih =>
    rw [flatMap_cons, flatMap_cons, flatMap_cons,
      zip_append (hlen a mem_cons_self), ih fun b hb => hlen b (mem_cons_of_mem a hb)]

/-- What holds along two matched lists. -/
theorem forall_iff_of_forall₂ {r} {p : α → Prop} {q : β → Prop} {m} (h : List.Forall₂ r l m)
    (hpq : ∀ a b, r a b → (p a ↔ q b)) : (∀ a ∈ l, p a) ↔ ∀ b ∈ m, q b := by
  induction h with
  | nil => simp
  | cons hab _ ih => rw [forall_mem_cons, forall_mem_cons, hpq _ _ hab, ih]

theorem splitBy_loop_map (f : β → α) (link : α → α → Bool) (l : List β) (b : β) (g : List β)
    (gs : List (List β)) :
    List.splitBy.loop link (l.map f) (f b) (g.map f) (gs.map (List.map f)) =
      (List.splitBy.loop (fun x y => link (f x) (f y)) l b g gs).map (List.map f) := by
  induction l generalizing b g gs with
  | nil => simp [List.splitBy.loop]
  | cons c l ih =>
    rw [map_cons, List.splitBy.loop, List.splitBy.loop]
    cases link (f b) (f c) with
    | true => exact ih c (b :: g) gs
    | false => simpa using ih c [] ((b :: g).reverse :: gs)

/-- Cutting the images of a list. -/
theorem splitBy_map (f : β → α) (link : α → α → Bool) (l : List β) :
    (l.map f).splitBy link = (l.splitBy fun x y => link (f x) (f y)).map (List.map f) := by
  cases l with
  | nil => rfl
  | cons b l => exact splitBy_loop_map f link l b [] []

end Glue
