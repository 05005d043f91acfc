import Mathlib.Data.List.Perm.Basic

/-!
# Copies between byte stores

A byte store is a function from positions to bytes. A copy moves a block of one
store into another. A list of copies tiles a block of the destination when each
copy starts where the previous one ended; then every copied byte survives, and
the copies may run in any order.
-/

namespace ByteCopy

open List

variable {β : Type*} {p : Int}

/-- Move `n` bytes of `src` at `s` into `dst` at `d`. -/
def copyBytes (src : Int → β) (s : Int) (dst : Int → β) (d n : Int) : Int → β :=
  fun p => if d ≤ p ∧ p < d + n then src (s + (p - d)) else dst p

theorem copyBytes_inside {src dst : Int → β} {s d n} (h : d ≤ p ∧ p < d + n) :
    copyBytes src s dst d n p = src (s + (p - d)) := if_pos h

theorem copyBytes_outside {src dst : Int → β} {s d n : Int} (h : ¬(d ≤ p ∧ p < d + n)) :
    copyBytes src s dst d n p = dst p := if_neg h

theorem copyBytes_congr {src dst dst' : Int → β} {s s' d d' n n' p' : Int}
    (hin : (d ≤ p ∧ p < d + n) ↔ d' ≤ p' ∧ p' < d' + n') (hs : s + (p - d) = s' + (p' - d'))
    (hdst : dst p = dst' p') : copyBytes src s dst d n p = copyBytes src s' dst' d' n' p' := by
  simp [copyBytes, hin, hs, hdst]

theorem copyBytes_empty (src dst : Int → β) (s d : Int) {n} (h : n ≤ 0) :
    copyBytes src s dst d n = dst := by
  funext p
  rw [copyBytes_outside (by omega)]

/-- Two copies one behind the other are one copy. -/
theorem copyBytes_join (src dst : Int → β) (s d : Int) {n m} (hn : 0 ≤ n) (hm : 0 ≤ m) :
    copyBytes src (s + n) (copyBytes src s dst d n) (d + n) m = copyBytes src s dst d (n + m) := by
  funext p
  by_cases hfirst : d ≤ p ∧ p < d + n
  · rw [copyBytes_outside (by omega), copyBytes_inside hfirst, copyBytes_inside (by omega)]
  · by_cases hrest : d + n ≤ p ∧ p < d + n + m
    · rw [copyBytes_inside hrest, copyBytes_inside (by omega)]
      congr 1
      omega
    · rw [copyBytes_outside hrest, copyBytes_outside hfirst, copyBytes_outside (by omega)]

/-- A queued copy into a common destination. -/
structure Copy (β : Type*) where
  src : Int → β
  start : Int
  dest : Int
  len : Int

/-- Run the copies in list order. -/
def runCopies (cs : List (Copy β)) (dst : Int → β) : Int → β :=
  cs.foldl (fun dst c => copyBytes c.src c.start dst c.dest c.len) dst

/-- The copies fill `[b, e)` one after another. -/
inductive Tiles : Int → List (Copy β) → Int → Prop
  | nil {b} : Tiles b [] b
  | cons {b e c cs} (hd : c.dest = b) (hlen : 0 ≤ c.len) (tail : Tiles (b + c.len) cs e) :
      Tiles b (c :: cs) e

theorem Tiles.le {b e : Int} {cs : List (Copy β)} (h : Tiles b cs e) : b ≤ e := by
  induction h with
  | nil => exact Int.le_refl _
  | cons _ hlen _ ih => omega

theorem Tiles.append {b c e} {cs cs' : List (Copy β)} (h : Tiles b cs c) (h' : Tiles c cs' e) :
    Tiles b (cs ++ cs') e := by
  induction h with
  | nil => exact h'
  | cons hd hlen _ ih => exact Tiles.cons hd hlen (ih h')

theorem Tiles.single {c : Copy β} (hlen : 0 ≤ c.len) : Tiles c.dest [c] (c.dest + c.len) :=
  Tiles.cons rfl hlen Tiles.nil

@[simp] theorem runCopies_nil (dst : Int → β) : runCopies [] dst = dst := rfl

@[simp] theorem runCopies_cons (c : Copy β) (cs : List (Copy β)) (dst : Int → β) :
    runCopies (c :: cs) dst = runCopies cs (copyBytes c.src c.start dst c.dest c.len) := rfl

theorem runCopies_append (cs cs' : List (Copy β)) (dst : Int → β) :
    runCopies (cs ++ cs') dst = runCopies cs' (runCopies cs dst) := by
  simp [runCopies, foldl_append]

/-- Tiling copies leave everything outside their block alone. -/
theorem Tiles.outside {b e : Int} {cs : List (Copy β)} (h : Tiles b cs e) (dst : Int → β)
    (hp : p < b ∨ e ≤ p) : runCopies cs dst p = dst p := by
  induction h generalizing dst with
  | nil => rfl
  | @cons b e c cs hd hlen tail ih =>
    have hle := tail.le
    rw [runCopies_cons, ih _ (by omega), copyBytes_outside (by omega)]

/-- Inside its block a tiling is decided by its first copy, then by the rest. -/
theorem Tiles.inside_head {b e} {c : Copy β} {cs} (h : Tiles b (c :: cs) e) (dst : Int → β)
    (hp : b ≤ p ∧ p < b + c.len) : runCopies (c :: cs) dst p = c.src (c.start + (p - b)) := by
  cases h with
  | cons hd _ tail =>
    rw [runCopies_cons, tail.outside _ (by omega), copyBytes_inside (by omega), hd]

/-- Every copy of a tiling lies in the block. -/
theorem Tiles.mem {b e : Int} {cs} (h : Tiles b cs e) {c : Copy β} (hc : c ∈ cs) :
    b ≤ c.dest ∧ 0 ≤ c.len ∧ c.dest + c.len ≤ e := by
  induction h with
  | nil => simp at hc
  | @cons b e c' cs hd hlen tail ih =>
    have hle := tail.le
    rcases mem_cons.mp hc with rfl | hc
    · omega
    · have := ih hc
      omega

/-- Two copies of a tiling fill separate blocks. -/
theorem Tiles.apart {b e : Int} {cs : List (Copy β)} (h : Tiles b cs e) {x y} (hx : x ∈ cs)
    (hy : y ∈ cs) (hxy : x ≠ y) : x.dest + x.len ≤ y.dest ∨ y.dest + y.len ≤ x.dest := by
  induction h with
  | nil => simp at hx
  | @cons b e c cs hd hlen tail ih =>
    rcases mem_cons.mp hx with rfl | hxm
    · rcases mem_cons.mp hy with rfl | hym
      · exact absurd rfl hxy
      · have := tail.mem hym
        omega
    · rcases mem_cons.mp hy with rfl | hym
      · have := tail.mem hxm
        omega
      · exact ih hxm hym

/-- Two copies fill separate blocks. -/
def Copy.Apart (c c' : Copy β) : Prop := c.dest + c.len ≤ c'.dest ∨ c'.dest + c'.len ≤ c.dest

theorem Copy.Apart.symm {c c' : Copy β} (h : c.Apart c') : c'.Apart c := Or.symm h

/-- Copies leave everything outside their blocks alone. -/
theorem runCopies_outside {cs} (h : ∀ c ∈ cs, ¬(c.dest ≤ p ∧ p < c.dest + c.len)) (dst : Int → β) :
    runCopies cs dst p = dst p := by
  induction cs generalizing dst with
  | nil => rfl
  | cons c cs ih =>
    rw [runCopies_cons, ih fun x hx => h x (by simp [hx]), copyBytes_outside (h c (by simp))]

/-- A position in some block is decided by one of the copies into it. -/
theorem runCopies_covered {cs} (h : ∃ c ∈ cs, c.dest ≤ p ∧ p < c.dest + c.len) (dst : Int → β) :
    ∃ c ∈ cs, (c.dest ≤ p ∧ p < c.dest + c.len) ∧
      runCopies cs dst p = c.src (c.start + (p - c.dest)) := by
  induction cs generalizing dst with
  | nil => simp at h
  | cons c cs ih =>
    rw [runCopies_cons]
    by_cases hrest : ∃ c ∈ cs, c.dest ≤ p ∧ p < c.dest + c.len
    · obtain ⟨d, hd, hcov, heq⟩ := ih hrest (copyBytes c.src c.start dst c.dest c.len)
      exact ⟨d, mem_cons_of_mem c hd, hcov, heq⟩
    · have hc : c.dest ≤ p ∧ p < c.dest + c.len := by
        obtain ⟨d, hd, hcov⟩ := h
        rcases mem_cons.mp hd with rfl | hd
        · exact hcov
        · exact absurd ⟨d, hd, hcov⟩ hrest
      refine ⟨c, mem_cons_self, hc, ?_⟩
      rw [runCopies_outside (fun d hd hcov => hrest ⟨d, hd, hcov⟩), copyBytes_inside hc]

/-- Among separate copies every one keeps its block. -/
theorem runCopies_inside {cs : List (Copy β)} (hap : cs.Pairwise Copy.Apart) {c} (hc : c ∈ cs)
    (hp : c.dest ≤ p ∧ p < c.dest + c.len) (dst : Int → β) :
    runCopies cs dst p = c.src (c.start + (p - c.dest)) := by
  induction cs generalizing dst with
  | nil => simp at hc
  | cons x cs ih =>
    obtain ⟨hhead, htail⟩ := pairwise_cons.mp hap
    rw [runCopies_cons]
    rcases mem_cons.mp hc with rfl | hc
    · rw [runCopies_outside, copyBytes_inside hp]
      intro y hy
      have := hhead y hy
      simp only [Copy.Apart] at this
      omega
    · exact ih htail hc _

theorem copyBytes_comm {src src' dst : Int → β} {s s' d d' n n'} (h : d + n ≤ d' ∨ d' + n' ≤ d) :
    copyBytes src' s' (copyBytes src s dst d n) d' n' =
      copyBytes src s (copyBytes src' s' dst d' n') d n := by
  funext p
  by_cases hp : d ≤ p ∧ p < d + n
  · rw [copyBytes_outside (by omega), copyBytes_inside hp, copyBytes_inside hp]
  · rw [copyBytes_outside hp]
    by_cases hp' : d' ≤ p ∧ p < d' + n'
    · rw [copyBytes_inside hp', copyBytes_inside hp']
    · rw [copyBytes_outside hp', copyBytes_outside hp', copyBytes_outside hp]

/-- Tiling copies give the same store in every order of execution. -/
theorem Tiles.runCopies_perm {b e : Int} {cs cs'} (h : Tiles b cs e) (hp : cs.Perm cs')
    (dst : Int → β) : runCopies cs' dst = runCopies cs dst := by
  refine (List.Perm.foldl_eq' hp ?_ dst).symm
  intro x hx y hy z
  by_cases hxy : x = y
  · rw [hxy]
  · exact copyBytes_comm (h.apart hx hy hxy)

/-- The `n` bytes of `f` at `a` are those of `g` at `b`. -/
def Agree (f : Int → β) (a : Int) (g : Int → β) (b n : Int) : Prop :=
  ∀ k, 0 ≤ k → k < n → f (a + k) = g (b + k)

variable {f g src dst : Int → β} {a b s d m n : Int}

theorem Agree.empty (h : n ≤ 0) : Agree f a g b n := fun k h0 hn => by omega

theorem Agree.copyBytes (src dst : Int → β) (s d n : Int) :
    Agree (copyBytes src s dst d n) d src s n := by
  intro k h0 hn
  rw [copyBytes_inside (by omega)]
  congr 1
  omega

theorem Agree.trans {h : Int → β} {c} (hfg : Agree f a g b n) (hgh : Agree g b h c n) :
    Agree f a h c n := fun k h0 hn => (hfg k h0 hn).trans (hgh k h0 hn)

/-- A copy into another block is not seen. -/
theorem Agree.copyBytes_apart (h : Agree dst a g b n) (hap : d + m ≤ a ∨ a + n ≤ d) :
    Agree (ByteCopy.copyBytes src s dst d m) a g b n := by
  intro k h0 hn
  rw [copyBytes_outside (by omega)]
  exact h k h0 hn

theorem Agree.append (h : Agree f a g b m) (h' : Agree f (a + m) g (b + m) n) :
    Agree f a g b (m + n) := by
  intro k h0 hn
  by_cases hk : k < m
  · exact h k h0 hk
  · have := h' (k - m) (by omega) (by omega)
    rwa [show a + m + (k - m) = a + k by omega, show b + m + (k - m) = b + k by omega] at this

/-- The next block is copied to the end of the blocks that are already there. -/
theorem Agree.copyBytes_next (h : Agree dst a g b m) (hs : Agree src s g (b + m) n) :
    Agree (ByteCopy.copyBytes src s dst (a + m) n) a g b (m + n) :=
  (h.copyBytes_apart (.inr (by omega))).append ((Agree.copyBytes src dst s (a + m) n).trans hs)

end ByteCopy
