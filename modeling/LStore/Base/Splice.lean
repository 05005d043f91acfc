import Mathlib.Data.List.Basic

/-!
# Spliced stores and sparse files

A store is a function from positions to entries. `slice` reads a run of entries as a list and
`splice` puts a list into the store. A sparse file is a store of bounded size that is zero beyond
its end, so that a write behind the end leaves a hole of zeros.
-/

namespace Splice

open List

variable {β : Type*} {q : Nat}

/-- The `n` entries from `pos` on. -/
def slice (f : Nat → β) (pos n : Nat) : List β := (List.range n).map fun i => f (pos + i)

/-- The store with a list put at `pos`. -/
def splice (f : Nat → β) (pos : Nat) (bs : List β) : Nat → β :=
  fun p => if pos ≤ p then (bs[p - pos]?).getD (f p) else f p

variable (f g : Nat → β) (pos m n : Nat)

@[simp] theorem length_slice : (slice f pos n).length = n := by simp [slice]

@[simp] theorem slice_zero : slice f pos 0 = [] := rfl

@[simp] theorem getElem_slice {i} (h : i < (slice f pos n).length) :
    (slice f pos n)[i] = f (pos + i) := by simp [slice]

theorem slice_add : slice f pos (m + n) = slice f pos m ++ slice f (pos + m) n := by
  simp [slice, range_add, Nat.add_assoc]

variable {f g}

theorem slice_congr (h : ∀ i, i < n → f (pos + i) = g (q + i)) : slice f pos n = slice g q n :=
  map_congr_left fun i hi => h i (mem_range.mp hi)

theorem slice_eq_replicate {b} (h : ∀ i, i < n → f (pos + i) = b) :
    slice f pos n = List.replicate n b := by
  refine ext_getElem (by simp) ?_
  intro i hi hj
  rw [getElem_slice, getElem_replicate]
  exact h i (by simpa using hi)

variable (f : Nat → β) (pos : Nat) (as bs : List β)

theorem splice_outside {p} (h : p < pos ∨ pos + bs.length ≤ p) : splice f pos bs p = f p := by
  rw [splice]
  split
  · rw [List.getElem?_eq_none (by omega), Option.getD_none]
  · rfl

theorem splice_inside {i} (h : i < bs.length) : splice f pos bs (pos + i) = bs[i] := by
  rw [splice, if_pos (Nat.le_add_right pos i), Nat.add_sub_cancel_left, List.getElem?_eq_getElem h,
    Option.getD_some]

@[simp] theorem splice_nil : splice f pos [] = f := by
  funext p
  exact splice_outside f pos [] (by simp; omega)

theorem splice_append :
    splice f pos (as ++ bs) = splice (splice f pos as) (pos + as.length) bs := by
  funext p
  by_cases hp : p < pos ∨ pos + (as ++ bs).length ≤ p
  · rw [splice_outside _ _ _ hp]
    rw [length_append] at hp
    rw [splice_outside _ _ _ (by omega), splice_outside _ _ _ (by omega)]
  · obtain ⟨i, rfl⟩ : ∃ i, p = pos + i := ⟨p - pos, by omega⟩
    rw [splice_inside _ _ _ (by omega)]
    by_cases hi : i < as.length
    · rw [splice_outside _ _ _ (by omega), splice_inside _ _ _ hi, getElem_append_left hi]
    · obtain ⟨k, rfl⟩ : ∃ k, i = as.length + k := ⟨i - as.length, by omega⟩
      rw [length_append] at hp
      rw [← Nat.add_assoc, splice_inside _ _ _ (by omega), getElem_append_right (by omega)]
      simp

@[simp] theorem slice_splice_self : slice (splice f pos bs) pos bs.length = bs := by
  refine ext_getElem (by simp) ?_
  intro i hi hj
  rw [getElem_slice, splice_inside _ _ _ hj]

theorem slice_splice_apart {n} (h : q + n ≤ pos ∨ pos + bs.length ≤ q) :
    slice (splice f pos bs) q n = slice f q n :=
  slice_congr q n fun i hi => splice_outside _ _ _ (by omega)

theorem slice_splice_append : slice (splice f pos (as ++ bs)) pos as.length = as := by
  rw [splice_append, slice_splice_apart _ _ _ (.inl (Nat.le_refl _)), slice_splice_self]

/-- Splices into separate places commute. -/
theorem splice_comm (h : pos + as.length ≤ q ∨ q + bs.length ≤ pos) :
    splice (splice f pos as) q bs = splice (splice f q bs) pos as := by
  funext p
  by_cases hq : p < q ∨ q + bs.length ≤ p
  · rw [splice_outside _ _ _ hq]
    by_cases hp : p < pos ∨ pos + as.length ≤ p
    · rw [splice_outside _ _ _ hp, splice_outside _ _ _ hp, splice_outside _ _ _ hq]
    · obtain ⟨i, rfl⟩ : ∃ i, p = pos + i := ⟨p - pos, by omega⟩
      rw [splice_inside _ _ _ (by omega), splice_inside _ _ _ (by omega)]
  · obtain ⟨i, rfl⟩ : ∃ i, p = q + i := ⟨p - q, by omega⟩
    rw [splice_inside _ _ _ (by omega), splice_outside _ _ _ (by omega),
      splice_inside _ _ _ (by omega)]

/-- Reading on behind what has been read so far. -/
theorem splice_slice_next {g} (q m n : Nat) :
    splice (splice f pos (slice g q m)) (pos + m) (slice g (q + m) n) =
      splice f pos (slice g q (m + n)) := by
  rw [slice_add, splice_append, length_slice]

/-- A file that is zero beyond its end. -/
@[ext]
structure SparseFile (β : Type*) [Zero β] where
  size : Nat
  byte : Nat → β
  beyond : ∀ p, size ≤ p → byte p = 0

namespace SparseFile

variable [Zero β] (f : SparseFile β) (pos n : Nat) (bs : List β)

/-- The entries that arrive when `n` are asked for at `pos`. -/
def fread : List β := slice f.byte pos (min n (f.size - pos))

/-- The file after a list is written at `pos`. -/
def fwrite : SparseFile β where
  size := if bs = [] then f.size else max f.size (pos + bs.length)
  byte := splice f.byte pos bs
  beyond p hp := by
    split at hp
    · rename_i hnil
      rw [hnil, splice_nil]
      exact f.beyond p hp
    · rw [splice_outside _ _ _ (by omega)]
      exact f.beyond p (by omega)

@[simp] theorem byte_fwrite : (f.fwrite pos bs).byte = splice f.byte pos bs := rfl

theorem size_fwrite (h : bs ≠ []) : (f.fwrite pos bs).size = max f.size (pos + bs.length) :=
  if_neg h

theorem le_size_fwrite : f.size ≤ (f.fwrite pos bs).size := by
  rw [fwrite]
  dsimp only
  split <;> omega

theorem end_le_size_fwrite (h : bs ≠ []) : pos + bs.length ≤ (f.fwrite pos bs).size := by
  rw [size_fwrite _ _ _ h]
  omega

/-- A file without entries. -/
def empty : SparseFile β := ⟨0, fun _ => 0, fun _ _ => rfl⟩

/-- The file cut off or filled up with zeros to a size. -/
def resize : SparseFile β where
  size := n
  byte p := if p < n then f.byte p else 0
  beyond _ hp := if_neg (Nat.not_lt.mpr hp)

/-- Writes to separate places commute. -/
theorem fwrite_comm {as} (h : pos + bs.length ≤ q ∨ q + as.length ≤ pos) :
    (f.fwrite pos bs).fwrite q as = (f.fwrite q as).fwrite pos bs := by
  refine SparseFile.ext ?_ (splice_comm _ _ _ _ h)
  simp only [fwrite]
  split <;> split <;> omega

variable {f pos n}

/-- Inside the file everything that is asked for arrives. -/
theorem fread_eq (h : pos + n ≤ f.size) : f.fread pos n = slice f.byte pos n := by
  rw [fread, Nat.min_eq_left (by omega)]

theorem length_fread : (f.fread pos n).length = min n (f.size - pos) := length_slice _ _ _

theorem head?_fread_one (p : Nat) :
    (f.fread p 1).head? = if p < f.size then some (f.byte p) else none := by
  rw [fread]
  split
  · rw [Nat.min_eq_left (by omega)]
    rfl
  · rw [Nat.sub_eq_zero_of_le (by omega), Nat.min_zero]
    rfl

end SparseFile

end Splice
