import LStore.Base.ByteSpan
import Mathlib.Algebra.Order.Ring.Int

/-!
# Direct transfers of a cached request

`cache_rw_direct` moves the whole pages of a request past the cache, and pushes what is left of the
request at both ends for the pages of the cache to serve.
-/

namespace LStore.Cache

open List ByteSpan

/-- `lio_cache_range_t`. -/
structure CacheRange where
  lo : Int
  hi : Int
  boff : Int
  iovIndex : Nat
deriving DecidableEq, Repr

/-- The bytes of a segment from `lo` up to `stop`, each with its place in the buffer. -/
def buffered (lo stop boff : Int) : List (Int × Int) :=
  (span lo stop).map fun x => (x, boff + (x - lo))

def CacheRange.bytes (r : CacheRange) : List (Int × Int) := buffered r.lo (r.hi + 1) r.boff

theorem buffered_append {a b c d e : Int} (hab : a ≤ b) (hbc : b ≤ c) (he : e = d + (b - a)) :
    buffered a b d ++ buffered b c e = buffered a c d := by
  have hmap : buffered b c e = (span b c).map fun x => (x, d + (x - a)) := by
    refine map_congr_left fun x _ => Prod.ext rfl ?_
    simp only
    omega
  rw [hmap, buffered, buffered, ← map_append, span_append hab hbc]

theorem mem_buffered {x y lo stop boff : Int} :
    (x, y) ∈ buffered lo stop boff ↔ (lo ≤ x ∧ x < stop) ∧ y = boff + (x - lo) := by
  simp only [buffered, mem_map, mem_span, Prod.mk.injEq]
  constructor
  · rintro ⟨z, hz, rfl, rfl⟩
    exact ⟨hz, rfl⟩
  · rintro ⟨hx, rfl⟩
    exact ⟨x, hx, rfl, rfl⟩

/-- What `cache_rw_direct` does: the operation on the child, and the ranges it pushes. -/
structure DirectRw where
  off : Int
  nbytes : Int
  bpos : Int
  pushed : List CacheRange

def DirectRw.bytes (d : DirectRw) : List (Int × Int) := buffered d.off (d.off + d.nbytes) d.bpos

/-- `cache_rw_direct`, with the outcome of the operation on the child. -/
def cacheRwDirect (pageSize : Nat) (minDirect : Int) (lo hi bpos iovSlot : Nat) (ok : Bool) :
    Option DirectRw :=
  if minDirect < 0 then none
  else
    let skipBytes := if 0 < lo % pageSize then pageSize - lo % pageSize else 0
    let first : Int := (lo / pageSize : Nat) + if 0 < lo % pageSize then 1 else 0
    let last : Int := (hi / pageSize : Nat) - if 0 < hi % pageSize then 1 else 0
    let loPage := first * pageSize
    let nbytes := (last - first + 1) * pageSize
    if nbytes < minDirect then none
    else
      let hiPage := last * pageSize + pageSize
      let pushed :=
        (if 0 < hi % pageSize then [⟨hiPage, hi, bpos + (hiPage - lo), iovSlot⟩] else []) ++
          if 0 < skipBytes then [⟨lo, loPage - 1, bpos, iovSlot⟩] else []
      some ⟨loPage, nbytes, bpos + skipBytes, if ok then pushed else []⟩

/-- The operation keeps to the request, and with the ranges pushed makes up the request. -/
def DirectRw.Within (d : DirectRw) (lo hi bpos : Nat) (ok : Bool) : Prop :=
  d.bytes ⊆ buffered lo (hi + 1) bpos ∧
    (ok = true → (d.bytes ++ d.pushed.flatMap CacheRange.bytes).Perm (buffered lo (hi + 1) bpos))

/-- The first page boundary that is not in front of `x`. -/
def pageUp (pageSize x : Nat) : Nat := x + (pageSize - x % pageSize) % pageSize

/-- Where the pages end that are moved directly. -/
def directEnd (pageSize hi : Nat) : Nat :=
  if 0 < hi % pageSize then hi - hi % pageSize else hi + pageSize

section PageBounds

variable {pageSize : Nat} (hpage : 0 < pageSize)
include hpage

theorem pageUp_eq (x : Nat) : pageUp pageSize x =
    x + if 0 < x % pageSize then pageSize - x % pageSize else 0 := by
  rw [pageUp]
  split
  · rw [Nat.mod_eq_of_lt (by omega)]
  · rw [show x % pageSize = 0 by omega, Nat.sub_zero, Nat.mod_self]

theorem pageUp_le {x y : Nat} (hle : x ≤ y) (hy : y % pageSize = 0) : pageUp pageSize x ≤ y := by
  obtain ⟨k, rfl⟩ := Nat.dvd_of_mod_eq_zero hy
  have hx := Nat.div_add_mod x pageSize
  rw [pageUp_eq hpage]
  split_ifs with hpart
  · have hne : x ≠ pageSize * k := fun h => by simp [h] at hpart
    have hdiv : x / pageSize + 1 ≤ k := Nat.div_lt_of_lt_mul (by omega)
    have hmul := Nat.mul_le_mul_left pageSize hdiv
    rw [Nat.mul_add] at hmul
    omega
  · exact hle

theorem cacheRwDirect_eq (minDirect : Int) (lo hi bpos iovSlot : Nat)
    (ok : Bool) : cacheRwDirect pageSize minDirect lo hi bpos iovSlot ok =
      if minDirect < 0 ∨ (directEnd pageSize hi - pageUp pageSize lo : Int) < minDirect then none
      else some ⟨pageUp pageSize lo, directEnd pageSize hi - pageUp pageSize lo,
        bpos + (pageUp pageSize lo - lo : Nat), if ok then
          (if 0 < hi % pageSize then [⟨directEnd pageSize hi, hi,
            bpos + (directEnd pageSize hi - lo), iovSlot⟩] else []) ++
          if 0 < pageUp pageSize lo - lo then [⟨lo, pageUp pageSize lo - 1, bpos, iovSlot⟩] else []
          else []⟩ := by
  have hlo := Nat.div_add_mod' lo pageSize
  have hhi := Nat.div_add_mod' hi pageSize
  have hmod := Nat.mod_lt lo hpage
  have hfirst : ((lo / pageSize : Nat) + if 0 < lo % pageSize then 1 else 0 : Int) * pageSize =
      pageUp pageSize lo := by
    rw [pageUp_eq hpage, Int.add_mul, ← Int.natCast_mul]
    split <;> omega
  have hlast : ((hi / pageSize : Nat) - if 0 < hi % pageSize then 1 else 0 : Int) * pageSize +
      pageSize = directEnd pageSize hi := by
    rw [directEnd, Int.sub_mul, ← Int.natCast_mul]
    split <;> omega
  have hskip : (if 0 < lo % pageSize then pageSize - lo % pageSize else 0) =
      pageUp pageSize lo - lo := by
    rw [pageUp_eq hpage]
    omega
  have hbytes : ((hi / pageSize : Nat) - (if 0 < hi % pageSize then 1 else 0) -
      ((lo / pageSize : Nat) + if 0 < lo % pageSize then 1 else 0) + 1 : Int) * pageSize =
      directEnd pageSize hi - pageUp pageSize lo := by
    rw [Int.add_mul, Int.sub_mul, hfirst, ← hlast]
    omega
  simp only [cacheRwDirect, hfirst, hlast, hskip, hbytes, ite_or]

end PageBounds

/-- It makes no difference whether an empty range is pushed. -/
theorem bytes_pushed {c : Prop} [Decidable c] {lo hi boff : Int} (i : Nat) (h : ¬ c → hi < lo) :
    (if c then [⟨lo, hi, boff, i⟩] else []).flatMap CacheRange.bytes = buffered lo (hi + 1) boff := by
  split_ifs with hc
  · simp [CacheRange.bytes]
  · rw [buffered, span_eq_nil (h hc)]
    rfl

/-- A direct transfer keeps to its request unless the request ends with the first byte of a page:
that page counts as a whole one, and the bytes behind the request are moved with it. -/
theorem direct_within_iff (pageSize : Nat) (minDirect : Int) (lo hi bpos iovSlot : Nat) (ok : Bool)
    (hpage : 1 ≤ pageSize) (hle : lo ≤ hi) :
    (∀ d ∈ cacheRwDirect pageSize minDirect lo hi bpos iovSlot ok, d.Within lo hi bpos ok) ↔
      (0 ≤ minDirect → 1 < pageSize → hi % pageSize = 0 →
        (hi + pageSize - pageUp pageSize lo : Int) < minDirect) := by
  have hup : lo ≤ pageUp pageSize lo := Nat.le_add_right _ _
  have hmod := Nat.mod_le hi pageSize
  have hend : directEnd pageSize hi = if 0 < hi % pageSize then hi - hi % pageSize
    else hi + pageSize := rfl
  rw [cacheRwDirect_eq hpage]
  split
  · simp only [Option.not_mem_none, false_implies, implies_true, true_iff]
    split at hend <;> omega
  simp only [Option.mem_some, forall_eq', DirectRw.Within, DirectRw.bytes, add_sub_cancel]
  constructor
  · intro ⟨hsub, _⟩ hmin hone hzero
    have hle_hi := pageUp_le hpage hle hzero
    rw [if_neg (by omega)] at hend
    have hin : (_, _) ∈ buffered (pageUp pageSize lo) (directEnd pageSize hi)
        (bpos + (pageUp pageSize lo - lo : Nat)) :=
      mem_buffered (x := hi + pageSize - 1).mpr ⟨by omega, rfl⟩
    have := (mem_buffered.mp (hsub hin)).1
    omega
  · intro h
    have hsub : buffered (pageUp pageSize lo) (directEnd pageSize hi)
        (bpos + (pageUp pageSize lo - lo : Nat)) ⊆ buffered lo (hi + 1) bpos := by
      rintro ⟨x, y⟩ hxy
      rw [mem_buffered] at hxy ⊢
      split at hend <;> omega
    refine ⟨hsub, ?_⟩
    rintro rfl
    rw [if_pos rfl, flatMap_append, bytes_pushed iovSlot (by split at hend <;> omega),
      bytes_pushed iovSlot (by omega), ← append_assoc, sub_add_cancel,
      buffered_append (by omega) (by split at hend <;> omega) (by omega)]
    refine perm_append_comm.trans (.of_eq (buffered_append (by omega) ?_ (by omega)))
    split at hend <;> omega

theorem direct_within_two :
    (1 ≤ 4 ∧ 3 ≤ 9) ∧ ∀ d ∈ cacheRwDirect 4 0 3 9 0 0 true, d.Within 3 9 0 true :=
  ⟨by decide, (direct_within_iff 4 0 3 9 0 0 true (by decide) (by decide)).mpr (by decide)⟩

theorem direct_past_request :
    ¬ ∀ d ∈ cacheRwDirect 4 0 0 4 0 0 true, d.Within 0 4 0 true := by
  intro h
  have hin := (h _ rfl).1 (show (7, 7) ∈ _ by decide)
  exact absurd hin (by decide)

end LStore.Cache
