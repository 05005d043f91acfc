import LStore.Lun.Decompose
import Mathlib.Algebra.BigOperators.Ring.Finset

/-!
# Where the bytes of a row request go

A decomposition hands every byte of a row request to one device, at the place the
rotation of the stripes gives it, and nothing else.
-/

namespace LStore.Lun

open ByteSpan LStore.Toolbox
open List hiding mem_range span
open Finset

/-- What a decomposition of `[start, start + rwlen)` adds to the device requests: to
each at most one extent and pieces of its length, and for each byte the place on its
device and in that device's stream of pieces. -/
structure RowDecomposed (g : Geometry) (nShift : Nat) (buffer : Tbuf) (start bpos rwlen : Int)
    (old new : Nat → LunRwRow) (exs : Nat → List ExIovec) (pieces : Nat → List Iovec) : Prop where
  added : ∀ i < g.nDevices, new i =
    ⟨(old i).exIov ++ exs i, (old i).iov ++ pieces i, (old i).len + ((exs i).map (·.len)).sum⟩
  extent : ∀ i < g.nDevices, (exs i).length ≤ 1
  collected : ∀ i < g.nDevices, (totalLen (pieces i) : Int) = ((exs i).map (·.len)).sum
  total : ∑ i ∈ Finset.range g.nDevices, ((exs i).map (·.len)).sum = rwlen
  placed : ∀ x, start ≤ x → x < start + rwlen → ∃ i < g.nDevices,
    (∀ j < g.nDevices, ((j : Int) + x / g.stripeSize * nShift) % g.nDevices =
      x % g.stripeSize / g.chunkSize ↔ j = i) ∧
    ∃ offset len, exs i = [⟨offset, len⟩] ∧ ∃ p : Nat, (p : Int) < len ∧
      offset + p = x / g.stripeSize * g.chunkSize + x % g.chunkSize ∧
      (addresses (pieces i))[p]? = (addresses buffer.iov)[(bpos + (x - start)).toNat]?

variable {g : Geometry} {nShift : Nat} {buffer : Tbuf} {start bpos rwlen : Int}

/-- Sorting a list by a key below `n` loses nothing. -/
theorem sum_length_filter {α} (key : α → Nat) {n} (l : List α) (h : ∀ a ∈ l, key a < n) :
    ∑ i ∈ Finset.range n, (l.filter fun a => decide (key a = i)).length = l.length := by
  simp only [← countP_eq_length_filter]
  induction l with
  | nil => simp
  | cons a l ih =>
    obtain ⟨ha, h'⟩ := forall_mem_cons.mp h
    simp only [countP_cons, decide_eq_true_eq, sum_add_distrib]
    rw [ih h', sum_ite_eq, if_pos (mem_range.mpr ha), length_cons]

/-- The pairs of a request: each byte with its address. -/
theorem mem_paired {α : Type*} {as : List α} {b : Nat} {u v x} (hux : u ≤ x) (hxv : x < v)
    (hb : b + (v - u).toNat ≤ as.length) :
    ∃ a, as[b + (x - u).toNat]? = some a ∧ (x, a) ∈ paired as b u v := by
  have hlt : b + (x - u).toNat < as.length := by omega
  refine ⟨as[b + (x - u).toNat], List.getElem?_eq_getElem hlt, ?_⟩
  rw [← paired_append hux (Int.le_of_lt hxv) hb]
  refine mem_append_right _ ?_
  have hsome : (v - x).toNat = (v - x - 1).toNat + 1 := by omega
  rw [paired, span_cons hxv, drop_eq_getElem_cons hlt, hsome, take_succ_cons,
    zip_cons_cons]
  exact mem_cons_self

/-- A pair of a zip, by its index in a run of positions. -/
theorem exists_getElem_of_mem_zip {as : List Int} {offset len : Int} {q}
    (h : q ∈ (span offset (offset + len)).zip as) :
    ∃ n : Nat, (n : Int) < len ∧ offset + n = q.1 ∧ as[n]? = some q.2 := by
  obtain ⟨n, hn, hq⟩ := mem_iff_getElem.mp h
  rw [length_zip, length_span] at hn
  refine ⟨n, by omega, ?_, ?_⟩
  · rw [← hq, getElem_zip]
    simp [span]
  · rw [← hq, getElem_zip, List.getElem?_eq_getElem (by omega)]

/-- A closed device request has an extent for the bytes gathered, if there are any. -/
theorem Gathered.exists_extent {old r : LunRwRow} {target : List (Int × Int)} {p}
    (h : Gathered old target r p) :
    ∃ exs ps, closePart r p =
        ⟨old.exIov ++ exs, old.iov ++ ps, old.len + (exs.map (·.len)).sum⟩ ∧
      exs.length ≤ 1 ∧ (totalLen ps : Int) = (exs.map (·.len)).sum ∧
      (exs.map (·.len)).sum = target.length ∧
      ∀ q ∈ target, ∃ offset len, exs = [⟨offset, len⟩] ∧ ∃ n : Nat, (n : Int) < len ∧
        offset + n = q.1 ∧ (addresses ps)[n]? = some q.2 := by
  have htarget := h.length_target
  obtain ⟨ps, rfl, hlen, hzip, ⟨hnone, rfl⟩ | ⟨hoff, _⟩⟩ := h.pieces
  · have hempty : target = [] := by
      rw [← length_eq_zero_iff]
      have := h.fresh hnone
      omega
    refine ⟨[], [], ?_, by simp, by simp, by simp [hempty], by simp [hempty]⟩
    rw [closePart, if_neg (by omega)]
    simp
  · refine ⟨[⟨p.offset, p.len⟩], ps, ?_, by simp, by simpa using hlen, by simp [htarget], ?_⟩
    · rw [closePart, if_pos hoff]
      simp
    · intro q hq
      rw [← hzip] at hq
      exact ⟨p.offset, p.len, rfl, exists_getElem_of_mem_zip hq⟩

end LStore.Lun
