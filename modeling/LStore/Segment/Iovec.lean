import Mathlib.Data.UInt

/-!
# Requests of a segment

A vectored request names ranges of the segment. Their bytes lie one after another in
the buffer, from the buffer offset of the request on.
-/

namespace LStore.Segment

open List

abbrev Byte := UInt8

/-- `ex_tbx_iovec_t`. -/
structure ExIovec where
  offset : Int
  len : Int
deriving DecidableEq, Repr

/-- The ranges with their positions in the buffer. -/
def placed : Int → List ExIovec → List (ExIovec × Int)
  | _, [] => []
  | pos, v :: iov => (v, pos) :: placed (pos + v.len) iov

/-- The total length of the ranges. -/
def totalLen (iov : List ExIovec) : Int := (iov.map ExIovec.len).sum

variable {iov : List ExIovec} {boff pos : Int} {v w : ExIovec}

theorem mem_of_placed (h : (v, pos) ∈ placed boff iov) : v ∈ iov := by
  induction iov generalizing boff with
  | nil => simp [placed] at h
  | cons w iov ih =>
    rcases mem_cons.mp h with heq | h
    · rw [(Prod.mk.inj heq).1]
      exact mem_cons_self
    · exact mem_cons_of_mem w (ih h)

theorem exists_placed (boff : Int) (hv : v ∈ iov) : ∃ pos, (v, pos) ∈ placed boff iov := by
  induction iov generalizing boff with
  | nil => simp at hv
  | cons w iov ih =>
    rcases mem_cons.mp hv with rfl | hv
    · exact ⟨boff, mem_cons_self⟩
    · obtain ⟨pos, hpos⟩ := ih (boff + w.len) hv
      exact ⟨pos, mem_cons_of_mem _ hpos⟩

theorem le_of_placed (hlen : ∀ v ∈ iov, 0 ≤ v.len) (h : (v, pos) ∈ placed boff iov) :
    boff ≤ pos := by
  induction iov generalizing boff with
  | nil => simp [placed] at h
  | cons w iov ih =>
    rcases mem_cons.mp h with heq | h
    · rw [(Prod.mk.inj heq).2]
    · have := ih (fun v hv => hlen v (by simp [hv])) h
      have := hlen w (by simp)
      omega

/-- A position of the buffer belongs to one range. -/
theorem placed_unique (hlen : ∀ v ∈ iov, 0 ≤ v.len) {pos' q} (h : (v, pos) ∈ placed boff iov)
    (h' : (w, pos') ∈ placed boff iov) (hq : pos ≤ q ∧ q < pos + v.len)
    (hq' : pos' ≤ q ∧ q < pos' + w.len) : (v, pos) = (w, pos') := by
  induction iov generalizing boff with
  | nil => simp [placed] at h
  | cons u iov ih =>
    have htail : ∀ v ∈ iov, 0 ≤ v.len := (forall_mem_cons.mp hlen).2
    rcases mem_cons.mp h with heq | hmem
    · rcases mem_cons.mp h' with heq' | hmem'
      · rw [heq, heq']
      · cases heq
        have := le_of_placed htail hmem'
        omega
    · rcases mem_cons.mp h' with heq' | hmem'
      · cases heq'
        have := le_of_placed htail hmem
        omega
      · exact ih htail hmem hmem'

end LStore.Segment
