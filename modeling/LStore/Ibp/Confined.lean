import LStore.Ibp.Commands
import Mathlib.Algebra.Order.Ring.Int

/-!
# Confinement of capabilities

A capability has a window of the master's data bytes. The handlers compare the end of a range
with the end of the window and nothing else, so a command stays inside exactly when its fields
keep the range from starting below the window or wrapping around; for a copy inside the depot the
remote alias and the `int` variables have to be harmless as well.
-/

namespace LStore.Ibp

open MachineInt

open List

variable {es : List Ele} {iov : List (Int64 × UInt64)}

/-- The data bytes a capability is good for. -/
structure Window where
  lo : Int
  hi : Int

/-- The window of a capability: all of the allocation, or the part of the alias range that is
in it. The fields of the alias are taken as the signed numbers they were asked for with. -/
def Cap.window (c : Cap) : Window :=
  match c.aliasOf with
  | none => ⟨0, c.master.maxSize⟩
  | some v => ⟨max 0 (i64 v.offset.toNat), if v.size = 0 then c.master.maxSize
      else min c.master.maxSize (i64 v.offset.toNat + i64 v.size.toNat)⟩

/-- An access touches only bytes of the window. One of negative length reaches the disk layer as a
length of almost 2 to the 64 and is not inside any window. -/
def Inside (w : Window) (e : Ele) : Prop :=
  e.len = 0 ∨ (0 < e.len ∧ w.lo ≤ e.off ∧ e.off + e.len ≤ w.hi)

instance (w : Window) (e : Ele) : Decidable (Inside w e) :=
  inferInstanceAs (Decidable (_ ∨ _))

/-- The alias range of a capability is one of nonnegative 64-bit numbers. -/
def Cap.Proper (c : Cap) : Prop :=
  ∀ v ∈ c.aliasOf, 0 ≤ i64 v.offset.toNat ∧ 0 ≤ i64 v.size.toNat ∧
    i64 v.offset.toNat + i64 v.size.toNat < 9223372036854775808

theorem Cap.window_lo_nonneg (c : Cap) : 0 ≤ c.window.lo := by
  obtain ⟨m, _ | v⟩ := c
  · exact Int.le_refl 0
  · exact Int.le_max_left _ _

theorem Cap.window_hi_lt (c : Cap) : c.window.hi < 9223372036854775808 := by
  obtain ⟨m, _ | v⟩ := c
  · exact m.maxSize_lt
  · have hmax := m.maxSize_lt
    simp only [Cap.window]
    split <;> omega

theorem Cap.Proper.window_lo {c : Cap} (h : c.Proper) :
    0 ≤ c.aliasOffset ∧ c.window.lo = c.aliasOffset := by
  obtain ⟨m, _ | v⟩ := c
  · exact ⟨Int.le_refl 0, rfl⟩
  · exact ⟨(h v rfl).1, max_eq_right (h v rfl).1⟩

/-- The two limits the handlers compare with are the end of the window. -/
theorem Cap.Proper.window_hi {c : Cap} (h : c.Proper) :
    c.window.hi = min c.master.maxSize c.aliasEnd := by
  obtain ⟨m, _ | v⟩ := c
  all_goals
    have hmax := m.maxSize_lt
    have hmin := m.maxSize_nonneg
  · simp only [Cap.window, Cap.aliasEnd, Cap.aliasOffset, Cap.aliasLen, i64]
    omega
  · obtain ⟨hoff, hsize, hend⟩ := h v rfl
    simp only [Cap.window, Cap.aliasEnd, Cap.aliasOffset, Cap.aliasLen]
    generalize i64 v.offset.toNat = off at *
    generalize i64 v.size.toNat = size at *
    unfold i64
    split <;> omega

theorem endsWithin_iff {c} (h : c.Proper) (e : Ele) :
    endsWithin c e = true ↔ i64 (e.off + e.len) ≤ c.window.hi := by
  rw [h.window_hi]
  simp only [endsWithin, Bool.and_eq_true, Bool.not_eq_true', decide_eq_false_iff_not, Int.not_lt,
    gt_iff_lt, le_min_iff]

/-- The fields of one element keep its range from starting below the window or wrapping. -/
def Sane (c : Cap) (e : Ele) : Prop :=
  0 ≤ e.off ∧ 0 < e.len ∧ e.off + c.aliasOffset + e.len < 9223372036854775808

/-- What the parsers store: 64-bit values, and a length other than 0. -/
def Stored (e : Ele) : Prop :=
  -9223372036854775808 ≤ e.off ∧ e.off < 9223372036854775808 ∧ e.len ≠ 0 ∧
    -9223372036854775808 ≤ e.len ∧ e.len < 9223372036854775808

/-- A range that passed the checks on its end lies in the window exactly when its fields are
sane. -/
theorem inside_shift_iff {c e} (hc : c.Proper) (hst : Stored e)
    (hend : endsWithin c (e.shift c.aliasOffset) = true) :
    Inside c.window (e.shift c.aliasOffset) ↔ Sane c e := by
  rw [endsWithin_iff hc] at hend
  obtain ⟨hao, hlo⟩ := hc.window_lo
  have hhi := c.window_hi_lt
  obtain ⟨h₁, h₂, h₃, h₄, h₅⟩ := hst
  unfold Inside Sane
  simp only [Ele.shift] at hend ⊢
  generalize c.window.hi = hi at *
  generalize c.window.lo = lo at *
  generalize c.aliasOffset = ao at *
  unfold i64 at hend ⊢
  omega

theorem inside_all_iff {c} (hc : c.Proper) (hst : ∀ e ∈ es, Stored e)
    (hend : ∀ e ∈ es, endsWithin c (e.shift c.aliasOffset) = true) :
    (∀ r ∈ es.map (·.shift c.aliasOffset), Inside c.window r) ↔ ∀ e ∈ es, Sane c e := by
  rw [forall_mem_map]
  exact forall₂_congr fun e he => inside_shift_iff hc (hst e he) (hend e he)

theorem readLen_stored {len n} (h : readLen len = some n) :
    n ≠ 0 ∧ -9223372036854775808 ≤ n ∧ n < 9223372036854775808 := by
  unfold readLen at h
  have hlt := len.toNat_lt
  split at h
  · simp at h
  · obtain rfl := Option.some.inj h
    unfold i64
    omega

theorem int64_range (off : Int64) :
    -9223372036854775808 ≤ off.toInt ∧ off.toInt < 9223372036854775808 := by
  have hge := off.le_toInt
  have hlt := off.toInt_lt
  omega

theorem readEle_stored {x e} (h : readEle x = some e) : Stored e := by
  unfold readEle at h
  split at h
  · simp at h
  · obtain ⟨n, hn, rfl⟩ := Option.map_eq_some_iff.1 h
    have hoff := int64_range x.1
    exact ⟨hoff.1, hoff.2, readLen_stored hn⟩

theorem mapM_stored (h : iov.mapM readEle = some es) : ∀ e ∈ es, Stored e := by
  induction iov generalizing es with
  | nil =>
    cases h
    exact forall_mem_nil _
  | cons x iov ih =>
    simp only [mapM_cons, Option.bind_eq_bind, Option.bind_eq_some_iff, Option.pure_def,
      Option.some.injEq] at h
    obtain ⟨e, he, es, hes, rfl⟩ := h
    exact forall_mem_cons.2 ⟨readEle_stored he, ih hes⟩

theorem readVec_stored (h : readVec iov = some es) : ∀ e ∈ es, Stored e := by
  unfold readVec at h
  split_ifs at h
  exact mapM_stored h

theorem single_stored {off len} (hlo : -9223372036854775808 ≤ off)
    (hhi : off < 9223372036854775808) (h : (readLen len).map (fun n => [⟨off, n⟩]) = some es) :
    ∀ e ∈ es, Stored e := by
  obtain ⟨n, hn, rfl⟩ := Option.map_eq_some_iff.1 h
  intro e he
  obtain rfl := mem_singleton.1 he
  exact ⟨hlo, hhi, readLen_stored hn⟩

/-- Every element `read_write` accepts is one of 64-bit fields. -/
theorem readWrite_stored {cmd} (h : readWrite cmd = some es) : ∀ e ∈ es, Stored e := by
  cases cmd with
  | write off len => exact mapM_stored h
  | store len => exact single_stored (by decide) (by decide) h
  | vecWrite iov => exact readVec_stored h

/-- Every element `read_read` accepts is one of 64-bit fields. -/
theorem readRead_stored {cmd} (h : readRead cmd = some es) : ∀ e ∈ es, Stored e := by
  cases cmd with
  | load off len => exact single_stored (int64_range off).1 (int64_range off).2 h
  | vecRead iov => exact readVec_stored h

theorem appendOff_stored {a} (h : ∀ e ∈ es, Stored e) : ∀ e ∈ appendOff a es, Stored e := by
  cases es with
  | nil => exact h
  | cons e es =>
    obtain ⟨⟨hlo, hhi, hlen⟩, hes⟩ := forall_mem_cons.1 h
    rw [appendOff]
    split
    · have hsize : -9223372036854775808 ≤ a.size := Int.le_trans (by decide) a.size_nonneg
      exact forall_mem_cons.2 ⟨⟨hsize, a.size_lt, hlen⟩, hes⟩
    · exact h

/-- The checks by which `handle_write` refuses a command. -/
def WriteRefused (c : Cap) (es : List Ele) : Prop :=
  (appendMode es = true ∧ c.aliasOffset ≠ 0 ∧ c.aliasLen ≠ 0) ∨
    ∃ e ∈ appendOff c.master es, endsWithin c (e.shift c.aliasOffset) = false

theorem handleWrite_eq (c : Cap) (es : List Ele) :
    (WriteRefused c es ∧ handleWrite c es = none) ∨
      ((∀ e ∈ appendOff c.master es, endsWithin c (e.shift c.aliasOffset) = true) ∧
        ¬ WriteRefused c es ∧
        handleWrite c es = some ((appendOff c.master es).map (·.shift c.aliasOffset))) := by
  unfold handleWrite
  by_cases happ : appendMode es = true ∧ c.aliasOffset ≠ 0 ∧ c.aliasLen ≠ 0
  · exact .inl ⟨.inl happ, if_pos happ⟩
  rw [if_neg happ]
  by_cases hall : ∀ e ∈ appendOff c.master es, endsWithin c (e.shift c.aliasOffset) = true
  · refine .inr ⟨hall, ?_, if_pos (by simpa using hall)⟩
    rintro (h | ⟨e, he, h⟩)
    · exact happ h
    · exact Bool.noConfusion (h.symm.trans (hall e he))
  · refine .inl ⟨.inr ?_, if_neg (by simpa using hall)⟩
    simpa using hall

/-- The checks by which `handle_read` refuses a command. -/
def ReadRefused (c : Cap) (es : List Ele) : Prop :=
  ∃ e ∈ es, endsWithin c (e.shift c.aliasOffset) = false ∨
    c.master.size < i64 ((e.shift c.aliasOffset).off + e.len)

theorem handleRead_eq (c : Cap) (es : List Ele) :
    (ReadRefused c es ∧ handleRead c es = none) ∨
      ((∀ e ∈ es, endsWithin c (e.shift c.aliasOffset) = true) ∧ ¬ ReadRefused c es ∧
        handleRead c es = some (es.map (·.shift c.aliasOffset))) := by
  by_cases hall : ∀ e ∈ es, endsWithin c (e.shift c.aliasOffset) = true ∧
      i64 ((e.shift c.aliasOffset).off + e.len) ≤ c.master.size
  · refine .inr ⟨fun e he => (hall e he).1, ?_, if_pos (by simpa [Ele.shift] using hall)⟩
    rintro ⟨e, he, h | h⟩
    · exact Bool.noConfusion (h.symm.trans (hall e he).1)
    · exact not_lt_of_ge (hall e he).2 h
  · refine .inl ⟨?_, if_neg (by simpa [Ele.shift] using hall)⟩
    simp only [not_forall, not_and, Int.not_le] at hall
    obtain ⟨e, he, h⟩ := hall
    exact ⟨e, he, (Bool.eq_false_or_eq_true _).symm.imp_right h⟩

/-- What is left of the current element and all later elements lie in the window. -/
structure Cursor.Ok (w : Window) (c : Cursor) : Prop where
  here : Inside w ⟨c.ioff, c.ileft⟩
  later : ∀ e ∈ c.rest, Inside w e

theorem Cursor.access_inside {w} {c : Cursor} (h : c.Ok w) (room : Nat) :
    Inside w (c.access room) := by
  have hhere := h.here
  unfold Inside Cursor.access at *
  dsimp only at *
  omega

section

variable {w : Window} (hlo : 0 ≤ w.lo) (hhi : w.hi < 9223372036854775808)
include hlo hhi

/-- The transfer is taken up inside the element that holds the next byte. The cumulative lengths
may have wrapped, but then the element is not chosen. -/
theorem iovecStart_ok {total : Nat} {all} (hall : ∀ e ∈ all, Inside w e)
    (hes : ∀ e ∈ es, Inside w e) {prev : Int} (h0 : -9223372036854775808 ≤ prev)
    (hprev : prev ≤ total) : (iovecStart total all prev es).Ok w := by
  induction es generalizing prev with
  | nil => exact ⟨.inl rfl, hall⟩
  | cons e es ih =>
    obtain ⟨he, hes⟩ := forall_mem_cons.1 hes
    unfold iovecStart
    dsimp only
    split
    · next hlt =>
        refine ⟨?_, hes⟩
        unfold Inside at he ⊢
        dsimp only
        unfold i64 at hlt ⊢
        omega
    · next hge => exact ih hes (i64_ge _) (Int.not_lt.1 hge)

theorem Cursor.next_ok {c : Cursor} (h : c.Ok w) (room : Nat) : (c.next room).Ok w := by
  obtain ⟨ioff, ileft, rest⟩ := c
  have hmoved : Inside w ⟨i64 (ioff + (Cursor.access ⟨ioff, ileft, rest⟩ room).len),
      i64 (ileft - (Cursor.access ⟨ioff, ileft, rest⟩ room).len)⟩ := by
    have hhere := h.here
    unfold Inside at *
    dsimp only [Cursor.access] at *
    unfold i64
    omega
  cases rest with
  | nil => exact ⟨hmoved, h.later⟩
  | cons e es =>
    unfold Cursor.next
    dsimp only
    split
    · exact ⟨h.later e mem_cons_self, fun x hx => h.later x (mem_cons_of_mem e hx)⟩
    · exact ⟨hmoved, h.later⟩

theorem Cursor.accesses_inside {c : Cursor} (h : c.Ok w) (rooms : List Nat) :
    ∀ e ∈ c.accesses rooms, Inside w e := by
  induction rooms generalizing c with
  | nil => exact forall_mem_nil _
  | cons room rooms ih =>
    exact forall_mem_cons.2 ⟨Cursor.access_inside h room,
      ih (Cursor.next_ok hlo hhi h room)⟩

/-- Whatever the network does, a transfer of ranges inside the window stays inside it. -/
theorem transfer_inside {ranges : List Ele} (h : ∀ e ∈ ranges, Inside w e) (total : Nat)
    (rooms : List Nat) : ∀ e ∈ transfer ranges total rooms, Inside w e :=
  Cursor.accesses_inside hlo hhi
    (iovecStart_ok hlo hhi h h (by decide) (Int.natCast_nonneg total)) rooms

end

end LStore.Ibp
