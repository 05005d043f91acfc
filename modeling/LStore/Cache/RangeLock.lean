import Mathlib.Data.List.Nodup
import LStore.Base.Reach

/-!
# Range locks of direct I/O

Locks that are held and locks that are waited for stand on two stacks, writers on top and
readers at the bottom, each with a priority from a counter. A lock is granted when neither
stack has a conflicting one of lower priority. A call runs under the lock of the segment up to
its wait, so that calls and wake-ups take effect one after another.
-/

namespace LStore.Cache.Dio

open Base.Reach List
open Option hiding all_eq_true

/-- `CACHE_READ` and `CACHE_WRITE`. -/
inductive Mode where
  | read
  | write
deriving DecidableEq, Repr

/-- `dio_range_lock_t`, named by the stack element of its call. -/
structure RangeLock where
  id : Nat
  lo : Int
  hi : Int
  priority : Int
  rwMode : Mode
deriving DecidableEq, Repr

/-- A lock of lower priority that passes the range test of the checks. -/
def hits (r d : RangeLock) : Bool :=
  decide (d.priority < r.priority) && !(decide (d.hi < r.lo) && decide (d.lo > r.hi))

/-- `dio_read_range_check`: from the top down to the first reader. -/
def dioReadRangeCheck (stack : List RangeLock) (r : RangeLock) : Bool :=
  (stack.takeWhile fun d => d.rwMode = .write).all fun d => !hits r d

/-- `dio_write_range_check`: from the bottom up. -/
def dioWriteRangeCheck (stack : List RangeLock) (r : RangeLock) : Bool :=
  stack.reverse.all fun d => !hits r d

/-- The check of `_dio_read_range_lock` or `_dio_write_range_lock`. -/
def rangeCheck (stack : List RangeLock) (r : RangeLock) : Bool :=
  match r.rwMode with
  | .read => dioReadRangeCheck stack r
  | .write => dioWriteRangeCheck stack r

/-- Readers are linked in at the bottom, writers on top. -/
def link (stack : List RangeLock) (r : RangeLock) : List RangeLock :=
  match r.rwMode with
  | .read => stack ++ [r]
  | .write => r :: stack

/-- The part of the segment the locks are kept in; the tops of the stacks come first. -/
structure Queues where
  priorityCounter : Int
  pending : List RangeLock
  execing : List RangeLock

/-- The loop over the pending locks after a wraparound, from the bottom up. -/
def renumber : List RangeLock → List RangeLock × Int
  | [] => ([], 0)
  | d :: stack =>
    ({ d with priority := (renumber stack).2 } :: (renumber stack).1, (renumber stack).2 + 1)

/-- The priority after which `dio_range_lock` starts again, `1 << 40`. -/
def priorityLimit : Int := 1099511627776

/-- The test for wraparound in `dio_range_lock`. -/
def Queues.wrap (q : Queues) : Queues :=
  if q.priorityCounter > priorityLimit then
    { q with pending := (renumber q.pending).1, priorityCounter := (renumber q.pending).2 }
  else q

def Queues.mayRun (q : Queues) (r : RangeLock) : Bool :=
  rangeCheck q.execing r && rangeCheck q.pending r

/-- `dio_range_lock` up to its wait, or to its end. -/
def Queues.lock (q : Queues) (r : RangeLock) : Queues :=
  let q := q.wrap
  let r : RangeLock := { r with priority := q.priorityCounter }
  let q : Queues := { q with priorityCounter := q.priorityCounter + 1 }
  if q.mayRun r then { q with execing := link q.execing r }
  else { q with pending := link q.pending r }

/-- The loop body of a waiting `dio_range_lock`. -/
def Queues.wake (q : Queues) (r : RangeLock) : Queues :=
  if q.mayRun r then { q with pending := q.pending.erase r, execing := link q.execing r }
  else q

/-- `dio_range_unlock`. -/
def Queues.unlock (q : Queues) (r : RangeLock) : Queues :=
  { q with execing := q.execing.erase r }

/-- Where a `cache_direct_rw_op` is: in `dio_range_lock`, at its read or its prefetch, at
`_dio_write_merge`, at the label `fail` or behind its return. -/
inductive OpPc where
  | outside
  | lock
  | transfer
  | merge
  | fail
  | returned
deriving DecidableEq, Repr

structure DioState extends Queues where
  op : Nat → OpPc

/-- Calls of the lock functions by themselves and the parts of `cache_direct_rw_op`. -/
inductive DioAct where
  | rangeLock (id : Nat) (lo hi : Int) (rwMode : Mode)
  | wake (r : RangeLock)
  | rangeUnlock (r : RangeLock)
  | directRwOp (id : Nat) (lo hi : Int) (rwMode : Mode)
  | locked (r : RangeLock)
  | transfer (r : RangeLock) (ok : Bool)
  | merge (r : RangeLock) (skipped : Nat)
  | fail (r : RangeLock)
deriving Repr

/-- The element is not in use. -/
def DioState.unused (s : DioState) (id : Nat) : Bool :=
  decide (s.op id = .outside) && (s.execing ++ s.pending).all fun d => d.id ≠ id

def DioState.goto (s : DioState) (id : Nat) (pc : OpPc) : DioState :=
  { s with op := Function.update s.op id pc }

def DioState.step (s : DioState) : DioAct → Option DioState
  | .rangeLock id lo hi rwMode =>
    if s.unused id then some { s with toQueues := s.lock ⟨id, lo, hi, 0, rwMode⟩ } else none
  | .wake r => if r ∈ s.pending then some { s with toQueues := s.wake r } else none
  | .rangeUnlock r =>
    if r ∈ s.execing ∧ s.op r.id = .outside then some { s with toQueues := s.unlock r }
    else none
  | .directRwOp id lo hi rwMode =>
    if s.unused id then
      some ({ s with toQueues := s.lock ⟨id, lo, hi, 0, rwMode⟩ }.goto id .lock)
    else none
  | .locked r =>
    if r ∈ s.execing ∧ s.op r.id = .lock then some (s.goto r.id .transfer) else none
  | .transfer r ok =>
    if r ∈ s.execing ∧ s.op r.id = .transfer then
      match r.rwMode, ok with
      | .write, true => some (s.goto r.id .merge)
      | _, _ => some (s.goto r.id .fail)
    else none
  | .merge r skipped =>
    if r ∈ s.execing ∧ s.op r.id = .merge then
      -- the early return leaves the lock behind
      if 0 < skipped then some (s.goto r.id .returned) else some (s.goto r.id .fail)
    else none
  | .fail r =>
    if r ∈ s.execing ∧ s.op r.id = .fail then
      some ({ s with toQueues := s.unlock r }.goto r.id .returned)
    else none

def DioState.start : DioState :=
  { priorityCounter := 0, pending := [], execing := [], op := fun _ => .outside }

/-- The ranges share a page and one of the two writes. -/
def Conflict (d r : RangeLock) : Prop :=
  (d.lo ≤ r.hi ∧ r.lo ≤ d.hi) ∧ (d.rwMode = .write ∨ r.rwMode = .write)

theorem Conflict.symm {d r} (h : Conflict d r) : Conflict r d :=
  ⟨h.1.symm, h.2.symm⟩

/-- Below a reader there are only readers. -/
def WritersOnTop (stack : List RangeLock) : Prop :=
  stack.Pairwise fun a b => a.rwMode = .read → b.rwMode = .read

theorem WritersOnTop.link {stack : List RangeLock} (h : WritersOnTop stack) (r : RangeLock) :
    WritersOnTop (link stack r) := by
  rw [WritersOnTop, Dio.link]
  cases hr : r.rwMode with
  | read =>
    refine pairwise_append.mpr ⟨h, pairwise_singleton _ _, ?_⟩
    intro a _ b hb _
    rw [mem_singleton.mp hb]
    exact hr
  | write =>
    refine pairwise_cons.mpr ⟨fun a _ hread => ?_, h⟩
    rw [hr] at hread
    simp at hread

theorem mem_link {stack r d} : d ∈ link stack r ↔ d = r ∨ d ∈ stack := by
  rw [link]
  cases r.rwMode with
  | read => simp [or_comm]
  | write => simp

theorem link_perm (stack : List RangeLock) (r : RangeLock) : (link stack r).Perm (r :: stack) := by
  rw [link]
  cases r.rwMode with
  | read => exact perm_append_singleton r stack
  | write => exact .refl _

/-- The walk down to the first reader passes all writers. -/
theorem WritersOnTop.mem_takeWhile {stack} (h : WritersOnTop stack) {d} (hd : d ∈ stack)
    (hw : d.rwMode = .write) : d ∈ stack.takeWhile fun d => d.rwMode = .write := by
  induction stack with
  | nil => exact absurd hd (by simp)
  | cons a stack ih =>
    obtain ⟨hbelow, hrest⟩ := pairwise_cons.mp h
    cases ha : a.rwMode with
    | write =>
      rw [takeWhile_cons_of_pos (by simp [ha])]
      rcases mem_cons.mp hd with rfl | hd
      · exact mem_cons_self
      · exact mem_cons_of_mem _ (ih hrest hd)
    | read =>
      rcases mem_cons.mp hd with rfl | hd
      · exact absurd (ha.symm.trans hw) (by simp)
      · exact absurd ((hbelow d hd ha).symm.trans hw) (by simp)

theorem priority_le_of_not_hits {r d} (h : hits r d = false) (hc : Conflict d r) :
    r.priority ≤ d.priority := by
  rw [hits, Bool.and_eq_false_iff] at h
  rcases h with h | h
  · simpa using h
  · have := hc.1
    simp only [Bool.not_eq_false', Bool.and_eq_true, decide_eq_true_eq] at h
    omega

/-- A passed check leaves no conflicting lock of lower priority on the stack. -/
theorem WritersOnTop.rangeCheck {stack} (h : WritersOnTop stack) {r d}
    (hcheck : rangeCheck stack r = true) (hd : d ∈ stack) (hc : Conflict d r) :
    r.priority ≤ d.priority := by
  rw [Dio.rangeCheck] at hcheck
  refine priority_le_of_not_hits ?_ hc
  cases hr : r.rwMode with
  | read =>
    have hw : d.rwMode = .write := by
      rcases hc.2 with hw | hw
      · exact hw
      · exact absurd (hr.symm.trans hw) (by simp)
    simp only [hr, dioReadRangeCheck, all_eq_true] at hcheck
    simpa using hcheck d (h.mem_takeWhile hd hw)
  | write =>
    simp only [hr, dioWriteRangeCheck, all_eq_true] at hcheck
    simpa using hcheck d (mem_reverse.mpr hd)

/-- Held locks come before conflicting locks that wait, and do not conflict. -/
structure Queues.Inv (q : Queues) : Prop where
  execingTop : WritersOnTop q.execing
  pendingTop : WritersOnTop q.pending
  ids : ((q.execing ++ q.pending).map RangeLock.id).Nodup
  below : ∀ d ∈ q.execing ++ q.pending, d.priority < q.priorityCounter
  distinct : ∀ p ∈ q.pending, ∀ p' ∈ q.pending, p.priority = p'.priority → p = p'
  before : ∀ e ∈ q.execing, ∀ p ∈ q.pending, Conflict e p → e.priority < p.priority
  exclusive : ∀ d ∈ q.execing, ∀ e ∈ q.execing, Conflict d e → d = e

variable {stack : List RangeLock} {r : RangeLock}

/-- A lock that is related to no other does not relate two locks. -/
theorem eq_of_related {s : List RangeLock} {R : RangeLock → RangeLock → Prop}
    (hs : ∀ d ∈ s, d = r ∨ d ∈ stack) (h : ∀ d ∈ stack, ∀ e ∈ stack, R d e → d = e)
    (hr : ∀ d ∈ stack, ¬R d r ∧ ¬R r d) : ∀ d ∈ s, ∀ e ∈ s, R d e → d = e := by
  intro d hd e he hR
  rcases hs d hd with rfl | hd
  · rcases hs e he with rfl | he
    · rfl
    · exact absurd hR (hr e he).2
  · rcases hs e he with rfl | he
    · exact absurd hR (hr d hd).1
    · exact h d hd e he hR

theorem renumber_map {α} (f : RangeLock → α) (hf : ∀ d n, f { d with priority := n } = f d)
    (stack : List RangeLock) : (renumber stack).1.map f = stack.map f := by
  induction stack with
  | nil => rfl
  | cons d stack ih => rw [renumber, map_cons, ih, hf, map_cons]

theorem WritersOnTop.renumber (h : WritersOnTop stack) : WritersOnTop (renumber stack).1 := by
  have hmap := renumber_map RangeLock.rwMode (fun _ _ => rfl) stack
  have hmodes : (stack.map RangeLock.rwMode).Pairwise fun a b => a = .read → b = .read :=
    pairwise_map.mpr h
  rw [← hmap] at hmodes
  exact pairwise_map.mp hmodes

theorem renumber_lt : ∀ d ∈ (renumber stack).1, d.priority < (renumber stack).2 := by
  induction stack with
  | nil => exact fun d hd => absurd hd (by simp [renumber])
  | cons a stack ih =>
    intro d hd
    rcases mem_cons.mp hd with rfl | hd
    · exact Int.lt_succ _
    · exact Int.lt_trans (ih d hd) (Int.lt_succ _)

theorem renumber_distinct : ∀ d ∈ (renumber stack).1, ∀ e ∈ (renumber stack).1,
    d.priority = e.priority → d = e := by
  induction stack with
  | nil => exact fun d hd => absurd hd (by simp [renumber])
  | cons a stack ih =>
    exact eq_of_related (fun d => mem_cons.mp) ih fun d hd =>
      ⟨Int.ne_of_lt (renumber_lt d hd), Int.ne_of_gt (renumber_lt d hd)⟩

variable {q : Queues}

/-- A wraparound keeps the invariant if no lock is held. -/
theorem Queues.Inv.wrap (h : q.Inv) (hok : priorityLimit < q.priorityCounter → q.execing = []) :
    q.wrap.Inv := by
  rw [Queues.wrap]
  split_ifs with hlarge
  · have hempty := hok hlarge
    have hids := h.ids
    constructor
    case execingTop => exact h.execingTop
    case pendingTop => exact h.pendingTop.renumber
    case ids =>
      simp only [hempty, nil_append] at hids ⊢
      rwa [renumber_map RangeLock.id fun _ _ => rfl]
    case below =>
      simp only [hempty, nil_append]
      exact renumber_lt
    case distinct => exact renumber_distinct
    case before =>
      simp only [hempty]
      exact fun e he => absurd he (by simp)
    case exclusive => exact h.exclusive
  · exact h

theorem Queues.Inv.next (h : q.Inv) :
    Queues.Inv { q with priorityCounter := q.priorityCounter + 1 } :=
  { h with below := fun d hd => Int.lt_trans (h.below d hd) (Int.lt_succ _) }

/-- Locks can be taken off the stacks. -/
theorem Queues.Inv.sublist (h : q.Inv) {execing pending} (hexec : execing.Sublist q.execing)
    (hpend : pending.Sublist q.pending) :
    Queues.Inv { q with execing := execing, pending := pending } where
  execingTop := h.execingTop.sublist hexec
  pendingTop := h.pendingTop.sublist hpend
  ids := h.ids.sublist ((hexec.append hpend).map _)
  below d hd := h.below d ((hexec.append hpend).subset hd)
  distinct p hp p' hp' := h.distinct p (hpend.subset hp) p' (hpend.subset hp')
  before e he p hp := h.before e (hexec.subset he) p (hpend.subset hp)
  exclusive d hd e he := h.exclusive d (hexec.subset hd) e (hexec.subset he)

theorem nodup_ids {execing pending both : List RangeLock}
    (hperm : both.Perm (r :: (execing ++ pending)))
    (hids : ((execing ++ pending).map RangeLock.id).Nodup)
    (hnew : ∀ d ∈ execing ++ pending, d.id ≠ r.id) : (both.map RangeLock.id).Nodup := by
  rw [(hperm.map _).nodup_iff, map_cons, nodup_cons]
  refine ⟨fun hmem => ?_, hids⟩
  obtain ⟨d, hd, hid⟩ := mem_map.mp hmem
  exact hnew d hd hid

/-- A lock that comes after all conflicting held ones waits. -/
theorem Queues.Inv.wait (h : q.Inv) (hnew : ∀ d ∈ q.execing ++ q.pending, d.id ≠ r.id)
    (hbelow : r.priority < q.priorityCounter)
    (hlast : ∀ d ∈ q.execing ++ q.pending, d.priority < r.priority) :
    Queues.Inv { q with pending := link q.pending r } := by
  have hperm : (q.execing ++ link q.pending r).Perm (r :: (q.execing ++ q.pending)) :=
    ((link_perm q.pending r).append_left _).trans perm_middle
  constructor
  case execingTop => exact h.execingTop
  case pendingTop => exact h.pendingTop.link r
  case ids => exact nodup_ids hperm h.ids hnew
  case below =>
    intro d hd
    rcases mem_cons.mp (hperm.mem_iff.mp hd) with rfl | hd
    · exact hbelow
    · exact h.below d hd
  case distinct =>
    refine eq_of_related (fun p => mem_link.mp) h.distinct fun p hp => ?_
    have := hlast p (mem_append_right _ hp)
    omega
  case before =>
    intro e he p hp hc
    rcases mem_link.mp hp with rfl | hp
    · exact hlast e (mem_append_left _ he)
    · exact h.before e he p hp hc
  case exclusive => exact h.exclusive

/-- A lock that comes after conflicting held locks, and before conflicting ones of both stacks
as the checks found, has no conflict with a held lock. -/
theorem Queues.Inv.grant (h : q.Inv) (hnew : ∀ d ∈ q.execing ++ q.pending, d.id ≠ r.id)
    (hbelow : r.priority < q.priorityCounter)
    (hdistinct : ∀ p ∈ q.pending, p.priority ≠ r.priority)
    (hbefore : ∀ e ∈ q.execing, Conflict e r → e.priority < r.priority)
    (hfree : ∀ d ∈ q.execing ++ q.pending, Conflict d r → r.priority ≤ d.priority) :
    Queues.Inv { q with execing := link q.execing r } := by
  have hperm : (link q.execing r ++ q.pending).Perm (r :: (q.execing ++ q.pending)) :=
    (link_perm q.execing r).append_right _
  have hnone : ∀ e ∈ q.execing, ¬ Conflict e r := by
    intro e he hc
    have := hbefore e he hc
    have := hfree e (mem_append_left _ he) hc
    omega
  constructor
  case execingTop => exact h.execingTop.link r
  case pendingTop => exact h.pendingTop
  case ids => exact nodup_ids hperm h.ids hnew
  case below =>
    intro d hd
    rcases mem_cons.mp (hperm.mem_iff.mp hd) with rfl | hd
    · exact hbelow
    · exact h.below d hd
  case distinct => exact h.distinct
  case before =>
    intro e he p hp hc
    rcases mem_link.mp he with rfl | he
    · have := hfree p (mem_append_right _ hp) hc.symm
      have := hdistinct p hp
      omega
    · exact h.before e he p hp hc
  case exclusive =>
    exact eq_of_related (fun d => mem_link.mp) h.exclusive fun d hd =>
      ⟨hnone d hd, mt Conflict.symm (hnone d hd)⟩

/-- What the two checks find. -/
theorem Queues.Inv.free_of_mayRun (h : q.Inv) (hrun : q.mayRun r = true) :
    ∀ d ∈ q.execing ++ q.pending, Conflict d r → r.priority ≤ d.priority := by
  rw [Queues.mayRun, Bool.and_eq_true] at hrun
  intro d hd hc
  rcases mem_append.mp hd with hd | hd
  · exact h.execingTop.rangeCheck hrun.1 hd hc
  · exact h.pendingTop.rangeCheck hrun.2 hd hc

theorem Queues.wrap_ids (q : Queues) :
    (q.wrap.execing ++ q.wrap.pending).map RangeLock.id =
      (q.execing ++ q.pending).map RangeLock.id := by
  rw [Queues.wrap]
  split
  · simp [renumber_map RangeLock.id fun _ _ => rfl]
  · rfl

theorem Queues.lock_ids (q : Queues) (r : RangeLock) :
    (((q.lock r).execing ++ (q.lock r).pending).map RangeLock.id).Perm
      (r.id :: (q.execing ++ q.pending).map RangeLock.id) := by
  rw [← q.wrap_ids, Queues.lock]
  split
  · exact ((link_perm _ _).append_right _).map RangeLock.id
  · exact (((link_perm _ _).append_left _).trans perm_middle).map RangeLock.id

theorem Queues.wake_ids (hr : r ∈ q.pending) :
    (((q.wake r).execing ++ (q.wake r).pending).map RangeLock.id).Perm
      ((q.execing ++ q.pending).map RangeLock.id) := by
  rw [Queues.wake]
  split
  · refine (((link_perm _ _).append_right _).trans ?_).map RangeLock.id
    exact perm_middle.symm.trans ((perm_cons_erase hr).symm.append_left _)
  · exact .refl _

theorem Queues.Inv.lock (h : q.Inv) (hok : priorityLimit < q.priorityCounter → q.execing = [])
    (hnew : ∀ d ∈ q.execing ++ q.pending, d.id ≠ r.id) : (q.lock r).Inv := by
  have hwrap := h.wrap hok
  have hnew' : ∀ d ∈ q.wrap.execing ++ q.wrap.pending, d.id ≠ r.id := by
    have hids : r.id ∉ (q.execing ++ q.pending).map RangeLock.id := by
      intro hmem
      obtain ⟨d, hd, hid⟩ := mem_map.mp hmem
      exact hnew d hd hid
    rw [← q.wrap_ids] at hids
    exact fun d hd hid => hids (mem_map.mpr ⟨d, hd, hid⟩)
  have hnext := hwrap.next
  rw [Queues.lock]
  split_ifs with hrun
  · refine hnext.grant hnew' (Int.lt_succ _) ?_ ?_ (hnext.free_of_mayRun hrun)
    · exact fun p hp => Int.ne_of_lt (hwrap.below p (mem_append_right _ hp))
    · exact fun e he _ => hwrap.below e (mem_append_left _ he)
  · exact hnext.wait hnew' (Int.lt_succ _) hwrap.below

theorem Queues.Inv.wake (h : q.Inv) (hr : r ∈ q.pending) : (q.wake r).Inv := by
  rw [Queues.wake]
  split_ifs with hrun
  · have hleft := h.sublist (List.Sublist.refl q.execing) (erase_sublist (a := r))
    have hnodup : (q.execing ++ q.pending).Nodup := h.ids.of_map _
    have hpnodup := (nodup_append.mp hnodup).2.1
    have hmem {d : RangeLock} (hd : d ∈ q.execing ++ q.pending.erase r) :
        d ∈ q.execing ++ q.pending ∧ d ≠ r := by
      rcases mem_append.mp hd with hd | hd
      · refine ⟨mem_append_left _ hd, fun heq => ?_⟩
        exact (nodup_append.mp hnodup).2.2 d hd r hr heq
      · have := (hpnodup.mem_erase_iff).mp hd
        exact ⟨mem_append_right _ this.2, this.1⟩
    have hr' : r ∈ q.execing ++ q.pending := mem_append_right _ hr
    refine hleft.grant ?_ (h.below r hr') ?_ (fun e he hc => h.before e he r hr hc) ?_
    · intro d hd hid
      have := hmem hd
      exact this.2 (inj_on_of_nodup_map h.ids this.1 hr' hid)
    · intro p hp heq
      have := hpnodup.mem_erase_iff.mp hp
      exact this.1 (h.distinct p this.2 r hr heq)
    · intro d hd
      exact h.free_of_mayRun hrun d (hmem hd).1
  · exact h

theorem Queues.Inv.unlock (h : q.Inv) (r : RangeLock) : (q.unlock r).Inv :=
  h.sublist erase_sublist (List.Sublist.refl _)

/-- Two holders whose ranges overlap are readers, and a call of `cache_direct_rw_op` that has
returned holds no lock. -/
structure DioState.Safe (s : DioState) : Prop where
  exclusive : ∀ d ∈ s.execing, ∀ e ∈ s.execing, d.id ≠ e.id → ¬ Conflict d e
  released : ∀ id, s.op id = .returned → ∀ d ∈ s.execing ++ s.pending, d.id ≠ id

/-- The condition on a step: the priorities are renumbered only while no lock is held, and
`_dio_write_merge` skips nothing. -/
def DioState.Orderly (s : DioState) : DioAct → Prop
  | .rangeLock _ _ _ _ | .directRwOp _ _ _ _ => priorityLimit < s.priorityCounter → s.execing = []
  | .merge _ skipped => skipped = 0
  | _ => True

structure DioState.Inv (s : DioState) : Prop where
  queues : s.toQueues.Inv
  released : ∀ id, s.op id = .returned → id ∉ (s.execing ++ s.pending).map RangeLock.id

variable {s : DioState}

theorem DioState.unused_iff {id} : s.unused id = true ↔
    s.op id = .outside ∧ ∀ d ∈ s.execing ++ s.pending, d.id ≠ id := by
  simp only [DioState.unused, Bool.and_eq_true, decide_eq_true_eq, all_eq_true]

theorem DioState.Inv.goto (h : s.Inv) {id} {pc : OpPc}
    (hpc : pc = .returned → id ∉ (s.execing ++ s.pending).map RangeLock.id) :
    (s.goto id pc).Inv := by
  refine ⟨h.queues, fun i hi => ?_⟩
  by_cases hid : i = id
  · subst hid
    exact hpc (by simpa [DioState.goto] using hi)
  · exact h.released i (by simpa [DioState.goto, hid] using hi)

theorem DioState.Inv.lock (h : s.Inv) (hunused : s.unused r.id = true)
    (hok : priorityLimit < s.priorityCounter → s.execing = []) :
    ({ s with toQueues := s.lock r } : DioState).Inv := by
  obtain ⟨hout, hnew⟩ := DioState.unused_iff.mp hunused
  refine ⟨h.queues.lock hok hnew, fun i hi hmem => ?_⟩
  rcases mem_cons.mp ((s.lock_ids r).mem_iff.mp hmem) with rfl | hmem
  · exact absurd (hout.symm.trans hi) (by simp)
  · exact h.released i hi hmem

theorem DioState.Inv.wake (h : s.Inv) (hr : r ∈ s.pending) :
    ({ s with toQueues := s.wake r } : DioState).Inv :=
  ⟨h.queues.wake hr, fun i hi hmem => h.released i hi ((Queues.wake_ids hr).mem_iff.mp hmem)⟩

theorem DioState.Inv.unlock (h : s.Inv) : ({ s with toQueues := s.unlock r } : DioState).Inv := by
  refine ⟨h.queues.unlock r, fun i hi hmem => h.released i hi ?_⟩
  exact ((erase_sublist.append_right _).map _).subset hmem

/-- A lock that is released is gone. -/
theorem Queues.Inv.notMem_unlock {q : Queues} (h : q.Inv) (hr : r ∈ q.execing) :
    r.id ∉ ((q.unlock r).execing ++ (q.unlock r).pending).map RangeLock.id := by
  have hperm : ((q.execing ++ q.pending).map RangeLock.id).Perm
      (r.id :: ((q.unlock r).execing ++ (q.unlock r).pending).map RangeLock.id) :=
    ((perm_cons_erase hr).append_right q.pending).map RangeLock.id
  exact (nodup_cons.mp (hperm.nodup_iff.mp h.ids)).1

/-- Each permitted step keeps the invariant. -/
theorem DioState.Inv.step {s'} {a : DioAct} (h : s.Inv) (hok : s.Orderly a)
    (hstep : s.step a = some s') : s'.Inv := by
  cases a with
  | rangeLock id lo hi rwMode =>
    obtain ⟨hunused, heq⟩ := ite_none_right_eq_some.mp hstep
    rw [← some.inj heq]
    exact h.lock hunused hok
  | wake r =>
    obtain ⟨hr, heq⟩ := ite_none_right_eq_some.mp hstep
    rw [← some.inj heq]
    exact h.wake hr
  | rangeUnlock r =>
    obtain ⟨_, heq⟩ := ite_none_right_eq_some.mp hstep
    rw [← some.inj heq]
    exact h.unlock
  | directRwOp id lo hi rwMode =>
    obtain ⟨hunused, heq⟩ := ite_none_right_eq_some.mp hstep
    rw [← some.inj heq]
    exact (h.lock (r := ⟨id, lo, hi, 0, rwMode⟩) hunused hok).goto (by simp)
  | locked r =>
    obtain ⟨_, heq⟩ := ite_none_right_eq_some.mp hstep
    rw [← some.inj heq]
    exact h.goto (by simp)
  | transfer r ok =>
    obtain ⟨_, heq⟩ := ite_none_right_eq_some.mp hstep
    split at heq <;> rw [← some.inj heq] <;> exact h.goto (by simp)
  | merge r skipped =>
    obtain ⟨_, heq⟩ := ite_none_right_eq_some.mp hstep
    rw [if_neg (by rw [show skipped = 0 from hok]; simp)] at heq
    rw [← some.inj heq]
    exact h.goto (by simp)
  | fail r =>
    obtain ⟨hr, heq⟩ := ite_none_right_eq_some.mp hstep
    rw [← some.inj heq]
    exact h.unlock.goto fun _ => h.queues.notMem_unlock hr.1

theorem DioState.inv_start : DioState.start.Inv := by
  refine ⟨⟨.nil, .nil, .nil, ?_, ?_, ?_, ?_⟩, ?_⟩ <;> simp [DioState.start]

theorem DioState.Inv.safe (h : s.Inv) : s.Safe where
  exclusive d hd e he hid hc := hid (congrArg RangeLock.id (h.queues.exclusive d hd e he hc))
  released id hid d hd heq := h.released id hid (mem_map.mpr ⟨d, hd, heq⟩)

/-- In every run in which the priorities are renumbered only while no lock is held and
`_dio_write_merge` skips nothing, locks exclude each other and are released. -/
theorem range_locks_exclude (s : DioState)
    (h : Reached DioState.start DioState.step DioState.Orderly s) : s.Safe := by
  have hinv : s.Inv := h.invariant DioState.inv_start fun _ _ _ hi hok hstep => hi.step hok hstep
  exact hinv.safe

/-- A writer waits for a reader of the same page. -/
theorem range_locks_exclude_writer : ∃ s,
    run DioState.step DioState.start
      [.directRwOp 0 0 0 .read, .rangeLock 1 0 3 .write, .locked ⟨0, 0, 0, 0, .read⟩,
        .transfer ⟨0, 0, 0, 0, .read⟩ true, .fail ⟨0, 0, 0, 0, .read⟩,
        .wake ⟨1, 0, 3, 1, .write⟩] = some s ∧
      s.Safe ∧ s.execing = [⟨1, 0, 3, 1, .write⟩] ∧ s.op 0 = .returned := by
  refine ⟨_, rfl, range_locks_exclude _ ?_, rfl, rfl⟩
  refine .step (a := .wake ⟨1, 0, 3, 1, .write⟩) (.step (a := .fail ⟨0, 0, 0, 0, .read⟩)
    (.step (a := .transfer ⟨0, 0, 0, 0, .read⟩ true) (.step (a := .locked ⟨0, 0, 0, 0, .read⟩)
      (.step (a := .rangeLock 1 0 3 .write) (.step (a := .directRwOp 0 0 0 .read) .start ?_ rfl)
        ?_ rfl) ?_ rfl) ?_ rfl) ?_ rfl) ?_ rfl
  · exact fun _ => rfl
  · exact fun hlarge => absurd hlarge (by decide)
  all_goals trivial

/-- The counter gets as high as wanted, up to the limit, by locks that are released at once. -/
theorem reaches_counter (n : Nat) (hn : (n : Int) ≤ priorityLimit + 1) :
    Reached DioState.start DioState.step (fun _ _ => True)
      { DioState.start with priorityCounter := n } := by
  induction n with
  | zero => exact .start
  | succ n ih =>
    have hlow : ¬ ((n : Int) > priorityLimit) := by omega
    let held : DioState :=
      { DioState.start with
        priorityCounter := n + 1
        execing := [⟨0, 0, 0, n, .write⟩] }
    have hlock : DioState.step { DioState.start with priorityCounter := n }
        (.rangeLock 0 0 0 .write) = some held := by
      simp [DioState.step, DioState.unused, DioState.start, Queues.lock, Queues.wrap, hlow,
        Queues.mayRun, rangeCheck, dioWriteRangeCheck, link, held]
    have hunlock : held.step (.rangeUnlock ⟨0, 0, 0, n, .write⟩) =
        some { DioState.start with priorityCounter := (n + 1 : Nat) } := by
      simp [DioState.step, DioState.start, Queues.unlock, held]
    exact .step (.step (ih (by omega)) trivial hlock) trivial hunlock

/-- A writer that holds the last lock before the wraparound is overlooked by the next one, and
a write whose merge skips bytes keeps its lock. -/
theorem range_locks_fail :
    (∃ s, Reached DioState.start DioState.step (fun _ _ => True) s ∧
      s.execing = [⟨1, 0, 0, 0, .write⟩, ⟨0, 0, 0, priorityLimit, .write⟩] ∧ ¬ s.Safe) ∧
    ∃ s, run DioState.step DioState.start
      [.directRwOp 0 0 0 .write, .locked ⟨0, 0, 0, 0, .write⟩,
        .transfer ⟨0, 0, 0, 0, .write⟩ true, .merge ⟨0, 0, 0, 0, .write⟩ 1] = some s ∧
      s.op 0 = .returned ∧ s.execing = [⟨0, 0, 0, 0, .write⟩] ∧ ¬ s.Safe := by
  constructor
  · refine ⟨_, .step (a := .rangeLock 1 0 0 .write) (.step (a := .rangeLock 0 0 0 .write)
      (reaches_counter 1099511627776 (by decide)) trivial rfl) trivial rfl, rfl, fun h => ?_⟩
    exact h.exclusive ⟨1, 0, 0, 0, .write⟩ (by decide) ⟨0, 0, 0, priorityLimit, .write⟩
      (by decide) (by decide) ⟨by decide, .inl rfl⟩
  · refine ⟨_, rfl, rfl, rfl, fun h => ?_⟩
    exact h.released 0 rfl ⟨0, 0, 0, 0, .write⟩ (by decide) rfl

end LStore.Cache.Dio
