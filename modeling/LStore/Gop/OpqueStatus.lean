import LStore.Gop.Opque

/-!
# The status of a queue

A queue counts its unfinished tasks and collects those that failed. Only `OP_STATE_FAILURE`
counts as a failure in its callback, so a completed queue reports success exactly if no
operation below it ended in that one state.
-/

namespace LStore.Gop

open List Option LStore.Gop.Task

variable {path : List Nat} {tasks : List Task} {t' : Task} {fired : Bool} {paths : List (List Nat)}

/-- Induction over tasks: a queue from its tasks. -/
theorem Task.induction {P : Task → Prop} (op : ∀ final started done, P (.op final started done))
    (que : ∀ q tasks, (∀ t ∈ tasks, P t) → P (.que q tasks)) (t : Task) : P t :=
  rec (motive_1 := P) (motive_2 := fun tasks => ∀ t ∈ tasks, P t) op que
    (fun t ht => absurd ht not_mem_nil)
    (fun t ts ht hts u hu => by
      rcases mem_cons.mp hu with rfl | hu
      · exact ht
      · exact hts u hu) t

mutual

/-- The statuses in which the operations below a task end. -/
def Task.leaves : Task → List OpStatus
  | .op final _ _ => [final]
  | .que _ tasks => leavesOf tasks

def leavesOf : List Task → List OpStatus
  | [] => []
  | t :: ts => t.leaves ++ leavesOf ts

end

theorem leavesOf_eq (tasks : List Task) : leavesOf tasks = tasks.flatMap Task.leaves := by
  induction tasks with
  | nil => rfl
  | cons t ts ih => rw [leavesOf, ih, flatMap_cons]

/-- The number of direct tasks. -/
def Task.width : Task → Nat
  | .op _ _ _ => 0
  | .que _ tasks => tasks.length

/-- The callbacks of the task have run. -/
def Task.done : Task → Bool
  | .op _ _ done => done
  | .que q tasks => decide (q.nleft ≤ 0) && !tasks.isEmpty

/-- The counters of a queue agree with its tasks. -/
structure QueData.Counts (q : QueData) (tasks : List Task) : Prop where
  list : q.list = if q.started then [] else List.range tasks.length
  nleft : q.nleft = tasks.countP fun t => !t.done
  failed : q.failed = [] ↔ ∀ t ∈ tasks, t.done = true → t.status.opStatus ≠ .failure
  retries : 0 < q.nleft → q.retries = 0
  status : tasks ≠ [] → q.nleft ≤ 0 → q.failed = [] → q.status = gopSuccessStatus

/-- The counters of a task and of all tasks below it agree with their tasks. -/
inductive Task.Counted : Task → Prop
  | op {final started done} : Counted (.op final started done)
  | que {q tasks} (counts : q.Counts tasks) (below : ∀ t ∈ tasks, t.Counted) :
      Counted (.que q tasks)

/-- Nothing has completed yet. -/
inductive Task.Fresh : Task → Prop
  | op {final started} : Fresh (.op final started false)
  | que {q tasks} (list : q.list = if q.started then [] else List.range tasks.length)
      (nleft : q.nleft = tasks.length) (failed : q.failed = []) (retries : q.retries = 0)
      (status : q.status = ⟨.cleared, 0⟩) (below : ∀ t ∈ tasks, t.Fresh) : Fresh (.que q tasks)

theorem Task.Fresh.not_done {t : Task} (h : t.Fresh) : t.done = false := by
  cases h with
  | op => rfl
  | @que q tasks list nleft failed retries status below =>
    cases tasks with
    | nil => simp [done]
    | cons t ts =>
      simp only [done, nleft, length_cons, isEmpty_cons, Bool.not_false,
        Bool.and_true, decide_eq_false_iff_not]
      omega

theorem Task.Fresh.counted {t : Task} (h : t.Fresh) : t.Counted := by
  induction h with
  | op => exact .op
  | @que q tasks list nleft failed retries status below ih =>
    refine .que ⟨list, ?_, ?_, fun _ => retries, ?_⟩ ih
    · rw [nleft, countP_eq_length.mpr]
      intro t ht
      rw [(below t ht).not_done]
      rfl
    · refine ⟨fun _ t ht hdone => ?_, fun _ => failed⟩
      rw [(below t ht).not_done] at hdone
      simp at hdone
    · intro hne hle
      have : tasks.length ≠ 0 := by simpa using hne
      omega

/-- A completion changes the one task it is in. -/
theorem completeAt_eq_some {tasks' i r} (h : completeAt tasks i path = some (tasks', r)) :
    ∃ l t u t' fired, tasks = l ++ t :: u ∧ l.length = i ∧ t.complete path = some (t', fired) ∧
      tasks' = l ++ t' :: u ∧ r = if fired then some t'.status else none := by
  induction tasks generalizing i tasks' r with
  | nil => simp [completeAt] at h
  | cons t ts ih =>
    cases i with
    | zero =>
      rw [completeAt] at h
      split at h
      · simp at h
      · next t' fired heq =>
          simp only [some.injEq, Prod.mk.injEq] at h
          exact ⟨[], t, ts, t', fired, rfl, rfl, heq, h.1.symm, h.2.symm⟩
    | succ i =>
      rw [completeAt] at h
      split at h
      · simp at h
      · next ts' success heq =>
          simp only [some.injEq, Prod.mk.injEq] at h
          obtain ⟨l, s, u, s', fired, rfl, hl, hs, rfl, hr⟩ := ih heq
          exact ⟨t :: l, s, u, s', fired, rfl, by simp [hl], hs, h.1.symm, h.2 ▸ hr⟩

/-- The ways in which a completion goes through a queue: the task it is in completes, or not. -/
theorem complete_que {q} (h : (Task.que q tasks).complete path = some (t', fired)) :
    ∃ l t u s f i p, tasks = l ++ t :: u ∧ l.length = i ∧ t.complete p = some (s, f) ∧
      ((f = false ∧ t' = .que q (l ++ s :: u) ∧ fired = false) ∨
        (f = true ∧ t' = .que (opqueCb q i s.status).1 (l ++ s :: u) ∧
          fired = (opqueCb q i s.status).2)) := by
  cases path with
  | nil => simp [complete] at h
  | cons i p =>
    rw [complete] at h
    split at h
    · simp at h
    · next tasks' heq =>
        obtain ⟨l, t, u, s, f, rfl, hl, hs, rfl, hr⟩ := completeAt_eq_some heq
        simp only [some.injEq, Prod.mk.injEq] at h
        refine ⟨l, t, u, s, f, i, p, rfl, hl, hs, .inl ⟨?_, h.1.symm, h.2.symm⟩⟩
        cases f with
        | false => rfl
        | true => simp at hr
    · next tasks' success heq =>
        obtain ⟨l, t, u, s, f, rfl, hl, hs, rfl, hr⟩ := completeAt_eq_some heq
        simp only [some.injEq, Prod.mk.injEq] at h
        refine ⟨l, t, u, s, f, i, p, rfl, hl, hs, .inr ?_⟩
        cases f with
        | false => simp at hr
        | true =>
          simp only [if_true, some.injEq] at hr
          rw [hr] at h
          exact ⟨rfl, h.1.symm, h.2.symm⟩

theorem opqueCb_kept (q : QueData) (i : Nat) (success : OpStatus) :
    (opqueCb q i success).1.list = q.list ∧ (opqueCb q i success).1.started = q.started := by
  rw [opqueCb]
  split_ifs <;> exact ⟨rfl, rfl⟩

/-- What the callback leaves in a queue whose count was positive. -/
theorem opqueCb_spec {q} (i : Nat) (success : OpStatus) (hpos : 0 < q.nleft)
    (hretries : q.retries = 0) :
    (opqueCb q i success).1.nleft = q.nleft - 1 ∧
      ((opqueCb q i success).1.failed = [] ↔ success.opStatus ≠ .failure ∧ q.failed = []) ∧
      ((opqueCb q i success).2 = decide (q.nleft - 1 ≤ 0)) ∧
      (0 < q.nleft - 1 → (opqueCb q i success).1.retries = 0) ∧
      (q.nleft - 1 ≤ 0 → (opqueCb q i success).1.failed = [] →
        (opqueCb q i success).1.status = gopSuccessStatus) := by
  have hfailed : (if success.opStatus = .failure then i :: q.failed else q.failed) = [] ↔
      success.opStatus ≠ .failure ∧ q.failed = [] := by
    split <;> simp_all
  simp only [opqueCb, length_eq_zero_iff, hretries, if_true]
  by_cases hlast : q.nleft - 1 ≤ 0
  · by_cases hempty : (if success.opStatus = .failure then i :: q.failed else q.failed) = []
    · simp [hlast, hempty, ← hfailed]
    · simp only [hlast, if_true, hempty, if_false, ← hfailed, decide_true, false_implies,
        implies_true, true_and, and_true]
      omega
  · simp [hlast, hfailed]

variable {q : QueData} {l u : List Task} {t s : Task}

theorem countP_undone (hs : s.done = false) :
    ((l ++ s :: u).countP fun t => !t.done) = ((l ++ u).countP fun t => !t.done) + 1 := by
  simp only [countP_append, countP_cons, hs, Bool.not_false, if_true]
  omega

theorem mem_middle {x} : x ∈ l ++ s :: u ↔ x = s ∨ x ∈ l ++ u := by
  simp only [mem_append, mem_cons]
  tauto

section

variable (h : q.Counts (l ++ t :: u))
include h

theorem QueData.Counts.pos (ht : t.done = false) : 0 < q.nleft := by
  rw [h.nleft, countP_undone ht]
  omega

/-- A task that is not done can change without its queue. -/
theorem QueData.Counts.undone (ht : t.done = false) (hs : s.done = false) :
    q.Counts (l ++ s :: u) := by
  have hpos := h.pos ht
  refine ⟨?_, ?_, ?_, h.retries, fun _ hle => absurd hpos (by omega)⟩
  · rw [h.list]
    simp
  · rw [h.nleft, countP_undone ht, countP_undone hs]
  · rw [h.failed]
    simp only [mem_middle, forall_eq_or_imp, ht, hs, Bool.false_eq_true, false_implies, true_and]

/-- The callback accounts for a task that becomes done. -/
theorem QueData.Counts.opqueCb (ht : t.done = false) (hs : s.done = true) (i : Nat) :
    (opqueCb q i s.status).1.Counts (l ++ s :: u) := by
  have hpos := h.pos ht
  obtain ⟨hnleft, hfailed, _, hretries, hstatus⟩ :=
    opqueCb_spec i s.status hpos (h.retries hpos)
  obtain ⟨hlist, hstarted⟩ := opqueCb_kept q i s.status
  constructor
  case list =>
    rw [hlist, hstarted, h.list]
    simp
  case nleft =>
    rw [hnleft, h.nleft, countP_undone ht]
    simp [hs]
  case failed =>
    rw [hfailed, h.failed]
    simp only [mem_middle, forall_eq_or_imp, ht, hs, Bool.false_eq_true, false_implies, true_and,
      forall_const]
  case retries =>
    rw [hnleft]
    exact hretries
  case status =>
    intro _
    rw [hnleft]
    exact hstatus

end

/-- A completion keeps the counters in order, and the callbacks of a task run exactly when it
becomes done. -/
theorem Task.Counted.complete {t : Task} (h : t.Counted) (hc : t.complete path = some (t', fired)) :
    t'.Counted ∧ t.done = false ∧ fired = t'.done := by
  induction t using induction generalizing path t' fired with
  | op final started done =>
    obtain ⟨hopen, ⟨⟩⟩ := ite_none_right_eq_some.mp hc
    exact ⟨.op, hopen.1, rfl⟩
  | que q tasks ih =>
    obtain ⟨l, t, u, s, f, i, p, rfl, _, hs, hcases⟩ := complete_que hc
    cases h with
    | que counts below =>
      obtain ⟨hscount, hdone, hf⟩ := ih t (by simp) (below t (by simp)) hs
      have hpos := counts.pos hdone
      have hbelow : ∀ x ∈ l ++ s :: u, x.Counted := by
        intro x hx
        rcases mem_middle.mp hx with rfl | hx
        · exact hscount
        · exact below x (mem_middle.mpr (.inr hx))
      have hundone : (Task.que q (l ++ t :: u)).done = false := by
        simp [Task.done, decide_eq_false (Int.not_le.mpr hpos)]
      rcases hcases with ⟨rfl, rfl, rfl⟩ | ⟨rfl, rfl, rfl⟩
      · refine ⟨.que (counts.undone hdone hf.symm) hbelow, hundone, ?_⟩
        simp [done, decide_eq_false (Int.not_le.mpr hpos)]
      · refine ⟨.que (counts.opqueCb hdone hf.symm i) hbelow, hundone, ?_⟩
        obtain ⟨hnleft, _, hfired, _⟩ :=
          opqueCb_spec i s.status hpos (counts.retries hpos)
        simp [done, hnleft, hfired]

/-- A completion changes neither the statuses the operations end in, nor what a call of
`gop_waitall` waits for, nor the number of tasks. -/
theorem Task.complete_frame {t : Task} (hc : t.complete path = some (t', fired)) :
    t'.leaves = t.leaves ∧ t'.waitTarget = t.waitTarget ∧ t'.width = t.width := by
  induction t using induction generalizing path t' fired with
  | op final started done =>
    obtain ⟨-, ⟨⟩⟩ := ite_none_right_eq_some.mp hc
    exact ⟨rfl, rfl, rfl⟩
  | que q tasks ih =>
    obtain ⟨l, t, u, s, f, i, p, rfl, _, hs, hcases⟩ := complete_que hc
    obtain ⟨hleaves, htarget, _⟩ := ih t (by simp) hs
    have hleaves' : leavesOf (l ++ s :: u) = leavesOf (l ++ t :: u) := by
      simp [leavesOf_eq, hleaves]
    have htarget' (i : Nat) : waitTargetAt (l ++ s :: u) i = waitTargetAt (l ++ t :: u) i := by
      clear * - htarget
      induction l generalizing i with
      | nil => cases i with
        | zero => exact htarget
        | succ i => rfl
      | cons x l ih => cases i with
        | zero => rfl
        | succ i => exact ih i
    rcases hcases with ⟨_, rfl, _⟩ | ⟨_, rfl, _⟩
    · refine ⟨hleaves', ?_, by simp [width]⟩
      simp [waitTarget, htarget']
    · obtain ⟨hlist, hstarted⟩ := opqueCb_kept q i s.status
      refine ⟨hleaves', ?_, by simp [width]⟩
      simp [waitTarget, hlist, hstarted, htarget']

/-- Completions one after another keep all of this. -/
theorem Task.Counted.completeAll {t : Task} (h : t.Counted) (hc : completeAll t paths = some t') :
    t'.Counted ∧ t'.leaves = t.leaves ∧ t'.waitTarget = t.waitTarget ∧ t'.width = t.width := by
  induction paths generalizing t with
  | nil =>
    rw [Gop.completeAll, some.injEq] at hc
    rw [← hc]
    exact ⟨h, rfl, rfl, rfl⟩
  | cons path paths ih =>
    rw [Gop.completeAll] at hc
    split at hc
    · simp at hc
    · next s fired hs =>
        obtain ⟨hleaves, htarget, hwidth⟩ := Task.complete_frame hs
        obtain ⟨hcount, hleaves', htarget', hwidth'⟩ := ih (h.complete hs).1 hc
        exact ⟨hcount, hleaves'.trans hleaves, htarget'.trans htarget, hwidth'.trans hwidth⟩

/-- The tasks of a completed queue are done. -/
theorem QueData.Counts.all_done {q : QueData} (h : q.Counts tasks) (hle : q.nleft ≤ 0) :
    ∀ t ∈ tasks, t.done = true := by
  have hzero : (tasks.countP fun t => !t.done) = 0 := by
    have := h.nleft
    omega
  intro t ht
  simpa using countP_eq_zero.mp hzero t ht

/-- A completed task counts as failed if and only if an operation below it ended in
`OP_STATE_FAILURE`; a completed queue that did not fail is a success. -/
theorem Task.Counted.status_failure {t : Task} (h : t.Counted) (hdone : t.done = true) :
    t.status.opStatus = .failure ↔ ∃ f ∈ t.leaves, f.opStatus = .failure := by
  induction t using induction with
  | op final started done => simp [status, leaves]
  | que q tasks ih =>
    cases h with
    | que counts below =>
      simp only [done, Bool.and_eq_true, decide_eq_true_eq, Bool.not_eq_true',
        isEmpty_eq_false_iff] at hdone
      obtain ⟨hle, hne⟩ := hdone
      have hall := counts.all_done hle
      have hfailed : q.failed = [] ↔ ∀ t ∈ tasks, ¬∃ f ∈ t.leaves, f.opStatus = .failure := by
        rw [counts.failed]
        refine forall₂_congr fun t ht => ?_
        rw [← ih t ht (below t ht) (hall t ht)]
        simp [hall t ht]
      have hleaves : (∃ f ∈ (Task.que q tasks).leaves, f.opStatus = .failure) ↔
          ¬q.failed = [] := by
        rw [hfailed, Task.leaves, leavesOf_eq]
        simp only [mem_flatMap]
        constructor
        · rintro ⟨f, ⟨t, ht, hf⟩, hfail⟩ hnone
          exact hnone t ht ⟨f, hf, hfail⟩
        · intro hsome
          by_contra hnone
          exact hsome fun t ht ⟨f, hf, hfail⟩ => hnone ⟨f, ⟨t, ht, hf⟩, hfail⟩
      rw [hleaves, status]
      split_ifs with hempty
      · rw [length_eq_zero_iff] at hempty
        rw [counts.status hne hle hempty]
        simp [hempty, gopSuccessStatus]
      · rw [length_eq_zero_iff] at hempty
        simp [hempty, gopFailureStatus]

theorem Task.Counted.status_que {q} (h : (Task.que q tasks).Counted)
    (hdone : (Task.que q tasks).done = true) :
    (Task.que q tasks).status.opStatus = .success ∨
      (Task.que q tasks).status.opStatus = .failure := by
  cases h with
  | que counts below =>
    simp only [done, Bool.and_eq_true, decide_eq_true_eq, Bool.not_eq_true',
      isEmpty_eq_false_iff] at hdone
    rw [status]
    split_ifs with hempty
    · rw [counts.status hdone.2 hdone.1 (length_eq_zero_iff.mp hempty)]
      exact .inl rfl
    · exact .inr rfl

/-- The task a `gop_waitall` on a completed task waits for is completed, with the same
operations below it. -/
theorem Task.Counted.find_waitTarget {t : Task} (h : t.Counted) (hdone : t.done = true) :
    ∃ u, t.find t.waitTarget = some u ∧ u.Counted ∧ u.done = true ∧ u.leaves = t.leaves := by
  induction t using induction with
  | op final started done => exact ⟨_, rfl, h, hdone, rfl⟩
  | que q tasks ih =>
    rw [waitTarget]
    split
    · next i hlist hstarted =>
        cases h with
        | que counts below =>
          rw [counts.list, hstarted] at hlist
          obtain ⟨t, rfl⟩ : ∃ t, tasks = [t] := by
            have hlen := congrArg List.length hlist
            simp only [Bool.false_eq_true, if_false, length_range, length_cons,
              length_nil] at hlen
            exact length_eq_one_iff.mp hlen
          have hi : i = 0 := by simpa using hlist.symm
          simp only [done, Bool.and_eq_true, decide_eq_true_eq] at hdone
          obtain ⟨u, hu, hcount, hdone', hleaves⟩ :=
            ih t (by simp) (below t (by simp)) (counts.all_done hdone.1 t (by simp))
          rw [hi]
          refine ⟨u, hu, hcount, hdone', ?_⟩
          rw [hleaves, leaves, leavesOf, leavesOf, append_nil]
    · exact ⟨_, rfl, h, hdone, rfl⟩

theorem completeAll_empty {q t} (hc : completeAll (.que q []) paths = some t) : t = .que q [] := by
  cases paths with
  | nil =>
    rw [completeAll, some.injEq] at hc
    exact hc.symm
  | cons path paths =>
    have hnone : (que q []).complete path = none := by
      cases path with
      | nil => rfl
      | cons i p => rfl
    rw [completeAll, hnone] at hc
    simp at hc

/-- The report of a completed task with a success in view is right unless an operation below it
ended badly but not in `OP_STATE_FAILURE`, and none in that. -/
theorem Task.Counted.status_success {t : Task} (h : t.Counted) (hdone : t.done = true)
    (hclear : (∃ f ∈ t.leaves, f.opStatus = .failure) ∨ ∀ f ∈ t.leaves, f.opStatus = .success) :
    t.status.opStatus = .success ↔ ∀ f ∈ t.leaves, f.opStatus = .success := by
  have hfail := h.status_failure hdone
  rcases hclear with hsome | hall
  · have hstatus := hfail.mpr hsome
    rw [hstatus]
    obtain ⟨f, hf, hbad⟩ := hsome
    refine ⟨fun hcontra => absurd hcontra (by simp), fun hall => ?_⟩
    rw [hall f hf] at hbad
    simp at hbad
  · refine ⟨fun _ => hall, fun _ => ?_⟩
    cases t with
    | op final started done => exact hall final (by simp [leaves])
    | que q tasks =>
      rcases h.status_que hdone with hs | hs
      · exact hs
      · obtain ⟨f, hf, hbad⟩ := hfail.mp hs
        rw [hall f hf] at hbad
        simp at hbad

/-- Once all tasks of a queue have completed, `gop_waitall`, called at any time before, and
`opque_completion_status` report a success exactly if all operations below succeeded; this
holds if and only if the queue is not empty and the operations that did not succeed include
one that ended in `OP_STATE_FAILURE`. -/
theorem opque_status_iff (q q' : QueData) (tasks tasks' : List Task) (called : Task)
    (before after : List (List Nat)) (hfresh : (Task.que q tasks).Fresh)
    (hbefore : completeAll (.que q tasks) before = some called)
    (hafter : completeAll called after = some (.que q' tasks')) (hleft : q'.nleft ≤ 0) :
    ((gopWaitall called (.que q' tasks') = some .success ↔
        ∀ f ∈ (Task.que q tasks).leaves, f.opStatus = .success) ∧
      ((opqueCompletionStatus q').opStatus = .success ↔
        ∀ f ∈ (Task.que q tasks).leaves, f.opStatus = .success)) ↔
      tasks ≠ [] ∧ ((∃ f ∈ (Task.que q tasks).leaves, f.opStatus = .failure) ∨
        ∀ f ∈ (Task.que q tasks).leaves, f.opStatus = .success) := by
  obtain ⟨hcount₁, hleaves₁, _, hwidth₁⟩ := hfresh.counted.completeAll hbefore
  obtain ⟨hcount, hleaves₂, htarget, hwidth₂⟩ := hcount₁.completeAll hafter
  have hleaves := hleaves₂.trans hleaves₁
  have hstatus : (opqueCompletionStatus q').opStatus = (que q' tasks').status.opStatus := rfl
  by_cases hempty : tasks = []
  · -- the status of an empty queue was never set
    subst hempty
    have hq : q' = q := by
      rw [completeAll_empty hbefore] at hafter
      exact (que.inj (completeAll_empty hafter)).1
    have hcleared : (opqueCompletionStatus q').opStatus ≠ .success := by
      cases hfresh with
      | que list nleft failed retries status below =>
        simp [hq, opqueCompletionStatus, failed, status]
    simp [hcleared, leaves, leavesOf]
  · have hdone : (que q' tasks').done = true := by
      have hne : tasks' ≠ [] := by
        rintro rfl
        exact hempty (length_eq_zero_iff.mp (hwidth₂.trans hwidth₁).symm)
      simp [done, hleft, hne]
    obtain ⟨u, hu, hucount, hudone, huleaves⟩ := hcount.find_waitTarget hdone
    have hwait : gopWaitall called (.que q' tasks') = some u.status.opStatus := by
      rw [gopWaitall, ← htarget, hu]
      rfl
    rw [hwait, hstatus, some.injEq, ← hleaves]
    constructor
    · rintro ⟨_, hreport⟩
      refine ⟨hempty, ?_⟩
      rcases hcount.status_que hdone with hs | hs
      · exact .inr (hreport.mp hs)
      · exact .inl ((hcount.status_failure hdone).mp hs)
    · rintro ⟨_, hclear⟩
      refine ⟨?_, hcount.status_success hdone hclear⟩
      rw [← huleaves]
      exact hucount.status_success hudone (by rwa [huleaves])

/-- A queue of an operation and of an unstarted queue with one operation. -/
theorem opque_status_nested :
    ((gopWaitall (.que ⟨[0, 1], [], [], 2, ⟨.cleared, 0⟩, false, 0⟩
          [.op ⟨.success, 0⟩ false false,
            .que ⟨[0], [], [], 1, ⟨.cleared, 0⟩, false, 0⟩ [.op ⟨.failure, 7⟩ false false]])
        (.que ⟨[0, 1], [1, 0], [1], 0, ⟨.failure, 0⟩, false, 1⟩
          [.op ⟨.success, 0⟩ false true,
            .que ⟨[0], [0], [0], 0, ⟨.failure, 0⟩, false, 1⟩ [.op ⟨.failure, 7⟩ false true]]) =
        some .success ↔ ∀ f ∈ [(⟨.success, 0⟩ : OpStatus), ⟨.failure, 7⟩], f.opStatus = .success) ∧
      ((opqueCompletionStatus ⟨[0, 1], [1, 0], [1], 0, ⟨.failure, 0⟩, false, 1⟩).opStatus =
        .success ↔ ∀ f ∈ [(⟨.success, 0⟩ : OpStatus), ⟨.failure, 7⟩], f.opStatus = .success)) :=
  (opque_status_iff _ _ _ _ _ [] [[1, 0], [0]]
    (.que rfl rfl rfl rfl rfl (by
      simp only [mem_cons, not_mem_nil, or_false, forall_eq_or_imp, forall_eq]
      exact ⟨.op, .que rfl rfl rfl rfl rfl (by simpa using .op)⟩))
    rfl rfl (by decide)).mpr ⟨by simp, .inl ⟨⟨.failure, 7⟩, by decide, rfl⟩⟩

/-- A queue of two operations of which one times out reports success. -/
theorem opque_status_timeout :
    (completeAll (.que ⟨[0, 1], [], [], 2, ⟨.cleared, 0⟩, false, 0⟩
      [.op ⟨.success, 0⟩ false false, .op ⟨.timeout, 0⟩ false false]) [[0], [1]]).map
        (fun t => (gopWaitall t t, t.status)) =
      some (some .success, gopSuccessStatus) := by
  decide

end LStore.Gop
