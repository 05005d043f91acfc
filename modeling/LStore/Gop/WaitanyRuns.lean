import Mathlib.Algebra.Ring.Nat
import Mathlib.Data.List.Perm.Subperm
import LStore.Gop.WaitanySpec

/-!
# Runs of a waiting thread

The thread is at the end of a chain of queues with one task each, which it claimed on its way
down. Before it starts the task at the end nothing has completed; from then on all operations
are started, and each step of the thread or completion brings the call nearer to its end.
-/

namespace LStore.Gop

open Base.Reach List Option WaitState LStore.Gop.Task

variable {tasks : List Task} {q : QueData} {returned : List (Option Nat)} {fired : Bool}
variable {final : OpStatus}

/-- What a step of the thread does. -/
theorem WaitState.go_cases {s s' : WaitState} (h : s.go = some s') :
    (∃ path t, s.pc = .enter path ∧ s.root.find path = some t ∧
      s' = { s with root := s.root.update Task.start path, pc := .blocked path }) ∨
    (∃ path q tasks i, s.pc = .enter path ∧ s.root.find path = some (.que q tasks) ∧
      q.list = [i] ∧ q.started = false ∧
      s' = { s with root := s.root.update Task.claim path, pc := .enter (path ++ [i]) }) ∨
    (∃ path final started, s.pc = .blocked path ∧
      s.root.find path = some (.op final started true) ∧ s' = s.leave path none) ∨
    (∃ path q tasks, (s.pc = .blocked path ∧ ¬ (q.finished = [] ∧ 0 < q.nleft) ∨
      s.pc = .unwind path) ∧ s.root.find path = some (.que q tasks) ∧
      s' = { s with root := s.root.update Task.popFinished path }.leave path
        q.finished.head?) := by
  rw [go] at h
  split at h
  · simp at h
  · next path hpc =>
      split at h
      · simp at h
      · next final started done hfind =>
          exact .inl ⟨path, _, hpc, hfind, (some.inj h).symm⟩
      · next q tasks hfind =>
          split at h
          · next i hlist hstarted =>
              exact .inr (.inl ⟨path, q, tasks, i, hpc, hfind, hlist, hstarted,
                (some.inj h).symm⟩)
          · exact .inl ⟨path, _, hpc, hfind, (some.inj h).symm⟩
  · next path hpc =>
      split at h
      · simp at h
      · next final started done hfind =>
          obtain ⟨hdone, h⟩ := ite_none_right_eq_some.mp h
          rw [hdone] at hfind
          exact .inr (.inr (.inl ⟨path, final, started, hpc, hfind, (some.inj h).symm⟩))
      · next q tasks hfind =>
          split at h
          · simp at h
          · next hready =>
              exact .inr (.inr (.inr ⟨path, q, tasks, .inl ⟨hpc, hready⟩, hfind,
                (some.inj h).symm⟩))
  · next path hpc =>
      split at h
      · next q tasks hfind =>
          exact .inr (.inr (.inr ⟨path, q, tasks, .inr hpc, hfind, (some.inj h).symm⟩))
      · simp at h

/-- What the completion of an operation does. -/
theorem WaitState.complete_cases {s s' : WaitState} {path} (h : s.step (.complete path) = some s') :
    ∃ final root' fired, s.root.find path = some (.op final true false) ∧
      s.root.complete path = some (root', fired) ∧ s' = { s with root := root' } := by
  rw [step] at h
  split at h
  · next final hfind =>
      obtain ⟨r, hr, rfl⟩ := map_eq_some_iff.mp h
      exact ⟨final, r.1, r.2, hfind, hr, rfl⟩
  · simp at h

/-- The tasks of the queue are new. -/
def Task.NewBelow (t : Task) : Prop := t.New ∨ t = .que (QueData.new 0) []

/-- The queue and the tasks below it were started. -/
def Task.RunningBelow (t : Task) : Prop := t.Running ∨ ∃ q, t = .que q [] ∧ q.started = true

theorem Task.NewBelow.counted {t : Task} (h : t.NewBelow) : t.Counted := by
  rcases h with h | rfl
  · exact h.fresh.counted
  · exact (Task.Fresh.que rfl rfl rfl rfl rfl (by simp)).counted

theorem Task.NewBelow.find_op {t : Task} (h : t.NewBelow) {path : List Nat} {started done}
    (hf : t.find path = some (.op final started done)) : started = false := by
  rcases h with h | rfl
  · exact h.find_op hf
  · cases path with
    | nil => simp [find] at hf
    | cons i path => simp [find, findAt] at hf

theorem Task.NewBelow.start_counted {t : Task} (h : t.NewBelow) : t.start.Counted := by
  rcases h with h | rfl
  · exact h.start_fresh.counted
  · exact (Task.Fresh.que rfl rfl rfl rfl rfl (by simp [startListed])).counted

theorem Task.NewBelow.start_running {t : Task} (h : t.NewBelow) : t.start.RunningBelow := by
  rcases h with h | rfl
  · exact .inl h.start_running
  · exact .inr ⟨_, rfl, rfl⟩

theorem Task.RunningBelow.started (h : (Task.que q tasks).RunningBelow) : q.started = true := by
  rcases h with h | ⟨q', hq, hstarted⟩
  · cases h with
    | que started ne below => exact started
  · rw [que.injEq] at hq
    rw [hq.1]
    exact hstarted

theorem Task.RunningBelow.complete {t : Task} (h : t.RunningBelow)
    {path : List Nat} {t' : Task} (hc : t.complete path = some (t', fired)) : t'.RunningBelow := by
  rcases h with h | ⟨q, rfl, hq⟩
  · exact .inl (h.complete hc)
  · obtain ⟨l, t, u, s, f, i, p, htasks, _⟩ := complete_que hc
    simp at htasks

theorem Task.done_start (t : Task) : t.start.done = t.done := by
  cases t with
  | op final started done => rfl
  | que q tasks =>
    rw [start]
    split
    · rfl
    · cases tasks with
      | nil => rfl
      | cons t ts => simp only [done, startListed, isEmpty_cons]

theorem startListed_done (list : List Nat) (i : Nat) (tasks : List Task) :
    (startListed list i tasks).map Task.done = tasks.map Task.done := by
  induction tasks generalizing i with
  | nil => rfl
  | cons t ts ih =>
    rw [startListed, map_cons, ih, map_cons]
    split
    · rw [done_start]
    · rfl

/-- The thread is at the end of a chain. It has not started anything yet, or everything below
the queue was started; above the queue the thread is only in the first call. -/
def WaitState.Phase (s : WaitState) : Prop :=
  match s.pc with
  | .idle => (s.root.NewBelow ∧ s.returned = []) ∨ s.root.RunningBelow
  | .enter path => ∃ k t, path = List.replicate k 0 ∧ OnChain k s.root t ∧
      ((t.New ∨ k = 0 ∧ t.NewBelow) ∧ s.returned = [] ∨ k = 0 ∧ s.root.RunningBelow)
  | .blocked path => ∃ k t, path = List.replicate k 0 ∧ OnChain k s.root t ∧
      s.root.RunningBelow ∧ (k ≠ 0 → s.returned = [])
  | .unwind path => ∃ k q c, path = List.replicate k 0 ∧ OnChain k s.root (.que q [c]) ∧
      s.root.RunningBelow ∧ s.returned = []

/-- The invariant of all runs. -/
structure WaitState.Inv (n : Nat) (s : WaitState) : Prop where
  counted : s.root.Counted
  delivered : ∃ q tasks, s.root = .que q tasks ∧ tasks.length = n ∧ Delivered q tasks s.returned
  phase : s.Phase

theorem WaitState.Inv.phase_at {s : WaitState} {n pc} (h : s.Inv n) (hpc : s.pc = pc) :
    ({ s with pc := pc } : WaitState).Phase := hpc ▸ h.phase

theorem WaitState.Inv.start (h : ∀ t ∈ tasks, t.New) :
    (WaitState.start tasks).Inv tasks.length := by
  have hnew : (WaitState.start tasks).root.NewBelow := by
    cases tasks with
    | nil => exact .inr rfl
    | cons t ts => exact .inl (.que (by simp) h)
  refine ⟨hnew.counted, ⟨_, tasks, rfl, rfl, ?_, ?_, ?_⟩, .inl ⟨hnew, rfl⟩⟩
  · simp [QueData.new, WaitState.start]
  · intro i
    simp only [QueData.new, WaitState.start, filterMap_nil, append_nil,
      not_mem_nil, List.getElem?_map, map_eq_some_iff, false_iff, not_exists, not_and]
    intro t ht
    rw [(h t (mem_of_getElem? ht)).fresh.not_done]
    simp
  · intro before after hsplit
    simp [WaitState.start] at hsplit

/-- No operation completes before the tasks below the queue were started. -/
theorem WaitState.Inv.running_of_complete {s : WaitState} {n : Nat} (h : s.Inv n) {path}
    (hf : s.root.find path = some (.op final true false)) : s.root.RunningBelow := by
  cases hpc : s.pc with
  | idle =>
    rcases h.phase_at hpc with ⟨hnew, _⟩ | hrunning
    · exact absurd (hnew.find_op hf) (by simp)
    · exact hrunning
  | enter p =>
    obtain ⟨k, t, _, hchain, ⟨hnew, _⟩ | ⟨_, hrunning⟩⟩ := h.phase_at hpc
    · rcases hnew with hnew | ⟨rfl, hnew⟩
      · exact absurd (hchain.find_op hnew hf) (by simp)
      · rw [hchain] at hf
        exact absurd (hnew.find_op hf) (by simp)
    · exact hrunning
  | blocked p =>
    obtain ⟨_, _, _, _, hrunning, _⟩ := h.phase_at hpc
    exact hrunning
  | unwind p =>
    obtain ⟨_, _, _, _, _, hrunning, _⟩ := h.phase_at hpc
    exact hrunning

theorem opqueCb_finished (q : QueData) (i : Nat) (success : OpStatus) :
    (opqueCb q i success).1.finished = q.finished ++ [i] := by
  simp [opqueCb, apply_ite Prod.fst, apply_ite QueData.finished]

theorem Delivered.complete (h : Delivered q tasks returned) (hcount : (Task.que q tasks).Counted)
    {path : List Nat} {t' : Task} (hc : (Task.que q tasks).complete path = some (t', fired)) :
    ∃ q' tasks', t' = .que q' tasks' ∧ tasks'.length = tasks.length ∧
      Delivered q' tasks' returned := by
  obtain ⟨l, t, u, s, f, i, p, rfl, rfl, hs, hcases⟩ := complete_que hc
  cases hcount with
  | que counts below =>
    obtain ⟨_, htdone, hsdone⟩ := (below t (by simp)).complete hs
    rcases hcases with ⟨rfl, rfl, _⟩ | ⟨rfl, rfl, _⟩
    · exact ⟨_, _, rfl, by simp, h.congr rfl (by simp [htdone, ← hsdone])⟩
    · exact ⟨_, _, rfl, by simp, h.callback htdone hsdone.symm (opqueCb_finished q _ _)⟩

theorem WaitState.Inv.complete {s : WaitState} {n : Nat} (h : s.Inv n) {path : List Nat}
    {root' : Task} (hf : s.root.find path = some (.op final true false))
    (hc : s.root.complete path = some (root', fired)) :
    ({ s with root := root' } : WaitState).Inv n := by
  have hrunning := (h.running_of_complete hf).complete hc
  refine ⟨(h.counted.complete hc).1, ?_, ?_⟩
  · obtain ⟨q, tasks, hroot, hlen, hdelivered⟩ := h.delivered
    have hcount := h.counted
    rw [hroot] at hc hcount
    obtain ⟨q', tasks', hroot', hlen', hdelivered'⟩ := hdelivered.complete hcount hc
    exact ⟨q', tasks', hroot', hlen'.trans hlen, hdelivered'⟩
  · rw [WaitState.Phase]
    cases hpc : s.pc with
    | idle => exact .inr hrunning
    | enter p =>
      obtain ⟨k, t, hp, hchain, ⟨hnew, _⟩ | ⟨rfl, _⟩⟩ := h.phase_at hpc
      · rcases hnew with hnew | ⟨rfl, _⟩
        · exact absurd (hchain.find_op hnew hf) (by simp)
        · exact ⟨0, root', hp, rfl, .inr ⟨rfl, hrunning⟩⟩
      · exact ⟨0, root', hp, rfl, .inr ⟨rfl, hrunning⟩⟩
    | blocked p =>
      obtain ⟨k, t, hp, hchain, _, hreturned⟩ := h.phase_at hpc
      obtain ⟨t', hchain', _⟩ := hchain.complete hc
      exact ⟨k, t', hp, hchain', hrunning, hreturned⟩
    | unwind p =>
      obtain ⟨k, q, c, hp, hchain, _, hreturned⟩ := h.phase_at hpc
      obtain ⟨t', hchain', hkind⟩ := hchain.complete hc
      obtain ⟨q', tasks', rfl, hlen⟩ := hkind q [c] rfl
      obtain ⟨c', rfl⟩ := length_eq_one_iff.mp hlen
      exact ⟨k, q', c', hp, hchain', hrunning, hreturned⟩

variable {k n : Nat} {root t : Task} {f : Task → Task}

theorem Task.update_nil (f : Task → Task) (t : Task) : t.update f [] = f t := by
  cases t <;> rfl

theorem Task.status_start (t : Task) : t.start.status = t.status := by
  cases t with
  | op final started done => rfl
  | que q tasks =>
    rw [start]
    split <;> rfl

theorem Task.Counted.claim (h : t.Counted) : t.claim.Counted := by
  cases h with
  | op => exact .op
  | que counts below =>
    exact .que ⟨rfl, counts.nleft, counts.failed, counts.retries, counts.status⟩ below

theorem Task.Counted.popFinished (h : t.Counted) : t.popFinished.Counted := by
  cases h with
  | op => exact .op
  | que counts below =>
    exact .que ⟨counts.list, counts.nleft, counts.failed, counts.retries, counts.status⟩ below

theorem Task.Running.popFinished (h : t.Running) : t.popFinished.Running := by
  cases h with
  | op => exact .op
  | que started ne below => exact .que started ne below

theorem Task.RunningBelow.popFinished (h : t.RunningBelow) : t.popFinished.RunningBelow := by
  rcases h with h | ⟨q, rfl, hq⟩
  · exact .inl h.popFinished
  · exact .inr ⟨_, rfl, hq⟩

theorem OnChain.running_end (h : OnChain k root t) (hroot : root.Running) : t.Running := by
  induction k generalizing root with
  | zero =>
    rwa [← h]
  | succ k ih =>
    obtain ⟨q, c, rfl, _, hc⟩ := h
    cases hroot with
    | que started ne below => exact ih hc (below c (by simp))

theorem OnChain.update_running (h : OnChain k root t) (hroot : root.RunningBelow)
    (hf : t.RunningBelow → (f t).RunningBelow) (hf' : t.Running → (f t).Running) :
    (root.update f (List.replicate k 0)).RunningBelow := by
  cases k with
  | zero =>
    rw [replicate_zero, update_nil, h]
    exact hf (h ▸ hroot)
  | succ k =>
    rcases hroot with hroot | ⟨q, rfl, _⟩
    · exact .inl (h.update.running (hf' (h.running_end hroot)))
    · obtain ⟨q', c, hq, _⟩ := h
      simp at hq

/-- A change at the end of the chain that leaves the tasks of the queue as done as they were. -/
theorem OnChain.update_delivered (h : OnChain k root t) (hcount : root.Counted) (hf : (f t).Counted)
    (hdone : (f t).done = t.done) (hstatus : t.done = true → (f t).status = t.status)
    (htop : k = 0 → ∀ q tasks, t = .que q tasks → ∃ q' tasks', f t = .que q' tasks' ∧
      q'.finished = q.finished ∧ tasks'.map Task.done = tasks.map Task.done)
    (hd : ∃ q tasks, root = .que q tasks ∧ tasks.length = n ∧ Delivered q tasks returned) :
    ∃ q tasks, root.update f (List.replicate k 0) = .que q tasks ∧ tasks.length = n ∧
      Delivered q tasks returned := by
  obtain ⟨q, tasks, rfl, rfl, hd⟩ := hd
  cases k with
  | zero =>
    obtain ⟨q', tasks', hf', hfinished, hmap⟩ := htop rfl q tasks h.symm
    refine ⟨q', tasks', ?_, by simpa using congrArg List.length hmap, hd.congr hfinished hmap⟩
    rw [← hf', ← h]
    exact update_nil f _
  | succ k =>
    obtain ⟨q', c, hq, _, hc⟩ := h
    obtain ⟨rfl, rfl⟩ := hq
    cases hcount with
    | que counts below =>
      obtain ⟨_, hsame, _⟩ := hc.update_counted (below c (by simp)) hf hdone hstatus
      exact ⟨q, [c.update f (List.replicate k 0)], rfl, rfl, hd.congr rfl (by simpa using hsame)⟩

/-- The condition on a step: the thread comes back to the queue only when nothing is left. -/
def WaitState.Orderly (s : WaitState) (a : WaitAct) : Prop :=
  a = .go → s.pc = .unwind [] → ∀ q tasks, s.root = .que q tasks → q.nleft ≤ 0

variable {s : WaitState} {path : List Nat}

/-- The thread starts the task it came to. -/
theorem WaitState.Inv.begin (h : s.Inv n) (hpc : s.pc = .enter path) :
    ({ s with root := s.root.update Task.start path, pc := .blocked path } : WaitState).Inv n := by
  obtain ⟨k, t, rfl, hchain, hcases⟩ := h.phase_at hpc
  have htop : k = 0 → ∀ q tasks, t = .que q tasks → ∃ q' tasks', t.start = .que q' tasks' ∧
      q'.finished = q.finished ∧ tasks'.map done = tasks.map done := by
    rintro _ q tasks rfl
    rw [Task.start]
    split
    · exact ⟨_, _, rfl, rfl, rfl⟩
    · exact ⟨_, _, rfl, rfl, startListed_done _ _ _⟩
  have hstart : t.start.Counted ∧
      (s.root.update Task.start (List.replicate k 0)).RunningBelow := by
    rcases hcases with ⟨hnew | ⟨rfl, hnew⟩, _⟩ | ⟨rfl, hrunning⟩
    · exact ⟨hnew.start_fresh.counted, .inl (hchain.update.running hnew.start_running)⟩
    · rw [replicate_zero, update_nil, hchain]
      exact ⟨hnew.start_counted, hnew.start_running⟩
    · obtain ⟨q, tasks, hroot, _⟩ := h.delivered
      have hcount := h.counted
      rw [OnChain, hroot] at hchain
      rw [hroot] at hrunning hcount
      rw [replicate_zero, Task.update_nil, hroot, ← hchain, Task.start,
        if_pos hrunning.started]
      exact ⟨hcount, hrunning⟩
  have hreturned : k ≠ 0 → s.returned = [] := by
    rcases hcases with ⟨_, hreturned⟩ | ⟨rfl, _⟩
    · exact fun _ => hreturned
    · exact fun hk => absurd rfl hk
  have hstatus : t.done = true → t.start.status = t.status := fun _ => t.status_start
  exact ⟨(hchain.update_counted h.counted hstart.1 t.done_start hstatus).1,
    hchain.update_delivered h.counted hstart.1 t.done_start hstatus htop h.delivered,
    k, t.start, rfl, hchain.update, hstart.2, hreturned⟩

/-- An unstarted queue with one task on its list has one new task. -/
theorem WaitState.Inv.single (h : s.Inv n) (hpc : s.pc = .enter path) {i}
    (hfind : s.root.find path = some (.que q tasks)) (hlist : q.list = [i])
    (hstarted : q.started = false) :
    ∃ k c, path = List.replicate k 0 ∧ OnChain k s.root (.que q [c]) ∧ tasks = [c] ∧ c.New ∧
      i = 0 ∧ s.returned = [] := by
  obtain ⟨k, t, rfl, hchain, hcases⟩ := h.phase_at hpc
  obtain rfl : t = .que q tasks := some.inj (hchain.find.symm.trans hfind)
  rcases hcases with ⟨hnew, hreturned⟩ | ⟨rfl, hrunning⟩
  · have hnew : (que q tasks).New := by
      rcases hnew with hnew | ⟨_, hnew | hempty⟩
      · exact hnew
      · exact hnew
      · rw [que.injEq] at hempty
        rw [hempty.1] at hlist
        simp [QueData.new] at hlist
    cases hnew with
    | que ne below =>
      have hlen : tasks.length = 1 := by
        simpa [QueData.new] using congrArg List.length hlist
      obtain ⟨c, rfl⟩ := length_eq_one_iff.mp hlen
      refine ⟨k, c, rfl, hchain, rfl, below c (by simp), ?_, hreturned⟩
      simpa [QueData.new] using hlist.symm
  · rw [hchain] at hrunning
    rw [hrunning.started] at hstarted
    simp at hstarted

/-- The thread claims the only task of a queue. -/
theorem WaitState.Inv.claim (h : s.Inv n) {c : Task} (hchain : OnChain k s.root (.que q [c]))
    (hc : c.New) (hreturned : s.returned = []) :
    ({ s with
      root := s.root.update Task.claim (List.replicate k 0)
      pc := .enter (List.replicate k 0 ++ [0]) } : WaitState).Inv n := by
  have hcount := (hchain.counted h.counted).1.claim
  have hclaimed : OnChain (k + 1) (s.root.update Task.claim (List.replicate k 0)) c :=
    hchain.update.snoc rfl
  refine ⟨(hchain.update_counted h.counted hcount rfl fun _ => rfl).1,
    hchain.update_delivered h.counted hcount rfl (fun _ => rfl) ?_ h.delivered,
    k + 1, c, replicate_succ'.symm, hclaimed, .inl ⟨.inl hc, hreturned⟩⟩
  rintro _ q' tasks' hq
  obtain ⟨rfl, rfl⟩ := hq
  exact ⟨_, _, rfl, rfl, rfl⟩

/-- A call on a task below the queue returns to the call above. -/
theorem WaitState.Inv.leave_below (hcount : s.root.Counted)
    (hdelivered : ∃ q tasks, s.root = .que q tasks ∧ tasks.length = n ∧
      Delivered q tasks s.returned)
    (hchain : OnChain (k + 1) s.root t) (hrunning : s.root.RunningBelow)
    (hreturned : s.returned = []) (value : Option Nat) :
    (s.leave (List.replicate (k + 1) 0) value).Inv n := by
  obtain ⟨q, hchain'⟩ := hchain.unsnoc
  rw [leave, if_neg (by simp), dropLast_replicate]
  exact ⟨hcount, hdelivered, k, q, t, rfl, hchain', hrunning, hreturned⟩

/-- A call takes what it finds among the finished tasks of its queue. -/
theorem WaitState.Inv.take (h : s.Inv n) (hchain : OnChain k s.root (.que q tasks))
    (hrunning : s.root.RunningBelow) (hreturned : k ≠ 0 → s.returned = [])
    (hready : k = 0 → ¬ (q.finished = [] ∧ 0 < q.nleft)) :
    ({ s with root := s.root.update Task.popFinished (List.replicate k 0) }.leave
      (List.replicate k 0) q.finished.head?).Inv n := by
  have hcount := (hchain.counted h.counted).1.popFinished
  have hcounted := (hchain.update_counted h.counted hcount rfl fun _ => rfl).1
  have hrunning' := hchain.update_running hrunning Task.RunningBelow.popFinished
    Task.Running.popFinished
  cases k with
  | zero =>
    obtain ⟨q', tasks', hroot, hlen, hd⟩ := h.delivered
    rw [hchain, que.injEq] at hroot
    obtain ⟨rfl, rfl⟩ := hroot
    refine ⟨hcounted, ?_, .inr hrunning'⟩
    rw [hchain]
    cases hq : q.finished with
    | nil =>
      have hall : ∀ t ∈ tasks, t.done = true := by
        have hle : q.nleft ≤ 0 := by
          grind
        have hcount := h.counted
        rw [hchain] at hcount
        cases hcount with
        | que counts below => exact counts.all_done hle
      exact ⟨_, _, rfl, hlen, (hd.null hq hall).congr (by rw [hq]; rfl) rfl⟩
    | cons i rest => exact ⟨_, _, rfl, hlen, (hd.pop hq).congr (by rw [hq]; rfl) rfl⟩
  | succ k =>
    have hdelivered := hchain.update_delivered h.counted hcount rfl (fun _ => rfl)
      (fun hk => absurd hk (by simp)) h.delivered
    exact WaitState.Inv.leave_below
      (s := { s with root := s.root.update popFinished (List.replicate (k + 1) 0) })
      hcounted hdelivered hchain.update hrunning' (hreturned (by simp)) _

theorem WaitState.Inv.go {s' : WaitState} (h : s.Inv n) (hok : s.Orderly .go)
    (hgo : s.go = some s') : s'.Inv n := by
  rcases go_cases hgo with ⟨path, t, hpc, hfind, rfl⟩ |
    ⟨path, q, tasks, i, hpc, hfind, hlist, hstarted, rfl⟩ |
    ⟨path, final, started, hpc, hfind, rfl⟩ | ⟨path, q, tasks, hpc, hfind, rfl⟩
  · exact h.begin hpc
  · obtain ⟨k, c, rfl, hchain, rfl, hc, rfl, hreturned⟩ := h.single hpc hfind hlist hstarted
    exact h.claim hchain hc hreturned
  · obtain ⟨k, t, rfl, hchain, hrunning, hreturned⟩ := h.phase_at hpc
    cases k with
    | zero =>
      obtain ⟨q, tasks, hroot, _⟩ := h.delivered
      rw [hroot, replicate_zero, find] at hfind
      simp at hfind
    | succ k => exact .leave_below h.counted h.delivered hchain hrunning (hreturned (by simp)) _
  · rcases hpc with ⟨hpc, hready⟩ | hpc
    · obtain ⟨k, t, rfl, hchain, hrunning, hreturned⟩ := h.phase_at hpc
      obtain rfl : t = .que q tasks := some.inj (hchain.find.symm.trans hfind)
      exact h.take hchain hrunning hreturned fun _ => hready
    · obtain ⟨k, q', c, rfl, hchain, hrunning, hreturned⟩ := h.phase_at hpc
      rw [hchain.find, some.injEq, que.injEq] at hfind
      obtain ⟨rfl, rfl⟩ := hfind
      refine h.take hchain hrunning (fun _ => hreturned) ?_
      rintro rfl ⟨_, hleft⟩
      have := hok rfl hpc q' [c] hchain
      omega

/-- Each permitted step keeps the invariant. -/
theorem WaitState.Inv.step {s s' : WaitState} {n : Nat} {a : WaitAct} (h : s.Inv n)
    (hok : s.Orderly a) (hstep : s.step a = some s') : s'.Inv n := by
  cases a with
  | call =>
    obtain ⟨hpc, ⟨⟩⟩ := ite_none_right_eq_some.mp hstep
    refine ⟨h.counted, h.delivered, 0, s.root, rfl, rfl, ?_⟩
    rcases h.phase_at hpc with ⟨hnew, hreturned⟩ | hrunning
    · exact .inl ⟨.inr ⟨rfl, hnew⟩, hreturned⟩
    · exact .inr ⟨rfl, hrunning⟩
  | go => exact h.go hok hstep
  | complete path =>
    obtain ⟨final, root', fired, hfind, hcomplete, rfl⟩ := complete_cases hstep
    exact h.complete hfind hcomplete

/-- While the queue is not done an operation can complete. -/
theorem WaitState.exists_complete {s : WaitState} (hcount : s.root.Counted)
    (hrunning : s.root.Running) (hdone : s.root.done = false) :
    ∃ path s', s.step (.complete path) = some s' := by
  obtain ⟨path, final, hfind, hcomplete⟩ := hrunning.exists_complete hcount hdone
  obtain ⟨r, hr⟩ := isSome_iff_exists.mp hcomplete
  refine ⟨path, { s with root := r.1 }, ?_⟩
  rw [step, hfind]
  simp [hr]

/-- A task with something left is at the end of a chain of running tasks. -/
theorem OnChain.running_of_undone {k : Nat} {root t : Task} (h : OnChain k root t)
    (hcount : root.Counted) (hroot : root.RunningBelow)
    (hleft : ∀ q tasks, t = .que q tasks → 0 < q.nleft) : root.Running := by
  rcases hroot with hroot | ⟨q, rfl, _⟩
  · exact hroot
  · cases k with
    | zero =>
      cases hcount with
      | que counts _ =>
        have := hleft q [] h.symm
        rw [counts.nleft] at this
        simp at this
    | succ k =>
      obtain ⟨_, _, hq, _⟩ := h
      simp at hq

/-- A call that has not returned can go on, or an operation can complete. -/
theorem WaitState.Inv.progress {s : WaitState} {n : Nat} (h : s.Inv n) (hpc : s.pc ≠ .idle) :
    ∃ a s', a ≠ .call ∧ s.Orderly a ∧ s.step a = some s' := by
  have hcomplete {k : Nat} {t : Task} (hchain : OnChain k s.root t) (hrunning : s.root.RunningBelow)
      (hdone : t.done = false) (hleft : ∀ q tasks, t = .que q tasks → 0 < q.nleft) :
      ∃ a s', a ≠ .call ∧ s.Orderly a ∧ s.step a = some s' := by
    obtain ⟨path, s', hstep⟩ := s.exists_complete h.counted
      (hchain.running_of_undone h.counted hrunning hleft)
      ((hchain.counted h.counted).2.symm.trans hdone)
    exact ⟨.complete path, s', by simp, fun hgo => by simp at hgo, hstep⟩
  have hwait {k : Nat} {q : QueData} {tasks : List Task} (hchain : OnChain k s.root (.que q tasks))
      (hrunning : s.root.RunningBelow) (hleft : 0 < q.nleft) :
      ∃ a s', a ≠ .call ∧ s.Orderly a ∧ s.step a = some s' := by
    refine hcomplete hchain hrunning (by simp [done, Int.not_le.mpr hleft]) ?_
    intro q' tasks' hq
    rw [que.injEq] at hq
    exact hq.1 ▸ hleft
  have hgo (hok : s.Orderly .go) (hsome : s.go.isSome = true) :
      ∃ a s', a ≠ .call ∧ s.Orderly a ∧ s.step a = some s' := by
    obtain ⟨s', hs'⟩ := isSome_iff_exists.mp hsome
    exact ⟨.go, s', by simp, hok, hs'⟩
  cases hs : s.pc with
  | idle => exact absurd hs hpc
  | enter path =>
    obtain ⟨k, t, rfl, hchain, _⟩ := h.phase_at hs
    refine hgo (fun _ hunwind => by simp [hs] at hunwind) ?_
    simp only [WaitState.go, hs, hchain.find]
    cases t with
    | op final started done => rfl
    | que q tasks =>
      dsimp only
      split <;> rfl
  | blocked path =>
    obtain ⟨k, t, rfl, hchain, hrunning, _⟩ := h.phase_at hs
    cases t with
    | op final started done =>
      cases done with
      | false => exact hcomplete hchain hrunning rfl (by simp)
      | true =>
        refine hgo (fun _ hunwind => by simp [hs] at hunwind) ?_
        simp [WaitState.go, hs, hchain.find]
    | que q tasks =>
      by_cases hnone : q.finished = [] ∧ 0 < q.nleft
      · exact hwait hchain hrunning hnone.2
      · refine hgo (fun _ hunwind => by simp [hs] at hunwind) ?_
        simp [WaitState.go, hs, hchain.find, if_neg hnone]
  | unwind path =>
    obtain ⟨k, q, c, rfl, hchain, hrunning, _⟩ := h.phase_at hs
    by_cases hleft : 0 < q.nleft
    · exact hwait hchain hrunning hleft
    · refine hgo ?_ ?_
      · intro _ hunwind q' tasks' hroot
        rw [hs, WaitPc.unwind.injEq] at hunwind
        have hfind := hchain.find
        rw [hunwind, hroot, find, some.injEq, que.injEq] at hfind
        rw [hfind.1]
        omega
      · simp [WaitState.go, hs, hchain.find]

mutual

/-- What the operations below a task can still do, and the size of the task. -/
def Task.work : Task → Nat
  | .op _ _ done => if done then 1 else 2
  | .que _ tasks => 1 + workOf tasks

def workOf : List Task → Nat
  | [] => 0
  | t :: ts => t.work + workOf ts

end

theorem workOf_eq (tasks : List Task) : workOf tasks = (tasks.map Task.work).sum := by
  induction tasks with
  | nil => rfl
  | cons t ts ih => rw [workOf, ih, map_cons, sum_cons]

theorem Task.work_complete {t t' : Task} {path} (h : t.complete path = some (t', fired)) :
    t'.work < t.work := by
  induction t using induction generalizing path t' fired with
  | op final started done =>
    obtain ⟨⟨rfl, -⟩, ⟨⟩⟩ := ite_none_right_eq_some.mp h
    exact Nat.lt_succ_self 1
  | que q tasks ih =>
    obtain ⟨l, t, u, s, f, i, p, rfl, _, hs, hcases⟩ := complete_que h
    have hlt := ih t (by simp) hs
    have hsum : workOf (l ++ s :: u) < workOf (l ++ t :: u) := by
      simp only [workOf_eq, map_append, map_cons, sum_append, sum_cons]
      omega
    rcases hcases with ⟨_, rfl, _⟩ | ⟨_, rfl, _⟩ <;> simp only [work] <;> omega

theorem Task.work_start (t : Task) : t.start.work = t.work := by
  induction t using induction with
  | op final started done => rfl
  | que q tasks ih =>
    rw [start]
    split
    · rfl
    · rw [work, work]
      congr 1
      generalize q.list = list
      generalize 0 = i
      induction tasks generalizing i with
      | nil => rfl
      | cons t ts iht =>
        rw [startListed, workOf, workOf, iht (fun u hu => ih u (by simp [hu]))]
        split
        · rw [ih t (by simp)]
        · rfl

theorem OnChain.work_update {k root t f} (h : OnChain k root t) (hf : (f t).work = t.work) :
    (root.update f (List.replicate k 0)).work = root.work := by
  induction k generalizing root with
  | zero =>
    rw [replicate_zero, Task.update_nil, h, hf]
  | succ k ih =>
    obtain ⟨q, c, rfl, _, hc⟩ := h
    simp [replicate_succ, Task.update, updateAt, Task.work, workOf, ih hc]

/-- The steps that can still be made before the call returns, at most. -/
def WaitState.rank (s : WaitState) : Nat :=
  s.root.work + match s.pc with
    | .idle => 0
    | .enter path =>
      match s.root.find path with
      | some t => path.length + 2 * t.work + 3
      | none => 0
    | .blocked path => path.length + 2
    | .unwind path => path.length + 1

theorem WaitState.rank_leave {s : WaitState} (path : List Nat) (value : Option Nat) :
    (s.leave path value).rank ≤ s.root.work + path.length := by
  rw [leave]
  split_ifs with hpath
  · simp [rank]
  · have := length_pos_iff.mpr hpath
    simp only [rank, length_dropLast]
    omega

/-- Every step but a new call lowers the rank, so that each call returns. -/
theorem WaitState.Inv.rank_step {s s' : WaitState} {n : Nat} {a : WaitAct} (h : s.Inv n)
    (hcall : a ≠ .call) (hstep : s.step a = some s') : s'.rank < s.rank := by
  cases a with
  | call => exact absurd rfl hcall
  | complete path =>
    obtain ⟨final, root', fired, hfind, hcomplete, rfl⟩ := complete_cases hstep
    have hwork := work_complete hcomplete
    cases hs : s.pc with
    | idle =>
      simp only [rank, hs]
      omega
    | enter p =>
      obtain ⟨k, t, rfl, hchain, hcases⟩ := h.phase_at hs
      have hk : k = 0 := by
        rcases hcases with ⟨hnew | ⟨hk, _⟩, _⟩ | ⟨hk, _⟩
        · exact absurd (hchain.find_op hnew hfind) (by simp)
        · exact hk
        · exact hk
      subst hk
      simp only [rank, hs, replicate_zero, find]
      omega
    | blocked p =>
      simp only [rank, hs]
      omega
    | unwind p =>
      simp only [rank, hs]
      omega
  | go =>
    rcases go_cases hstep with ⟨path, t, hpc, hfind, rfl⟩ |
      ⟨path, q, tasks, i, hpc, hfind, hlist, hstarted, rfl⟩ |
      ⟨path, final, started, hpc, hfind, rfl⟩ | ⟨path, q, tasks, hpc, hfind, rfl⟩
    · obtain ⟨k, t', rfl, hchain, _⟩ := h.phase_at hpc
      simp only [rank, hpc, hchain.find, hchain.work_update t'.work_start]
      omega
    · obtain ⟨k, c, rfl, hchain, rfl, _, rfl, _⟩ := h.single hpc hfind hlist hstarted
      have hclaimed : OnChain (k + 1) (s.root.update Task.claim (List.replicate k 0)) c :=
        hchain.update.snoc rfl
      have hwork := hchain.work_update (f := Task.claim) rfl
      simp only [rank, hpc, hfind, ← replicate_succ', hclaimed.find, hwork,
        length_replicate, work, workOf]
      omega
    · have := s.rank_leave path none
      simp only [rank, hpc] at this ⊢
      omega
    · obtain ⟨k, hp, hchain⟩ : ∃ k, path = List.replicate k 0 ∧ OnChain k s.root (.que q tasks) := by
        rcases hpc with ⟨hpc, _⟩ | hpc
        · obtain ⟨k, t, rfl, hchain, _⟩ := h.phase_at hpc
          exact ⟨k, rfl, some.inj (hchain.find.symm.trans hfind) ▸ hchain⟩
        · obtain ⟨k, q', c, rfl, hchain, _⟩ := h.phase_at hpc
          exact ⟨k, rfl, some.inj (hchain.find.symm.trans hfind) ▸ hchain⟩
      have hleave := ({ s with root := s.root.update popFinished path } : WaitState).rank_leave
        path q.finished.head?
      have hwork := hchain.work_update (f := popFinished) rfl
      rw [← hp] at hwork
      refine Nat.lt_of_le_of_lt hleave ?_
      rcases hpc with ⟨hpc, _⟩ | hpc <;> simp only [rank, hpc] <;> omega

/-- The calls return each of the `n` tasks once, after it has completed, and nothing only when
all of them were returned before. A call that has not returned can go on, and is over after
finitely many steps. -/
structure WaitState.DeliversEach (n : Nat) (s : WaitState) : Prop where
  once : (s.returned.filterMap id).Nodup
  completed : ∀ i, some i ∈ s.returned → ∃ t, s.root.find [i] = some t ∧ t.done = true
  nulls : ∀ before after, s.returned = before ++ none :: after → ∀ i, i < n → some i ∈ before
  all : n ≤ s.returned.length → ∀ i, i < n → some i ∈ s.returned
  goesOn : s.pc ≠ .idle → ∃ a s', a ≠ .call ∧ s.Orderly a ∧ s.step a = some s'
  nearer : ∀ a s', a ≠ .call → s.step a = some s' → s'.rank < s.rank

theorem findAt_nil {i} : findAt tasks i [] = tasks[i]? := by
  induction tasks generalizing i with
  | nil => rfl
  | cons t ts ih =>
    cases i with
    | zero => cases t <;> rfl
    | succ i => exact ih

/-- As many returns as tasks: each task is among them. -/
theorem Delivered.all (h : Delivered q tasks returned) (hlen : tasks.length ≤ returned.length) {i}
    (hi : i < tasks.length) : some i ∈ returned := by
  by_cases hnull : none ∈ returned
  · obtain ⟨before, after, rfl⟩ := append_of_mem hnull
    exact mem_append_left _ (h.nulls before after rfl i hi)
  · -- without a null the returned tasks are distinct and as many as there are
    have hsome : ∀ x ∈ returned, x.isSome = true := by
      intro x hx
      cases x with
      | none => exact absurd hx hnull
      | some i => rfl
    have hcount : (returned.filterMap id).length = returned.length := by
      simpa using hsome
    have hsub : returned.filterMap id ⊆ List.range tasks.length := by
      intro j hj
      have hj := (h.mem j).mp (mem_append_right _ hj)
      obtain ⟨hlt, _⟩ := List.getElem?_eq_some_iff.mp hj
      simpa using hlt
    have hnodup : (returned.filterMap id).Nodup := (nodup_append.mp h.nodup).2.1
    have hperm := (subperm_of_subset hnodup hsub).perm_of_length_le (by rwa [hcount, length_range])
    have hmem := hperm.mem_iff.mpr (mem_range.mpr hi)
    obtain ⟨x, hx, hxi⟩ := mem_filterMap.mp hmem
    rw [← show x = some i from hxi]
    exact hx

theorem WaitState.Inv.deliversEach {s : WaitState} {n} (h : s.Inv n) : s.DeliversEach n := by
  obtain ⟨q, tasks, hroot, rfl, hd⟩ := h.delivered
  constructor
  case once => exact (nodup_append.mp hd.nodup).2.1
  case completed =>
    intro i hi
    have hmem : i ∈ q.finished ++ s.returned.filterMap id :=
      mem_append_right _ (mem_filterMap.mpr ⟨some i, hi, rfl⟩)
    have hdone := (hd.mem i).mp hmem
    rw [List.getElem?_map, map_eq_some_iff] at hdone
    rw [hroot, find, findAt_nil]
    exact hdone
  case nulls => exact hd.nulls
  case all => exact fun hlen i hi => hd.all hlen hi
  case goesOn => exact h.progress
  case nearer => exact fun a s' ha hstep => h.rank_step ha hstep

/-- In every run in which the thread comes back from the wait for the only task of the queue
when that task is done, each task is delivered once. -/
theorem waitany_delivers_each (tasks : List Task) (hnew : ∀ t ∈ tasks, t.New) (s : WaitState)
    (h : Reached (WaitState.start tasks) WaitState.step WaitState.Orderly s) :
    s.DeliversEach tasks.length := by
  have hinv : s.Inv tasks.length :=
    h.invariant (.start hnew) fun _ _ _ hi hok hstep => hi.step hok hstep
  exact hinv.deliversEach

/-- The queue has one operation, which the call claims, starts and waits for. -/
theorem waitany_delivers_single : ∃ s,
    run WaitState.step (WaitState.start [.op gopSuccessStatus false false])
      [.call, .go, .go, .complete [0], .go, .go] = some s ∧
      s.DeliversEach 1 ∧ s.returned = [some 0] := by
  refine ⟨_, rfl, waitany_delivers_each [.op gopSuccessStatus false false] ?_ _ ?_, rfl⟩
  · simpa using Task.New.op
  · refine .step (a := .go) (.step (a := .go) (.step (a := .complete [0]) (.step (a := .go)
      (.step (a := .go) (.step (a := .call) .start ?_ rfl) ?_ rfl) ?_ rfl) ?_ rfl) ?_ rfl) ?_ rfl
    all_goals
      intro hgo hpc q tasks hroot
      cases hgo <;> cases hpc <;> cases hroot
    decide

/-- The queue has one queue of two operations. The call waits for any of the two and returns
nothing while the other one, and with it the inner queue, is not done. -/
theorem waitany_null_early :
    let inner := que (QueData.new 2)
      [.op gopSuccessStatus false false, .op gopSuccessStatus false false]
    inner.New ∧ ∃ s, run step (start [inner])
      [.call, .go, .go, .complete [0, 0], .go, .go] = some s ∧
      s.pc = .idle ∧ s.returned = [none] ∧ (s.root.find [0]).map done = some false ∧
      ¬ s.DeliversEach 1 := by
  have hnew : (que _
      [.op gopSuccessStatus false false, .op gopSuccessStatus false false]).New :=
    @Task.New.que [.op gopSuccessStatus false false, .op gopSuccessStatus false false]
      (by simp) (by simpa using Task.New.op)
  refine ⟨hnew, _, rfl, rfl, rfl, rfl, fun h => ?_⟩
  exact absurd (h.nulls [] [] rfl 0 (by decide)) (by simp)

end LStore.Gop
