import LStore.Gop.OpqueStatus
import LStore.Gop.Waitany

/-!
# What repeated waits return

The finished tasks of a queue and those its waits have returned are together the tasks that
are done, each once. A wait returns nothing only when it finds nothing finished and nothing
left, or when it comes back from the wait for the only task of the queue before that task is
done.
-/

namespace LStore.Gop

open List LStore.Gop.Task

variable {fired : Bool}

variable {l u : List Task} {t : Task} {path : List Nat}

theorem findAt_middle : findAt (l ++ t :: u) l.length path = t.find path := by
  induction l with
  | nil => rfl
  | cons x l ih => exact ih

theorem completeAt_middle {t'} (h : t.complete path = some (t', fired)) :
    completeAt (l ++ t :: u) l.length path =
      some (l ++ t' :: u, if fired then some t'.status else none) := by
  induction l with
  | nil => simp only [nil_append, length_nil, completeAt, h]
  | cons x l ih => simp only [cons_append, length_cons, completeAt, ih]

/-- A completion in a task is one in its queue. -/
theorem complete_que_middle {q r} (h : t.complete path = some r) :
    ((Task.que q (l ++ t :: u)).complete (l.length :: path)).isSome = true := by
  obtain ⟨t', fired⟩ := r
  rw [complete, completeAt_middle h]
  cases fired <;> rfl

/-- Nothing below the task was started; the queues are not empty. -/
inductive Task.New : Task → Prop
  | op {final} : New (.op final false false)
  | que {tasks} (ne : tasks ≠ []) (below : ∀ t ∈ tasks, t.New) :
      New (.que (QueData.new tasks.length) tasks)

/-- All operations below the task were started; the queues are not empty. -/
inductive Task.Running : Task → Prop
  | op {final done} : Running (.op final true done)
  | que {q tasks} (started : q.started = true) (ne : tasks ≠ []) (below : ∀ t ∈ tasks, t.Running) :
      Running (.que q tasks)

theorem startListed_all {list i tasks} (h : ∀ j, i ≤ j → j < i + tasks.length → j ∈ list) :
    startListed list i tasks = tasks.map Task.start := by
  induction tasks generalizing i with
  | nil => rfl
  | cons t ts ih =>
    simp only [length_cons] at h
    rw [startListed, if_pos (h i (Nat.le_refl i) (by omega)),
      ih fun j hj hlt => h j (by omega) (by omega), map_cons]

theorem start_new (tasks : List Task) :
    (Task.que (QueData.new tasks.length) tasks).start =
      .que { QueData.new tasks.length with started := true, list := [] }
        (tasks.map Task.start) := by
  rw [start, if_neg (by simp [QueData.new]), startListed_all]
  intro j _ hlt
  simpa [QueData.new] using hlt

theorem Task.New.start_running {t : Task} (h : t.New) : t.start.Running := by
  induction h with
  | op => exact .op
  | @que tasks ne below ih =>
    rw [start_new]
    refine .que rfl (by simpa using ne) ?_
    intro t ht
    obtain ⟨s, hs, rfl⟩ := mem_map.mp ht
    exact ih s hs

theorem Task.New.fresh {t : Task} (h : t.New) : t.Fresh := by
  induction h with
  | op => exact .op
  | que ne below ih => exact .que rfl rfl rfl rfl rfl ih

/-- No operation below a new task can complete. -/
theorem Task.New.find_op {t : Task} (h : t.New) {path} {final : OpStatus} {started done}
    (hf : t.find path = some (.op final started done)) : started = false := by
  induction h generalizing path with
  | op =>
    cases path with
    | nil =>
      rw [find, Option.some.injEq, op.injEq] at hf
      exact hf.2.1.symm
    | cons i path => simp [find] at hf
  | @que tasks ne below ih =>
    cases path with
    | nil => simp [find] at hf
    | cons i path =>
      rw [find] at hf
      clear ne
      induction tasks generalizing i with
      | nil => simp [findAt] at hf
      | cons t ts iht =>
        cases i with
        | zero => exact ih t (by simp) hf
        | succ i =>
          exact iht (forall_mem_cons.mp below).2 (forall_mem_cons.mp ih).2
            i hf

theorem Task.New.start_fresh {t : Task} (h : t.New) : t.start.Fresh := by
  induction h with
  | op => exact .op
  | @que tasks ne below ih =>
    rw [start_new]
    refine .que rfl (by simp [QueData.new]) rfl rfl rfl ?_
    intro t ht
    obtain ⟨s, hs, rfl⟩ := mem_map.mp ht
    exact ih s hs

/-- Completions keep tasks running, and keep the kind and the number of tasks. -/
theorem Task.Running.complete {t : Task} (h : t.Running) {path} {t' : Task}
    (hc : t.complete path = some (t', fired)) : t'.Running := by
  induction t using induction generalizing path t' fired with
  | op final started done =>
    obtain ⟨-, ⟨⟩⟩ := Option.ite_none_right_eq_some.mp hc
    cases h with
    | op => exact .op
  | que q tasks ih =>
    obtain ⟨l, t, u, s, f, i, p, rfl, _, hs, hcases⟩ := complete_que hc
    cases h with
    | que started ne running =>
      have hbelow : ∀ x ∈ l ++ s :: u, x.Running := by
        intro x hx
        rcases mem_middle.mp hx with rfl | hx
        · exact ih t (by simp) (running t (by simp)) hs
        · exact running x (mem_middle.mpr (.inr hx))
      rcases hcases with ⟨_, rfl, _⟩ | ⟨_, rfl, _⟩
      · exact .que started (by simp) hbelow
      · exact .que ((opqueCb_kept q i s.status).2.trans started) (by simp) hbelow

/-- Below a running task that is not done an operation can complete. -/
theorem Task.Running.exists_complete {t : Task} (h : t.Running) (hcount : t.Counted)
    (hdone : t.done = false) :
    ∃ path final, t.find path = some (.op final true false) ∧ (t.complete path).isSome = true := by
  induction h with
  | @op final done =>
    rw [Task.done] at hdone
    rw [hdone]
    exact ⟨[], final, rfl, rfl⟩
  | @que q tasks started ne below ih =>
    cases hcount with
    | que counts counted =>
      obtain ⟨t, ht, htdone⟩ : ∃ t ∈ tasks, t.done = false := by
        by_contra hnone
        have hzero : (tasks.countP fun t => !t.done) = 0 := by
          refine countP_eq_zero.mpr fun t ht hundone => hnone ⟨t, ht, ?_⟩
          simpa using hundone
        have hnleft := counts.nleft
        rw [hzero] at hnleft
        simp [done, hnleft, ne] at hdone
      obtain ⟨l, u, rfl⟩ := append_of_mem ht
      obtain ⟨path, final, hfind, hcomplete⟩ := ih t ht (counted t ht) htdone
      obtain ⟨r, hr⟩ := Option.isSome_iff_exists.mp hcomplete
      exact ⟨l.length :: path, final, findAt_middle.trans hfind, complete_que_middle hr⟩

/-- The second task is found from the first through `k` started queues with one task each. -/
def OnChain : Nat → Task → Task → Prop
  | 0, root, t => root = t
  | k + 1, root, t => ∃ q c, root = .que q [c] ∧ q.started = true ∧ OnChain k c t

variable {k : Nat} {root : Task} {f : Task → Task}

theorem OnChain.find (h : OnChain k root t) : root.find (List.replicate k 0) = some t := by
  induction k generalizing root with
  | zero =>
    rw [h]
    cases t <;> rfl
  | succ k ih =>
    obtain ⟨q, c, rfl, _, hc⟩ := h
    exact ih hc

theorem OnChain.update (h : OnChain k root t) :
    OnChain k (root.update f (List.replicate k 0)) (f t) := by
  induction k generalizing root with
  | zero =>
    rw [h]
    cases t <;> rfl
  | succ k ih =>
    obtain ⟨q, c, rfl, hq, hc⟩ := h
    exact ⟨q, c.update f (List.replicate k 0), rfl, hq, ih hc⟩

theorem OnChain.snoc {q c} (h : OnChain k root (.que q [c])) (hq : q.started = true) :
    OnChain (k + 1) root c := by
  induction k generalizing root with
  | zero => exact ⟨q, c, h, hq, rfl⟩
  | succ k ih =>
    obtain ⟨q', c', rfl, hq', hc⟩ := h
    exact ⟨q', c', rfl, hq', ih hc⟩

theorem OnChain.unsnoc (h : OnChain (k + 1) root t) :
    ∃ q, OnChain k root (.que q [t]) := by
  induction k generalizing root with
  | zero =>
    obtain ⟨q, c, rfl, _, hc⟩ := h
    rw [hc]
    exact ⟨q, rfl⟩
  | succ k ih =>
    obtain ⟨q', c', rfl, hq', hc⟩ := h
    obtain ⟨q, hchain⟩ := ih hc
    exact ⟨q, q', c', rfl, hq', hchain⟩

theorem QueData.Counts.done_single {q : QueData} {c} (h : q.Counts [c]) :
    (Task.que q [c]).done = c.done := by
  have hnleft := h.nleft
  rw [done]
  cases hc : c.done <;> simp [hc] at hnleft <;> simp [hnleft]

/-- Along a chain all tasks are done together. -/
theorem OnChain.counted (h : OnChain k root t) (hcount : root.Counted) :
    t.Counted ∧ t.done = root.done := by
  induction k generalizing root with
  | zero =>
    rw [← h]
    exact ⟨hcount, rfl⟩
  | succ k ih =>
    obtain ⟨q, c, rfl, _, hc⟩ := h
    cases hcount with
    | que counts below =>
      rw [counts.done_single]
      exact ih hc (below c (by simp))

theorem OnChain.running (h : OnChain k root t) (ht : t.Running) : root.Running := by
  induction k generalizing root with
  | zero =>
    rwa [h]
  | succ k ih =>
    obtain ⟨q, c, rfl, hq, hc⟩ := h
    exact .que hq (by simp) (by simpa using ih hc)

theorem QueData.Counts.alike {q : QueData} {c c'} (h : q.Counts [c]) (hdone : c'.done = c.done)
    (hstatus : c.done = true → c'.status = c.status) : q.Counts [c'] := by
  refine ⟨h.list, ?_, ?_, h.retries, fun _ => h.status (by simp)⟩
  · rw [h.nleft]
    simp [hdone]
  · rw [h.failed]
    simp only [mem_singleton, forall_eq, hdone]
    exact imp_congr_right fun hc => by rw [hstatus hc]

/-- A change at the end of a chain that leaves the end as done as it was. -/
theorem OnChain.update_counted (h : OnChain k root t) (hcount : root.Counted) (hf : (f t).Counted)
    (hdone : (f t).done = t.done) (hstatus : t.done = true → (f t).status = t.status) :
    (root.update f (List.replicate k 0)).Counted ∧
      (root.update f (List.replicate k 0)).done = root.done ∧
      (root.done = true → (root.update f (List.replicate k 0)).status = root.status) := by
  induction k generalizing root with
  | zero =>
    subst h
    cases root <;> exact ⟨hf, hdone, hstatus⟩
  | succ k ih =>
    obtain ⟨q, c, rfl, _, hc⟩ := h
    cases hcount with
    | que counts below =>
      obtain ⟨hcounted, hsame, hsameStatus⟩ := ih hc (below c (by simp))
      have hcounts := counts.alike hsame hsameStatus
      refine ⟨.que hcounts (by simpa [updateAt] using hcounted), ?_, fun _ => rfl⟩
      exact hcounts.done_single.trans (hsame.trans counts.done_single.symm)

/-- A completion keeps the chain, with a task of the same kind at its end. -/
theorem OnChain.complete (h : OnChain k root t) {path} {root' : Task}
    (hc : root.complete path = some (root', fired)) :
    ∃ t', OnChain k root' t' ∧ ∀ q tasks, t = .que q tasks →
      ∃ q' tasks', t' = .que q' tasks' ∧ tasks'.length = tasks.length := by
  induction k generalizing root root' path fired with
  | zero =>
    subst h
    refine ⟨root', rfl, ?_⟩
    rintro q tasks rfl
    obtain ⟨l, t, u, s, f, i, p, rfl, _, _, hcases⟩ := complete_que hc
    rcases hcases with ⟨_, rfl, _⟩ | ⟨_, rfl, _⟩ <;> exact ⟨_, _, rfl, by simp⟩
  | succ k ih =>
    obtain ⟨q, c, rfl, hq, hchain⟩ := h
    obtain ⟨l, t, u, s, f, i, p, htasks, _, hs, hcases⟩ := complete_que hc
    obtain ⟨rfl, rfl, rfl⟩ : l = [] ∧ c = t ∧ u = [] := by
      cases l with
      | nil => simpa using htasks
      | cons x l => simp at htasks
    obtain ⟨t', ht', hkind⟩ := ih hchain hs
    rcases hcases with ⟨_, rfl, _⟩ | ⟨_, rfl, _⟩
    · exact ⟨t', ⟨q, s, rfl, hq, ht'⟩, hkind⟩
    · exact ⟨t', ⟨_, s, rfl, (opqueCb_kept q i s.status).2.trans hq, ht'⟩, hkind⟩

/-- Above a new task nothing can complete. -/
theorem OnChain.find_op (h : OnChain k root t) (ht : t.New) {path} {final : OpStatus}
    {started done} (hf : root.find path = some (.op final started done)) : started = false := by
  induction k generalizing root path with
  | zero =>
    subst h
    exact ht.find_op hf
  | succ k ih =>
    obtain ⟨q, c, rfl, _, hc⟩ := h
    cases path with
    | nil => simp [Task.find] at hf
    | cons i path =>
      cases i with
      | zero => exact ih hc hf
      | succ i => simp [Task.find, findAt] at hf

/-- The finished tasks and the returned ones are the tasks that are done, each once; nothing
was returned only after all of them were. -/
structure Delivered (q : QueData) (tasks : List Task) (returned : List (Option Nat)) : Prop where
  nodup : (q.finished ++ returned.filterMap id).Nodup
  mem : ∀ i, i ∈ q.finished ++ returned.filterMap id ↔ (tasks.map Task.done)[i]? = some true
  nulls : ∀ before after, returned = before ++ none :: after →
    ∀ i, i < tasks.length → some i ∈ before

variable {q q' : QueData} {tasks tasks' : List Task} {returned : List (Option Nat)}

theorem Delivered.congr (h : Delivered q tasks returned) (hfinished : q'.finished = q.finished)
    (hdone : tasks'.map Task.done = tasks.map Task.done) : Delivered q' tasks' returned := by
  have hlen : tasks'.length = tasks.length := by
    simpa using congrArg List.length hdone
  refine ⟨?_, ?_, ?_⟩
  · rw [hfinished]
    exact h.nodup
  · rw [hfinished, hdone]
    exact h.mem
  · rw [hlen]
    exact h.nulls

/-- The callback puts a task that became done among the finished ones. -/
theorem Delivered.callback {l u t s} (h : Delivered q (l ++ t :: u) returned)
    (ht : t.done = false) (hs : s.done = true)
    (hfinished : q'.finished = q.finished ++ [l.length]) : Delivered q' (l ++ s :: u) returned := by
  have hnot : l.length ∉ q.finished ++ returned.filterMap id := by
    rw [h.mem]
    simp [ht]
  have hperm : (q'.finished ++ returned.filterMap id).Perm
      (l.length :: (q.finished ++ returned.filterMap id)) := by
    rw [hfinished, append_assoc]
    exact perm_middle
  refine ⟨?_, ?_, ?_⟩
  · rw [hperm.nodup_iff]
    exact nodup_cons.mpr ⟨hnot, h.nodup⟩
  · intro i
    rw [hperm.mem_iff, mem_cons, h.mem]
    by_cases hi : i = l.length
    · simp [hi, hs]
    · simp only [hi, false_or, map_append, map_cons]
      rcases Nat.lt_or_ge i l.length with hlt | hge
      · rw [List.getElem?_append_left (by simpa), List.getElem?_append_left (by simpa)]
      · rw [List.getElem?_append_right (by simpa), List.getElem?_append_right (by simpa),
          List.getElem?_cons, List.getElem?_cons, length_map,
          if_neg (by omega), if_neg (by omega)]
  · simpa using h.nulls

/-- A finished task is returned. -/
theorem Delivered.pop {i rest} (h : Delivered q tasks returned) (hq : q.finished = i :: rest) :
    Delivered { q with finished := rest } tasks (returned ++ [some i]) := by
  have hperm : (rest ++ (returned ++ [some i]).filterMap id).Perm
      (q.finished ++ returned.filterMap id) := by
    rw [hq, filterMap_append, ← append_assoc]
    exact perm_append_singleton i _
  refine ⟨hperm.nodup_iff.mpr h.nodup, fun j => ?_, ?_⟩
  · rw [← h.mem, hperm.mem_iff]
  · intro before after hsplit
    rcases eq_nil_or_concat after with rfl | ⟨after', x, rfl⟩
    · have := (append_inj' hsplit rfl).2
      simp at this
    · refine h.nulls before after' ?_
      rw [concat_eq_append, ← cons_append, ← append_assoc] at hsplit
      exact (append_inj' hsplit rfl).1

/-- Nothing finished and nothing left: all tasks were returned. -/
theorem Delivered.null (h : Delivered q tasks returned) (hq : q.finished = [])
    (hall : ∀ t ∈ tasks, t.done = true) : Delivered q tasks (returned ++ [none]) := by
  refine ⟨by simpa using h.nodup, by simpa using h.mem, ?_⟩
  intro before after hsplit i hi
  rcases eq_nil_or_concat after with rfl | ⟨after', x, rfl⟩
  · have hbefore : returned = before := (append_inj' hsplit rfl).1
    have hmem := (h.mem i).mpr (by simp [hi, hall _ (getElem_mem hi)])
    rw [hq, nil_append, mem_filterMap] at hmem
    obtain ⟨x, hx, hxi⟩ := hmem
    rw [← hbefore, ← show x = some i from hxi]
    exact hx
  · refine h.nulls before after' ?_ i hi
    rw [concat_eq_append, ← cons_append, ← append_assoc] at hsplit
    exact (append_inj' hsplit rfl).1

end LStore.Gop
