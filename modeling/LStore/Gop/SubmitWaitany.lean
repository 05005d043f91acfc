import LStore.Gop.Submit
import LStore.Gop.WaitanyRuns

/-!
# Waits as submissions

The thread that waits for the tasks of a queue is the second thread of the submission model:
on a queue of operations that were all added before, every run of the waits is a run of the
submissions, with the same list, the same flags and the thread at the same place.
-/

namespace LStore.Gop

open Base.Reach List Submit

/-- Where the submission model has a thread that is at some place in `gop_waitany`. -/
inductive PcViews : CallPc → WaitPc → Prop
  | idle : PcViews .idle .idle
  | entered : PcViews .idle (.enter [])
  | direct (i : Nat) : PcViews (.direct i) (.enter [i])
  | blocked : PcViews .waiting (.blocked [])
  | below (i : Nat) : PcViews .waiting (.blocked [i])
  | back : PcViews .waiting (.unwind [])

/-- The queue of a submission state, with operations that were started as it says. -/
structure OpsView (s : Queue) (q : QueData) (ops : List Task) : Prop where
  started : q.started = s.started
  list : q.list = s.list
  each : ∀ (i : Nat) (t : Task), ops[i]? = some t → ∃ final done, t = .op final (s.opStarted i) done
  quiet : ∀ i, s.adder i ≠ .added

/-- A submission state and a wait state of one queue. -/
structure Views (s : Queue) (w : WaitState) : Prop where
  root : ∃ q ops, w.root = .que q ops ∧ OpsView s q ops
  pc : PcViews s.caller w.pc

variable {s : Queue} {q : QueData} {ops : List Task} {w w' : WaitState} {i : Nat}

theorem getElem?_startListed (list : List Nat) (k : Nat) (ops : List Task) (j : Nat) :
    (startListed list k ops)[j]? =
      ops[j]?.map fun t => if k + j ∈ list then t.start else t := by
  induction ops generalizing k j with
  | nil => simp [startListed]
  | cons t ops ih =>
    rw [startListed]
    cases j with
    | zero => simp
    | succ j =>
      rw [getElem?_cons_succ, getElem?_cons_succ, ih, show k + 1 + j = k + (j + 1) by omega]

theorem getElem?_updateAt (f : Task → Task) (ops : List Task) (i j : Nat) :
    (updateAt f ops i [])[j]? = if j = i then ops[j]?.map f else ops[j]? := by
  induction ops generalizing i j with
  | nil => simp [updateAt]
  | cons t ops ih =>
    cases i with
    | zero =>
      cases j with
      | zero => simp [updateAt, Task.update_nil]
      | succ j => simp [updateAt]
    | succ i =>
      cases j with
      | zero => simp [updateAt]
      | succ j => simp [updateAt, ih]

section

variable (h : OpsView s q ops)
include h

/-- `_opque_start_execution` in both models. -/
theorem OpsView.start : ∃ q' ops', (Task.que q ops).start = .que q' ops' ∧
    OpsView s.start q' ops' := by
  rw [Task.start, Queue.start, h.started]
  split_ifs with hstarted
  · exact ⟨q, ops, rfl, h⟩
  · refine ⟨_, _, rfl, ⟨rfl, rfl, fun i t ht => ?_, h.quiet⟩⟩
    rw [getElem?_startListed, Nat.zero_add, Option.map_eq_some_iff] at ht
    obtain ⟨t, hi, rfl⟩ := ht
    obtain ⟨final, done, rfl⟩ := h.each i t hi
    rw [h.list]
    dsimp only
    split_ifs
    · exact ⟨final, done, rfl⟩
    · exact ⟨final, done, rfl⟩

/-- `gop_waitany` looks at the queue. -/
theorem OpsView.enter (hcaller : s.caller = .idle) (hroot : w.root = .que q ops)
    (hpc : w.pc = .enter []) (hgo : w.go = some w') :
    ∃ s', s.step .waitany = some s' ∧ Views s' w' := by
  obtain ⟨q', ops', hstart, hview⟩ := h.start
  have hkeep : s.start.caller = s.caller ∧ s.start.calls = s.calls := by
    rw [Queue.start]
    split <;> exact ⟨rfl, rfl⟩
  simp only [WaitState.go, hpc, hroot, Task.find, Task.update_nil] at hgo
  rw [Queue.step, if_pos hcaller]
  split at hgo
  · next i hlist hstarted =>
      cases hgo
      rw [← h.list, ← h.started, hlist, hstarted]
      exact ⟨_, rfl, ⟨_, _, rfl, rfl, rfl, h.each, h.quiet⟩, .direct i⟩
  · next hnot =>
      cases hgo
      split
      · next i hlist hstarted =>
          exact (hnot i (h.list.trans hlist) (h.started.trans hstarted)).elim
      · exact ⟨_, rfl, ⟨q', ops', hstart, hview.started, hview.list, hview.each, hview.quiet⟩,
          .blocked⟩

/-- The only operation of the queue is started, unless it was. -/
theorem OpsView.direct (hcaller : s.caller = .direct i) (hroot : w.root = .que q ops)
    (hpc : w.pc = .enter [i]) (hgo : w.go = some w') :
    ∃ s', s.step (.executeDirect false) = some s' ∧ Views s' w' := by
  have hfind : w.root.find [i] = ops[i]? := by rw [hroot, Task.find, findAt_nil]
  have hupdate : w.root.update Task.start [i] = .que q (updateAt Task.start ops i []) := by
    rw [hroot, Task.update]
  cases hi : ops[i]? with
  | none => simp [WaitState.go, hpc, hfind, hi] at hgo
  | some t =>
    obtain ⟨final, done, rfl⟩ := h.each i t hi
    simp only [WaitState.go, hpc, hfind, hi, hupdate] at hgo
    cases hgo
    have heach (opStarted : Nat → Bool) (hopi : opStarted i = true)
        (hop : ∀ j ≠ i, opStarted j = s.opStarted j) (j : Nat) (t : Task)
        (ht : (updateAt Task.start ops i [])[j]? = some t) :
        ∃ final done, t = .op final (opStarted j) done := by
      rw [getElem?_updateAt] at ht
      split_ifs at ht with hji
      · rw [hji, hi] at ht
        cases ht
        exact ⟨final, done, by rw [hji, hopi]; rfl⟩
      · rw [hop j hji]
        exact h.each j t ht
    simp only [Queue.step, hcaller, Bool.false_eq_true, if_false]
    split_ifs with hwas
    · exact ⟨_, rfl, ⟨_, _, rfl, h.started, h.list, heach _ hwas fun _ _ => rfl, h.quiet⟩, .below i⟩
    · refine ⟨_, rfl, ⟨_, _, rfl, h.started, h.list, heach _ (if_pos rfl) fun j hj => ?_, h.quiet⟩,
        .below i⟩
      exact if_neg hj

/-- The wait comes back. -/
theorem OpsView.back (hcaller : s.caller = .waiting) (hroot : w.root = .que q ops)
    (hpc : w.pc = .blocked [] ∨ w.pc = .unwind []) (hgo : w.go = some w') :
    ∃ s', s.step .waitEnds = some s' ∧ Views s' w' := by
  have hback : ∃ value, w' = ⟨.que { q with finished := q.finished.tail } ops, .idle, value⟩ := by
    rcases hpc with hpc | hpc
    · simp only [WaitState.go, hpc, hroot, Task.find, Task.update_nil] at hgo
      split_ifs at hgo
      exact ⟨_, (Option.some.inj hgo).symm⟩
    · simp only [WaitState.go, hpc, hroot, Task.find, Task.update_nil] at hgo
      exact ⟨_, (Option.some.inj hgo).symm⟩
  obtain ⟨value, rfl⟩ := hback
  rw [Queue.step, if_pos hcaller]
  exact ⟨_, rfl, ⟨_, _, rfl, h.started, h.list, h.each, h.quiet⟩, .idle⟩

/-- An operation completes. -/
theorem OpsView.complete {path root' fired}
    (hc : (Task.que q ops).complete path = some (root', fired)) :
    ∃ q' ops', root' = .que q' ops' ∧ OpsView s q' ops' := by
  obtain ⟨l, t, u, t', f, k, p, rfl, hlen, ht, hcases⟩ := complete_que hc
  have heach (j : Nat) (x : Task) (hx : (l ++ t' :: u)[j]? = some x) :
      ∃ final done, x = .op final (s.opStarted j) done := by
    rcases Nat.lt_trichotomy j l.length with hlt | rfl | hgt
    · rw [getElem?_append_left hlt] at hx
      exact h.each j x (by rw [getElem?_append_left hlt, hx])
    · obtain ⟨final, done, rfl⟩ := h.each l.length t (by simp)
      obtain ⟨-, ⟨⟩⟩ := Option.ite_none_right_eq_some.mp ht
      obtain rfl : _ = x := by simpa using hx
      exact ⟨final, true, rfl⟩
    · refine h.each j x ?_
      rw [getElem?_append_right (Nat.le_of_lt hgt)] at hx ⊢
      obtain ⟨k, hk⟩ : ∃ k, j - l.length = k + 1 := ⟨j - l.length - 1, by omega⟩
      rw [hk] at hx ⊢
      exact hx
  rcases hcases with ⟨-, rfl, -⟩ | ⟨-, rfl, -⟩
  · exact ⟨_, _, rfl, h.started, h.list, heach, h.quiet⟩
  · obtain ⟨hlist, hstarted⟩ := opqueCb_kept q k t'.status
    exact ⟨_, _, rfl, hstarted.trans h.started, hlist.trans h.list, heach, h.quiet⟩

end

/-- A step of the waits is a step of the submissions, or none. -/
theorem Views.step {a : WaitAct} (h : Views s w) (hstep : w.step a = some w') :
    ∃ s', (s' = s ∨ ∃ b, s.Orderly b ∧ s.step b = some s') ∧ Views s' w' := by
  obtain ⟨⟨q, ops, hroot, hview⟩, hpc⟩ := h
  obtain ⟨pc, hwpc⟩ : ∃ pc, w.pc = pc := ⟨_, rfl⟩
  obtain ⟨caller, hcaller⟩ : ∃ caller, s.caller = caller := ⟨_, rfl⟩
  cases a with
  | call =>
    obtain ⟨hidle, ⟨⟩⟩ := Option.ite_none_right_eq_some.mp hstep
    rw [hidle, hcaller] at hpc
    cases hpc
    exact ⟨s, .inl rfl, ⟨q, ops, hroot, hview⟩, hcaller ▸ .entered⟩
  | complete path =>
    obtain ⟨final, root', fired, -, hc, rfl⟩ := WaitState.complete_cases hstep
    rw [hroot] at hc
    exact ⟨s, .inl rfl, hview.complete hc, hpc⟩
  | go =>
    change w.go = some w' at hstep
    rw [hwpc, hcaller] at hpc
    cases hpc with
    | idle => simp [WaitState.go, hwpc] at hstep
    | entered =>
      obtain ⟨s', hs, hview'⟩ := hview.enter hcaller hroot hwpc hstep
      exact ⟨s', .inr ⟨.waitany, fun _ i _ => hview.quiet i, hs⟩, hview'⟩
    | direct i =>
      obtain ⟨s', hs, hview'⟩ := hview.direct hcaller hroot hwpc hstep
      exact ⟨s', .inr ⟨.executeDirect false, fun i _ _ => hview.quiet i, hs⟩, hview'⟩
    | blocked =>
      obtain ⟨s', hs, hview'⟩ := hview.back hcaller hroot (.inl hwpc) hstep
      exact ⟨s', .inr ⟨.waitEnds, trivial, hs⟩, hview'⟩
    | back =>
      obtain ⟨s', hs, hview'⟩ := hview.back hcaller hroot (.inr hwpc) hstep
      exact ⟨s', .inr ⟨.waitEnds, trivial, hs⟩, hview'⟩
    | below i =>
      have hfind : w.root.find [i] = ops[i]? := by rw [hroot, Task.find, findAt_nil]
      cases hi : ops[i]? with
      | none => simp [WaitState.go, hwpc, hfind, hi] at hstep
      | some t =>
        obtain ⟨final, done, rfl⟩ := hview.each i t hi
        simp only [WaitState.go, hwpc, hfind, hi] at hstep
        obtain ⟨-, ⟨⟩⟩ := Option.ite_none_right_eq_some.mp hstep
        exact ⟨s, .inl rfl, ⟨q, ops, hroot, hview⟩, hcaller ▸ .back⟩

/-- The submission state with operations added. -/
def Submit.Queue.added (n : Nat) : Queue :=
  { Queue.new with
    list := List.range n
    adder := fun j => if j < n then .returned else .idle }

theorem reached_added (n : Nat) : Reached Queue.new Queue.step Queue.Orderly (.added n) := by
  induction n with
  | zero => exact .start
  | succ n ih =>
    have hidle : (Queue.added n).adder n = .idle := if_neg (Nat.lt_irrefl n)
    refine .step (a := .addCheck n) (.step (a := .addLocked n) ih (fun _ => rfl)
      (by rw [Queue.step, if_pos hidle])) trivial ?_
    rw [Queue.step, if_pos (if_pos rfl)]
    simp only [Queue.added, Queue.new, Bool.false_eq_true, if_false, range_succ]
    congr 2
    funext j
    split_ifs <;> first | rfl | omega

/-- Every run of the waits on a queue of new operations is a run of the submissions. -/
theorem reached_views {ok} (hops : ∀ t ∈ ops, ∃ final, t = .op final false false)
    (h : Reached (WaitState.start ops) WaitState.step ok w) :
    ∃ s, Reached Queue.new Queue.step Queue.Orderly s ∧ Views s w := by
  induction h with
  | start =>
    refine ⟨_, reached_added ops.length, ⟨_, _, rfl, rfl, rfl, fun i t ht => ?_, ?_⟩, .idle⟩
    · obtain ⟨final, rfl⟩ := hops t (mem_of_getElem? ht)
      exact ⟨final, false, rfl⟩
    · intro i
      dsimp only [Queue.added]
      split <;> simp
  | step _ _ taken ih =>
    obtain ⟨s, hs, hview⟩ := ih
    obtain ⟨s', hmove, hview'⟩ := hview.step taken
    rcases hmove with rfl | ⟨b, hok, hb⟩
    · exact ⟨s', hs, hview'⟩
    · exact ⟨s', .step hs hok hb, hview'⟩

end LStore.Gop
