import Mathlib.Data.List.Nodup
import LStore.Base.Reach

/-!
# Submission of operations

Threads add operations to a queue while another thread starts it or waits for it.
`gop_opque_add` decides under the lock whether to put an operation on the list, and after it
dropped the lock whether to submit it. What the waits return, and when, plays no part in what
is submitted, so here a wait may end at any time.
-/

namespace LStore.Gop.Submit

open Base.Reach List Option

/-- Where the call of `gop_opque_add` for an operation is: not made, between the unlock and
the test of the flag, or returned. -/
inductive AddPc where
  | idle
  | added
  | returned
deriving DecidableEq, Repr

/-- Where the other thread is: outside a call, about to execute the only operation it found on
the list, or in a wait. -/
inductive CallPc where
  | idle
  | direct (i : Nat)
  | waiting
deriving DecidableEq, Repr

/-- The queue, its operations and the threads. -/
structure Queue where
  started : Bool
  list : List Nat
  opStarted : Nat → Bool
  submits : Nat → Nat
  adder : Nat → AddPc
  caller : CallPc
  calls : Nat

/-- A new queue. -/
def Queue.new : Queue :=
  { started := false, list := [], opStarted := fun _ => false, submits := fun _ => 0
    adder := fun _ => .idle, caller := .idle, calls := 0 }

/-- Steps of the threads. Each is a part of a call that runs under the lock of the queue, or
the part between two such. -/
inductive Act where
  | addLocked (i : Nat)
  | addCheck (i : Nat)
  | startExecution
  | waitall
  | waitany
  | executeDirect (sync : Bool)
  | waitEnds
deriving DecidableEq, Repr

/-- `gop_op_submit`, or an execution in the calling thread. -/
def Queue.submit (s : Queue) (i : Nat) : Queue :=
  { s with submits := fun j => if j = i then s.submits j + 1 else s.submits j }

/-- `_opque_start_execution`. -/
def Queue.start (s : Queue) : Queue :=
  if s.started then s
  else
    { s with
      started := true, list := []
      opStarted := fun j => if j ∈ s.list then true else s.opStarted j
      submits := fun j => s.submits j + s.list.count j }

/-- The steps of `internal_gop_opque_add`, `gop_start_execution`, `gop_waitall` and
`gop_waitany`. -/
def Queue.step (s : Queue) : Act → Option Queue
  | .addLocked i =>
    if s.adder i = .idle then
      some { s with
        list := if s.started then s.list else s.list ++ [i]
        adder := fun j => if j = i then .added else s.adder j }
    else none
  | .addCheck i =>
    if s.adder i = .added then
      let s : Queue := { s with adder := fun j => if j = i then .returned else s.adder j }
      if s.started then
        some { s.submit i with opStarted := fun j => if j = i then true else s.opStarted j }
      else some s
    else none
  | .startExecution =>
    if s.caller = .idle then some { s.start with calls := s.calls + 1 } else none
  | .waitall =>
    if s.caller = .idle then
      match s.list, s.started with
      -- the flag of the queue stays as it is
      | [i], false => some { s with list := [], caller := .direct i, calls := s.calls + 1 }
      | _, _ => some { s.start with caller := .waiting, calls := s.calls + 1 }
    else none
  | .waitany =>
    if s.caller = .idle then
      match s.list, s.started with
      | [i], false =>
        some { s with started := true, list := [], caller := .direct i, calls := s.calls + 1 }
      | _, _ => some { s.start with caller := .waiting, calls := s.calls + 1 }
    else none
  | .executeDirect sync =>
    match s.caller with
    | .direct i =>
      let s : Queue := { s with caller := .waiting }
      if s.opStarted i then some s
      else if sync then some (s.submit i)
      else some { s.submit i with opStarted := fun j => if j = i then true else s.opStarted j }
    | _ => none
  | .waitEnds => if s.caller = .waiting then some { s with caller := .idle } else none

/-- A step that neither starts the queue while an addition is between its two decisions, nor
adds to a queue that a wait has passed without starting it. The operation a `gop_waitany` took
off the list may still be between its decisions, if it leaves them before it is executed. -/
def Queue.Orderly (s : Queue) : Act → Prop
  | .addLocked _ => s.started = false → s.calls = 0
  | .startExecution => s.started = false → ∀ i, s.adder i ≠ .added
  | .waitall => s.started = false → s.list.length ≠ 1 → ∀ i, s.adder i ≠ .added
  | .waitany => s.started = false → ∀ i, s.list ≠ [i] → s.adder i ≠ .added
  | .executeDirect _ => ∀ i, s.caller = .direct i → s.started = true → s.adder i ≠ .added
  | .addCheck _ | .waitEnds => True

/-- No operation was submitted twice. Once a call was made and nothing is under way, every
added operation was submitted. -/
structure Queue.ExactlyOnce (s : Queue) : Prop where
  once : ∀ i, s.submits i ≤ 1
  all : 0 < s.calls → s.caller = .idle → (∀ i, s.adder i ≠ .added) →
    ∀ i, s.adder i = .returned → s.submits i = 1

/-- Where every operation is: on the list, taken for a direct execution, about to be submitted
by the thread that adds it, or submitted. -/
structure Queue.Placed (s : Queue) : Prop where
  idle : ∀ i, s.adder i = .idle →
    s.submits i = 0 ∧ s.opStarted i = false ∧ i ∉ s.list ∧ s.caller ≠ .direct i
  listed : ∀ i, i ∈ s.list →
    s.started = false ∧ s.submits i = 0 ∧ s.opStarted i = false ∧ s.caller ≠ .direct i
  direct : ∀ i, s.caller = .direct i →
    (s.submits i = 0 ∧ s.opStarted i = false) ∨
      (s.submits i = 1 ∧ s.opStarted i = true ∧ s.adder i = .returned)
  adding : ∀ i, s.adder i = .added → s.started = true → s.submits i = 0
  placed : ∀ i, s.adder i ≠ .idle → i ∉ s.list → s.caller ≠ .direct i →
    ¬(s.adder i = .added ∧ s.started = true) → s.submits i = 1
  nodup : s.list.Nodup
  passed : s.started = false → 0 < s.calls → s.list = []

theorem Queue.placed_new : Queue.new.Placed := by
  constructor <;> simp [Queue.new]

theorem Queue.Placed.exactlyOnce {s : Queue} (h : s.Placed) : s.ExactlyOnce := by
  constructor
  · intro i
    by_cases hidle : s.adder i = .idle
    · rw [(h.idle i hidle).1]
      exact Nat.zero_le 1
    by_cases hlist : i ∈ s.list
    · rw [(h.listed i hlist).2.1]
      exact Nat.zero_le 1
    by_cases hdirect : s.caller = .direct i
    · rcases h.direct i hdirect with hd | hd
      · rw [hd.1]
        exact Nat.zero_le 1
      · exact Nat.le_of_eq hd.1
    by_cases hadding : s.adder i = .added ∧ s.started = true
    · rw [h.adding i hadding.1 hadding.2]
      exact Nat.zero_le 1
    · exact Nat.le_of_eq (h.placed i hidle hlist hdirect hadding)
  · intro hcalls hcaller hquiet i hret
    refine h.placed i (by simp [hret]) ?_ (by simp [hcaller]) (by simp [hret])
    intro hlist
    rw [h.passed (h.listed i hlist).1 hcalls] at hlist
    exact absurd hlist not_mem_nil

variable {s : Queue} {i : Nat}

section

variable (h : s.Placed)
include h

theorem Queue.Placed.addLocked (hidle : s.adder i = .idle)
    (hopen : s.started = false → s.calls = 0) :
    Queue.Placed { s with
      list := if s.started then s.list else s.list ++ [i]
      adder := fun j => if j = i then .added else s.adder j } := by
  obtain ⟨hsub, hop, hnot, hcaller⟩ := h.idle i hidle
  have hmem (j : Nat) : j ∈ (if s.started then s.list else s.list ++ [i]) ↔
      j ∈ s.list ∨ (s.started = false ∧ j = i) := by
    cases s.started <;> simp
  constructor
  case idle =>
    intro j hj
    by_cases hji : j = i
    · simp [hji] at hj
    · simp only [if_neg hji] at hj
      simpa [hmem, hji] using h.idle j hj
  case listed =>
    intro j hj
    rcases (hmem j).mp hj with hj | ⟨hstarted, rfl⟩
    · exact h.listed j hj
    · exact ⟨hstarted, hsub, hop, hcaller⟩
  case direct =>
    intro j hj
    have hji : j ≠ i := fun heq => hcaller (heq ▸ hj)
    simpa only [if_neg hji] using h.direct j hj
  case adding =>
    intro j hj hstarted
    by_cases hji : j = i
    · rw [hji]
      exact hsub
    · simp only [if_neg hji] at hj
      exact h.adding j hj hstarted
  case placed =>
    intro j hj hlist hdirect hadding
    simp only [hmem, not_or, not_and] at hlist
    by_cases hji : j = i
    · -- the operation itself is on the list, or about to be submitted
      simp only [if_pos hji, true_and, Bool.not_eq_true] at hadding
      exact absurd hji (hlist.2 hadding)
    · simp only [if_neg hji] at hj hadding
      exact h.placed j hj hlist.1 hdirect hadding
  case nodup =>
    cases hstarted : s.started with
    | true => simpa using h.nodup
    | false =>
      refine nodup_append.mpr ⟨h.nodup, by simp, ?_⟩
      rintro j hj k hk rfl
      exact hnot (mem_singleton.mp hk ▸ hj)
  case passed =>
    intro hstarted hcalls
    have := hopen hstarted
    simp only at hcalls
    omega

theorem Queue.Placed.list_eq_nil (hstarted : s.started = true) : s.list = [] := by
  refine eq_nil_iff_forall_not_mem.mpr fun j hj => ?_
  simp [(h.listed j hj).1] at hstarted

theorem Queue.Placed.addCheck_started (hadded : s.adder i = .added) (hstarted : s.started = true) :
    Queue.Placed { s with
      adder := fun j => if j = i then .returned else s.adder j
      submits := fun j => if j = i then s.submits j + 1 else s.submits j
      opStarted := fun j => if j = i then true else s.opStarted j } := by
  have hsub := h.adding i hadded hstarted
  constructor
  case idle =>
    intro j hj
    by_cases hji : j = i
    · simp [hji] at hj
    · simp only [if_neg hji] at hj ⊢
      exact h.idle j hj
  case listed => simp [h.list_eq_nil hstarted]
  case direct =>
    intro j hj
    by_cases hji : j = i
    · right
      simp [hji, hsub]
    · simp only [if_neg hji]
      exact h.direct j hj
  case adding =>
    intro j hj _
    by_cases hji : j = i
    · simp [hji] at hj
    · simp only [if_neg hji] at hj ⊢
      exact h.adding j hj hstarted
  case placed =>
    intro j hj hl hdirect hadding
    by_cases hji : j = i
    · simp [hji, hsub]
    · simp only [if_neg hji] at hj hadding ⊢
      exact h.placed j hj hl hdirect hadding
  case nodup => exact h.nodup
  case passed => simp [hstarted]

theorem Queue.Placed.addCheck_open (hadded : s.adder i = .added) (hstarted : s.started = false) :
    Queue.Placed { s with adder := fun j => if j = i then .returned else s.adder j } := by
  constructor
  case idle =>
    intro j hj
    by_cases hji : j = i
    · simp [hji] at hj
    · simp only [if_neg hji] at hj
      exact h.idle j hj
  case listed => exact h.listed
  case direct =>
    intro j hj
    rcases h.direct j hj with hd | ⟨hd, hop, hret⟩
    · exact .inl hd
    · refine .inr ⟨hd, hop, ?_⟩
      simp only
      split
      · rfl
      · exact hret
  case adding => simp [hstarted]
  case placed =>
    intro j hj hl hdirect _
    refine h.placed j ?_ hl hdirect (by simp [hstarted])
    by_cases hji : j = i
    · simp [hji, hadded]
    · simpa only [if_neg hji] using hj
  case nodup => exact h.nodup
  case passed => exact h.passed

/-- The operations of the list are submitted once each. -/
theorem Queue.Placed.start (hcaller : s.caller = .idle)
    (hquiet : s.started = false → ∀ i, s.adder i ≠ .added) (pc : CallPc)
    (hpc : ∀ i, pc ≠ .direct i) :
    Queue.Placed { s.start with caller := pc, calls := s.calls + 1 } := by
  rw [Queue.start]
  cases hstarted : s.started with
  | true =>
    simp only [if_true]
    constructor
    case idle => exact fun j hj => ⟨(h.idle j hj).1, (h.idle j hj).2.1, (h.idle j hj).2.2.1, hpc j⟩
    case listed => simp [h.list_eq_nil hstarted]
    case direct => exact fun j hj => absurd hj (hpc j)
    case adding => exact h.adding
    case placed =>
      intro j hj hl _ hadding
      exact h.placed j hj hl (by simp [hcaller]) hadding
    case nodup => exact h.nodup
    case passed => simp [hstarted]
  | false =>
    simp only [Bool.false_eq_true, if_false]
    constructor
    case idle =>
      intro j hj
      obtain ⟨hsub, hop, hl, _⟩ := h.idle j hj
      simp [hsub, hop, hl, count_eq_zero_of_not_mem hl, hpc j]
    case listed => simp
    case direct => exact fun j hj => absurd hj (hpc j)
    case adding => exact fun j hj => absurd hj (hquiet hstarted j)
    case placed =>
      intro j hj _ _ _
      simp only
      by_cases hl : j ∈ s.list
      · rw [(h.listed j hl).2.1, count_eq_one_of_mem h.nodup hl]
      · rw [count_eq_zero_of_not_mem hl, Nat.add_zero]
        exact h.placed j hj hl (by simp [hcaller]) (by simp [hstarted])
    case nodup => simp
    case passed => simp

/-- The only operation of the list is taken off it. -/
theorem Queue.Placed.take (hcaller : s.caller = .idle) (hlist : s.list = [i]) (started : Bool)
    (hquiet : started = true → ∀ j, j ≠ i → s.adder j ≠ .added) :
    Queue.Placed { s with
      started, list := [], caller := .direct i, calls := s.calls + 1 } := by
  obtain ⟨hopen, hsub, hop, _⟩ := h.listed i (by simp [hlist])
  constructor
  case idle =>
    intro j hj
    obtain ⟨hs, ho, hl, _⟩ := h.idle j hj
    refine ⟨hs, ho, by simp, ?_⟩
    simp only [hlist, mem_singleton] at hl
    simpa using fun heq => hl heq.symm
  case listed => simp
  case direct =>
    intro j hj
    have hji : i = j := by simpa using hj
    rw [← hji]
    exact .inl ⟨hsub, hop⟩
  case adding =>
    intro j hj hstarted
    by_cases hji : j = i
    · rw [hji]
      exact hsub
    · exact absurd hj (hquiet hstarted j hji)
  case placed =>
    intro j hj _ hdirect _
    have hji : j ≠ i := fun heq => hdirect (by rw [heq])
    exact h.placed j hj (by simpa [hlist] using hji) (by simp [hcaller]) (by simp [hopen])
  case nodup => simp
  case passed => simp

theorem Queue.Placed.direct_ends (hcaller : s.caller = .direct i)
    (hquiet : s.started = true → s.adder i ≠ .added) (opStarted : Nat → Bool)
    (submits : Nat → Nat) (hsub : submits i = 1) (hsame : ∀ j, j ≠ i → submits j = s.submits j)
    (hop : ∀ j, j ≠ i → opStarted j = s.opStarted j) :
    Queue.Placed { s with caller := .waiting, opStarted, submits } := by
  constructor
  case idle =>
    intro j hj
    obtain ⟨hs, ho, hl, hc⟩ := h.idle j hj
    have hji : j ≠ i := fun heq => hc (heq ▸ hcaller)
    exact ⟨(hsame j hji).trans hs, (hop j hji).trans ho, hl, by simp⟩
  case listed =>
    intro j hj
    obtain ⟨hst, hs, ho, hc⟩ := h.listed j hj
    have hji : j ≠ i := fun heq => hc (heq ▸ hcaller)
    exact ⟨hst, (hsame j hji).trans hs, (hop j hji).trans ho, by simp⟩
  case direct => simp
  case adding =>
    intro j hj hstarted
    have hji : j ≠ i := fun heq => hquiet hstarted (heq ▸ hj)
    exact (hsame j hji).trans (h.adding j hj hstarted)
  case placed =>
    intro j hj hl _ hadding
    by_cases hji : j = i
    · rw [hji]
      exact hsub
    · refine (hsame j hji).trans (h.placed j hj hl ?_ hadding)
      rw [hcaller]
      simpa using fun heq => hji heq.symm
  case nodup => exact h.nodup
  case passed => exact h.passed

theorem Queue.Placed.waitEnds (hcaller : s.caller = .waiting) :
    Queue.Placed { s with caller := .idle } :=
  { h with
    idle := fun j hj => ⟨(h.idle j hj).1, (h.idle j hj).2.1, (h.idle j hj).2.2.1, by simp⟩
    listed := fun j hj => ⟨(h.listed j hj).1, (h.listed j hj).2.1, (h.listed j hj).2.2.1, by simp⟩
    direct := by simp
    placed := fun j hj hl _ hadding => h.placed j hj hl (by simp [hcaller]) hadding }

theorem Queue.Placed.step {s'} {a : Act} (hok : s.Orderly a) (hs : s.step a = some s') :
    s'.Placed := by
  cases a with
  | addLocked i =>
    obtain ⟨hidle, ⟨⟩⟩ := ite_none_right_eq_some.mp hs
    exact h.addLocked hidle hok
  | addCheck i =>
    obtain ⟨hadded, hs⟩ := ite_none_right_eq_some.mp hs
    split_ifs at hs with hstarted
    · cases hs
      exact h.addCheck_started hadded hstarted
    · cases hs
      exact h.addCheck_open hadded (by simpa using hstarted)
  | startExecution =>
    obtain ⟨hcaller, ⟨⟩⟩ := ite_none_right_eq_some.mp hs
    have hsame : s.start.caller = .idle := by
      rw [Queue.start]
      split <;> exact hcaller
    exact h.start hcaller hok _ (by simp [hsame])
  | waitall =>
    obtain ⟨hcaller, hs⟩ := ite_none_right_eq_some.mp hs
    split at hs
    · next i hlist hstarted =>
        cases hs
        exact h.take hcaller hlist s.started (by simp [hstarted])
    · next hnot =>
        cases hs
        refine h.start hcaller (fun hstarted => hok hstarted fun hone => ?_) _ (by simp)
        obtain ⟨i, hi⟩ := length_eq_one_iff.mp hone
        exact hnot i hi hstarted
  | waitany =>
    obtain ⟨hcaller, hs⟩ := ite_none_right_eq_some.mp hs
    split at hs
    · next i hlist hstarted =>
        cases hs
        refine h.take hcaller hlist true fun _ j hj => hok hstarted j ?_
        rw [hlist]
        simpa using fun heq => hj heq.symm
    · next hnot =>
        cases hs
        refine h.start hcaller (fun hstarted i => hok hstarted i fun hi => ?_) _ (by simp)
        exact hnot i hi hstarted
  | executeDirect sync =>
    simp only [Queue.step] at hs
    split at hs
    · next i hcaller =>
        have hquiet := hok i hcaller
        rcases h.direct i hcaller with ⟨hsub, hop⟩ | ⟨hsub, hop, _⟩
        · simp only [hop, Bool.false_eq_true, if_false] at hs
          cases sync with
          | true =>
            rw [← some.inj hs]
            refine h.direct_ends hcaller hquiet _ _ ?_ ?_ fun j _ => rfl
            · simp [hsub]
            · intro j hj
              simp [hj]
          | false =>
            rw [← some.inj hs]
            refine h.direct_ends hcaller hquiet _ _ ?_ ?_ ?_
            · simp [Queue.submit, hsub]
            · intro j hj
              simp [Queue.submit, hj]
            · intro j hj
              simp [hj]
        · simp only [hop, if_true] at hs
          rw [← some.inj hs]
          exact h.direct_ends hcaller hquiet _ _ hsub (fun j _ => rfl) fun j _ => rfl
    · simp at hs
  | waitEnds =>
    obtain ⟨hcaller, ⟨⟩⟩ := ite_none_right_eq_some.mp hs
    exact h.waitEnds hcaller

end

/-- In every interleaving whose steps are orderly, every added operation is submitted, or
executed, exactly once. -/
theorem submitted_exactly_once (s : Queue)
    (h : Reached Queue.new Queue.step Queue.Orderly s) : s.ExactlyOnce := by
  have hplaced : s.Placed :=
    h.invariant Queue.placed_new fun _ _ _ hp hok hs => hp.step hok hs
  exact hplaced.exactlyOnce

/-- An operation is added and its queue started. -/
theorem submitted_exactly_once_started : ∃ s,
    run Queue.step Queue.new [.addLocked 0, .addCheck 0, .startExecution] = some s ∧
      s.ExactlyOnce ∧ s.submits 0 = 1 := by
  refine ⟨_, rfl, submitted_exactly_once _ ?_, by decide⟩
  refine .step (a := .startExecution) (.step (a := .addCheck 0) (.step (a := .addLocked 0) .start
    ?_ rfl) ?_ rfl) ?_ rfl
  · exact fun _ => rfl
  · trivial
  · intro _ i
    by_cases hi : i = 0 <;> simp [Queue.new, hi]

/-- Started between the two decisions of an addition, a queue submits the operation and so does
the thread that adds it. Passed by a wait for its only operation, a queue keeps the next one on
its list. -/
theorem submitted_twice_or_never :
    (run Queue.step Queue.new [.addLocked 0, .startExecution, .addCheck 0]).map
        (fun s => s.submits 0) = some 2 ∧
      (run Queue.step Queue.new [.addLocked 0, .addCheck 0, .waitall, .addLocked 1, .addCheck 1,
        .executeDirect true, .waitEnds]).map
        (fun s => (s.calls, s.caller, s.adder 1, s.submits 1)) =
        some (1, .idle, .returned, 0) := by
  decide

end LStore.Gop.Submit
