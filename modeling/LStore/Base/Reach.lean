import Mathlib.Logic.Basic

/-!
# Reachable states

A system takes actions one after another; an action may not be possible in a state, and a
restriction may forbid some that are. The states reached under a restriction satisfy every
property that holds at the start and that each permitted step keeps.
-/

namespace LStore.Base.Reach

variable {σ α : Type*} {start : σ} {step : σ → α → Option σ} {ok : σ → α → Prop}

/-- The states reached by steps that all meet `ok`. -/
inductive Reached (start : σ) (step : σ → α → Option σ) (ok : σ → α → Prop) : σ → Prop
  | start : Reached start step ok start
  | step {s s' : σ} {a : α} (before : Reached start step ok s) (allowed : ok s a)
      (taken : step s a = some s') : Reached start step ok s'

/-- What holds at the start and is kept by each permitted step holds in every state reached. -/
theorem Reached.invariant {P : σ → Prop} (hstart : P start)
    (hstep : ∀ s a s', P s → ok s a → step s a = some s' → P s') {s} (h : Reached start step ok s) :
    P s := by
  induction h with
  | start => exact hstart
  | step _ allowed taken ih => exact hstep _ _ _ ih allowed taken

/-- The state after a list of actions. -/
def run (step : σ → α → Option σ) (s : σ) : List α → Option σ
  | [] => some s
  | a :: as => (step s a).bind fun s' => run step s' as

end LStore.Base.Reach
