import Mathlib.Data.List.Perm.Basic

/-!
# A queue fed from waiting lanes

Jobs belong to lanes. Some jobs run, the others wait. Whenever a running job is
collected, the first waiting job of its lane starts. If every lane with a waiting
job has a running one, then collecting as many jobs as there are collects each job
exactly once, in whatever order the running jobs finish.
-/

namespace Feed

open List

variable {α β : Type*} [DecidableEq β] (lane : α → β)

/-- The running jobs and the waiting ones. -/
structure Pool (α : Type*) where
  running : List α
  waiting : List α

/-- The pool without the collected job `x`, and with the next job of its lane running. -/
def Pool.next (x : α) (rest : List α) (p : Pool α) : Pool α :=
  match p.waiting.find? fun y => lane y = lane x with
  | none => ⟨rest, p.waiting⟩
  | some y => ⟨y :: rest, p.waiting.eraseP fun y => lane y = lane x⟩

/-- Collect `n` jobs; `pick` says which running job finishes next. Without a running job
there is nothing to collect. -/
def collect (pick : Nat → Nat) : Nat → Pool α → Option (List α)
  | 0, _ => some []
  | n + 1, p =>
    match p.running[pick n % p.running.length]? with
    | none => none
    | some x =>
      (collect pick n (p.next lane x (p.running.eraseIdx (pick n % p.running.length)))).map
        (x :: ·)

/-- Every lane with a waiting job has a running one. -/
def Fed (p : Pool α) : Prop := ∀ w ∈ p.waiting, ∃ x ∈ p.running, lane x = lane w

variable {lane} {p : Pool α} {x : α} {rest : List α}

theorem Pool.next_perm : ((p.next lane x rest).running ++ (p.next lane x rest).waiting).Perm
    (rest ++ p.waiting) := by
  unfold Pool.next
  split
  next => exact List.Perm.refl _
  next y hy =>
      obtain ⟨hlane, l₁, l₂, hsplit, hnot⟩ := List.find?_eq_some_iff_append.mp hy
      have herase : p.waiting.eraseP (fun y => lane y = lane x) = l₁ ++ l₂ := by
        rw [hsplit, eraseP_append_right _ (by simpa using hnot),
          eraseP_cons_of_pos (p := fun y => decide (lane y = lane x)) hlane]
      rw [herase, hsplit, cons_append, ← append_assoc, ← append_assoc]
      exact perm_middle.symm

theorem Fed.next (h : Fed lane p) (hx : p.running.Perm (x :: rest)) :
    Fed lane (p.next lane x rest) := by
  have hother : ∀ w ∈ p.waiting, lane w ≠ lane x → ∃ z ∈ rest, lane z = lane w := by
    intro w hw hne
    obtain ⟨z, hz, hlane⟩ := h w hw
    rcases mem_cons.mp (hx.mem_iff.mp hz) with rfl | hz
    · exact absurd hlane.symm hne
    · exact ⟨z, hz, hlane⟩
  unfold Pool.next
  split
  next hnone =>
      intro w hw
      exact hother w hw (by simpa using List.find?_eq_none.mp hnone w hw)
  next y hy =>
      intro w hw
      have hlane : lane y = lane x := by simpa using List.find?_some hy
      by_cases hwx : lane w = lane x
      · exact ⟨y, mem_cons_self, hlane.trans hwx.symm⟩
      · obtain ⟨z, hz, hzw⟩ := hother w (mem_of_mem_eraseP hw) hwx
        exact ⟨z, mem_cons_of_mem y hz, hzw⟩

/-- Collecting as many jobs as there are collects each of them. -/
theorem Fed.collect (h : Fed lane p) (pick : Nat → Nat) {n}
    (hn : (p.running ++ p.waiting).length = n) :
    ∃ done, Feed.collect lane pick n p = some done ∧ done.Perm (p.running ++ p.waiting) := by
  induction n generalizing p with
  | zero => exact ⟨[], rfl, by rw [length_eq_zero_iff.mp hn]⟩
  | succ n ih =>
    have hpos : 0 < p.running.length := by
      rw [length_pos_iff_exists_mem]
      rcases hw : p.waiting with _ | ⟨w, ws⟩
      · rw [hw, append_nil] at hn
        exact length_pos_iff_exists_mem.mp (by omega)
      · obtain ⟨x, hx, _⟩ := h w (by simp [hw])
        exact ⟨x, hx⟩
    have hlt : pick n % p.running.length < p.running.length := Nat.mod_lt _ hpos
    obtain ⟨i, hi⟩ : ∃ i, i = pick n % p.running.length := ⟨_, rfl⟩
    rw [← hi] at hlt
    have hsplit : p.running.Perm (p.running[i] :: p.running.eraseIdx i) :=
      (getElem_cons_eraseIdx_perm hlt).symm
    have hperm : ((p.next lane p.running[i] (p.running.eraseIdx i)).running ++
        (p.next lane p.running[i] (p.running.eraseIdx i)).waiting).Perm
        (p.running.eraseIdx i ++ p.waiting) := Pool.next_perm
    obtain ⟨done, hrun, hdone⟩ := ih (h.next hsplit) (by
      rw [hperm.length_eq]
      rw [(hsplit.append_right p.waiting).length_eq, cons_append, length_cons] at hn
      omega)
    refine ⟨p.running[i] :: done, ?_, ?_⟩
    · rw [Feed.collect, ← hi, List.getElem?_eq_getElem hlt]
      simp [hrun]
    · exact ((hdone.trans hperm).cons _).trans (hsplit.append_right p.waiting).symm

end Feed
