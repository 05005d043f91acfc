import LStore.Base.Reach
import Mathlib.Data.Finset.Max

/-!
# Lock order

Threads take locks and give them back; a lock is with one thread at a time. If every thread
takes a lock only while all those that it has are below it, threads never wait for one another
in a circle.
-/

namespace LStore.Base.LockOrder

open Reach Finset

inductive Act (κ : Type*) where
  | lock (k : κ)
  | unlock (k : κ)
deriving DecidableEq

variable {ι κ : Type*} [DecidableEq ι] [LinearOrder κ] {held : Finset κ} {acts : List (Act κ)}
variable {l l' : List κ}

/-- The locks of a thread after an action. -/
def Act.after (held : Finset κ) : Act κ → Finset κ
  | .lock k => insert k held
  | .unlock k => held.erase k

/-- The locks of a thread after its actions. -/
def heldAfter (held : Finset κ) (acts : List (Act κ)) : Finset κ := acts.foldl Act.after held

/-- Each lock is above those that the thread has when it takes it. -/
def InOrder (held : Finset κ) : List (Act κ) → Prop
  | [] => True
  | .lock k :: acts => (∀ h ∈ held, h < k) ∧ InOrder (insert k held) acts
  | .unlock k :: acts => InOrder (held.erase k) acts

/-- Actions with locks taken in front of them and given back behind them. -/
def under (l : List κ) (acts : List (Act κ)) (l' : List κ) : List (Act κ) :=
  l.map .lock ++ (acts ++ l'.map .unlock)

theorem inOrder_append {acts' : List (Act κ)} :
    InOrder held (acts ++ acts') ↔ InOrder held acts ∧ InOrder (heldAfter held acts) acts' := by
  induction acts generalizing held with
  | nil => simp [InOrder, heldAfter]
  | cons a acts ih =>
    cases a with
    | lock k => simp [InOrder, heldAfter, Act.after, ih, and_assoc]
    | unlock k => simp [InOrder, heldAfter, Act.after, ih]

theorem inOrder_locks : InOrder held (l.map .lock) ↔
    l.Pairwise (· < ·) ∧ ∀ x ∈ l, ∀ h ∈ held, h < x := by
  induction l generalizing held with
  | nil => simp [InOrder]
  | cons x l ih =>
    simp only [List.map_cons, InOrder, ih, forall_mem_insert, List.pairwise_cons,
      List.forall_mem_cons]
    grind

theorem inOrder_unlocks : InOrder held (l.map .unlock) := by
  induction l generalizing held with
  | nil => trivial
  | cons x l ih => exact ih

theorem heldAfter_append {acts' : List (Act κ)} :
    heldAfter held (acts ++ acts') = heldAfter (heldAfter held acts) acts' := List.foldl_append

theorem heldAfter_locks : heldAfter held (l.map .lock) = held ∪ l.toFinset := by
  induction l generalizing held with
  | nil => simp [heldAfter]
  | cons x l ih => exact ih.trans (by simp [Act.after])

theorem heldAfter_unlocks : heldAfter held (l.map .unlock) = held \ l.toFinset := by
  induction l generalizing held with
  | nil => simp [heldAfter]
  | cons x l ih => exact ih.trans (by simp [Act.after, sdiff_insert, erase_sdiff_comm])

theorem inOrder_under : InOrder ∅ (under l acts l') ↔
    l.Pairwise (· < ·) ∧ InOrder l.toFinset acts := by
  simp [under, inOrder_append, inOrder_locks, inOrder_unlocks, heldAfter_locks]

/-- All locks are given back if the actions in between keep none of their own. -/
theorem heldAfter_under (hl : l ⊆ l') (hacts : heldAfter l.toFinset acts ⊆ l.toFinset) :
    heldAfter ∅ (under l acts l') = ∅ := by
  rw [under, heldAfter_append, heldAfter_append, heldAfter_locks, heldAfter_unlocks, empty_union,
    sdiff_eq_empty_iff_subset]
  exact hacts.trans fun k hk => List.mem_toFinset.mpr (hl (List.mem_toFinset.mp hk))

/-- What each thread has and is still to do. -/
structure State (ι κ : Type*) where
  held : ι → Finset κ
  todo : ι → List (Act κ)

def State.start (program : ι → List (Act κ)) : State ι κ := ⟨fun _ => ∅, program⟩

/-- A thread takes its next action. -/
def State.step (s : State ι κ) (t : ι) : Option (State ι κ) :=
  match s.todo t with
  | [] => none
  | a :: acts =>
    some ⟨Function.update s.held t (a.after (s.held t)), Function.update s.todo t acts⟩

/-- A lock is taken only while no thread has it. -/
def State.Free (s : State ι κ) (t : ι) : Prop :=
  ∀ k acts, s.todo t = .lock k :: acts → ∀ u, k ∉ s.held u

/-- Threads each of which waits for a lock that one of them has. -/
def State.Deadlocked (s : State ι κ) : Prop :=
  ∃ T : Finset ι, T.Nonempty ∧ ∀ t ∈ T, ∃ k acts, s.todo t = .lock k :: acts ∧
    ∃ u ∈ T, k ∈ s.held u

theorem inOrder_step {s s' : State ι κ} {t} (h : ∀ u, InOrder (s.held u) (s.todo u))
    (hstep : s.step t = some s') (u : ι) : InOrder (s'.held u) (s'.todo u) := by
  have hu := h u
  unfold State.step at hstep
  split at hstep
  · cases hstep
  next a acts htodo =>
    cases hstep
    by_cases heq : u = t
    · subst heq
      rw [htodo] at hu
      cases a with
      | lock k => simpa [Act.after] using hu.2
      | unlock k => simpa [Act.after, InOrder] using hu
    · simpa [heq] using hu

/-- Threads that take their locks in order do not wait in a circle. -/
theorem not_deadlocked {program : ι → List (Act κ)} (h : ∀ t, InOrder ∅ (program t)) {s}
    (hs : Reached (.start program) State.step State.Free s) : ¬s.Deadlocked := by
  have hord := hs.invariant (P := fun s => ∀ t, InOrder (s.held t) (s.todo t)) h
    fun _ _ _ hord _ => inOrder_step hord
  rintro ⟨T, hT, hwait⟩
  choose k acts htodo u hu hheld using hwait
  -- the thread that waits for the highest lock waits for one that waits for a higher one
  obtain ⟨⟨t, ht⟩, -, hmax⟩ :=
    T.attach.exists_max_image (fun t => k t.1 t.2) ((attach_nonempty_iff).mpr hT)
  have hlast := hord (u t ht)
  rw [htodo _ (hu t ht)] at hlast
  exact not_lt_of_ge (hmax ⟨_, hu t ht⟩ (mem_attach _ _)) (hlast.1 _ (hheld t ht))

end LStore.Base.LockOrder
