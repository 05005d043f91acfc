import Mathlib.Order.WellFounded

/-!
# Computations with fuel

A computation that recurses on fuel gives a result once the fuel is large enough, breaks a
bound of the program, or runs out of every amount of fuel. `Ends` is total correctness for
such computations: its rules follow the sequencing and the loops of a program.
-/

namespace LStore.Base.Fuel

/-- Why a computation has no result. -/
inductive Fault where
  | running
  | overrun
deriving DecidableEq, Repr

universe u

variable {α β : Type u} {σ ρ ω : Type*}

/-- From some amount of fuel on the result is `r`. -/
def Settles (f : Nat → ρ) (r : ρ) : Prop := ∃ n, ∀ m, n ≤ m → f m = r

theorem Settles.unique {f : Nat → ρ} {r r'} (h : Settles f r) (h' : Settles f r') : r = r' := by
  obtain ⟨n, hn⟩ := h
  obtain ⟨n', hn'⟩ := h'
  rw [← hn (max n n') (le_max_left n n'), ← hn' (max n n') (le_max_right n n')]

/-- With enough fuel the computation returns a value that satisfies `Q`, or it breaks a
bound, and that only where `excused` allows it. -/
def Ends (excused : Prop) (f : Nat → Except Fault α) (Q : α → Prop) : Prop :=
  (excused ∧ Settles f (.error .overrun)) ∨ ∃ a, Settles f (.ok a) ∧ Q a

variable {excused : Prop} {f : Nat → Except Fault α} {P Q : α → Prop} {R : β → Prop}

theorem Ends.ok {a} (h : Q a) : Ends excused (fun _ => .ok a) Q :=
  .inr ⟨a, ⟨0, fun _ _ => rfl⟩, h⟩

theorem Ends.of_settles {a} (h : Ends excused f Q) (hs : Settles f (.ok a)) : Q a := by
  rcases h with ⟨_, hs'⟩ | ⟨b, hs', hQ⟩
  · exact absurd (hs.unique hs') (by simp)
  · have heq : a = b := Except.ok.inj (hs.unique hs')
    rw [heq]
    exact hQ

/-- Where no bound can break, the computation returns. -/
theorem Ends.settles (h : Ends excused f Q) (ho : ¬excused) : ∃ a, Settles f (.ok a) ∧ Q a := by
  rcases h with ⟨h, _⟩ | h
  · exact absurd h ho
  · exact h

theorem not_settles_ok {a e} (h : ∀ m, f m = .error e) : ¬Settles f (.ok a) := by
  rintro ⟨n, hn⟩
  have hok := hn n le_rfl
  rw [h n] at hok
  simp at hok

theorem Ends.bind {g : Nat → α → Except Fault β} (hf : Ends excused f P)
    (hg : ∀ a, P a → Ends excused (fun m => g m a) R) : Ends excused (fun m => f m >>= g m) R := by
  rcases hf with ⟨ho, n, hn⟩ | ⟨a, ⟨n, hn⟩, ha⟩
  · exact .inl ⟨ho, n, fun m hm => by simp only [hn m hm]; rfl⟩
  · rcases hg a ha with ⟨ho, k, hk⟩ | ⟨b, ⟨k, hk⟩, hb⟩
    · refine .inl ⟨ho, max n k, fun m hm => ?_⟩
      simp only [hn m (le_trans (le_max_left n k) hm)]
      exact hk m (le_trans (le_max_right n k) hm)
    · refine .inr ⟨b, ⟨max n k, fun m hm => ?_⟩, hb⟩
      simp only [hn m (le_trans (le_max_left n k) hm)]
      exact hk m (le_trans (le_max_right n k) hm)

/-- Repeat `body` until it returns on the right. -/
def loop (body : σ → Except Fault (σ ⊕ α)) : Nat → σ → Except Fault α
  | 0, _ => .error .running
  | n + 1, s =>
    match body s with
    | .error e => .error e
    | .ok (.inl s') => loop body n s'
    | .ok (.inr a) => .ok a

/-- What one turn of a loop has to do: keep the invariant and lower the measure, or end. -/
def Turn (I : σ → Prop) (r : ω → ω → Prop) (μ : σ → ω) (Q : α → Prop) (s : σ) : σ ⊕ α → Prop
  | .inl s' => I s' ∧ r (μ s') (μ s)
  | .inr a => Q a

/-- A loop whose turns keep an invariant and lower a well-founded measure ends. -/
theorem Ends.loop {body : Nat → σ → Except Fault (σ ⊕ α)} {I : σ → Prop} {r} (hr : WellFounded r)
    {μ : σ → ω} (hbody : ∀ s, I s → Ends excused (fun m => body m s) (Turn I r μ Q s)) {s}
    (hs : I s) : Ends excused (fun m => Fuel.loop (body m) m s) Q := by
  -- the turns and the fuel inside a turn are bounded separately
  suffices h : ∀ s, I s →
      (excused ∧ ∃ n, ∀ m, n ≤ m → ∀ k, n ≤ k → Fuel.loop (body m) k s = .error .overrun) ∨
        ∃ a, (∃ n, ∀ m, n ≤ m → ∀ k, n ≤ k → Fuel.loop (body m) k s = .ok a) ∧ Q a by
    rcases h s hs with ⟨ho, n, hn⟩ | ⟨a, ⟨n, hn⟩, ha⟩
    · exact .inl ⟨ho, n, fun m hm => hn m hm m hm⟩
    · exact .inr ⟨a, ⟨n, fun m hm => hn m hm m hm⟩, ha⟩
  intro s
  induction s using (InvImage.wf μ hr).induction with
  | h s ih =>
    intro hs
    rcases hbody s hs with ⟨ho, n, hn⟩ | ⟨s' | a, ⟨n, hn⟩, ht⟩
    · refine .inl ⟨ho, n + 1, fun m hm k hk => ?_⟩
      obtain ⟨k, rfl⟩ : ∃ j, k = j + 1 := ⟨k - 1, by omega⟩
      simp [Fuel.loop, hn m (by omega)]
    · rcases ih s' ht.2 ht.1 with ⟨ho, n', hn'⟩ | ⟨a, ⟨n', hn'⟩, ha⟩
      · refine .inl ⟨ho, max n n' + 1, fun m hm k hk => ?_⟩
        obtain ⟨k, rfl⟩ : ∃ j, k = j + 1 := ⟨k - 1, by omega⟩
        simp only [Fuel.loop, hn m (by omega)]
        exact hn' m (by omega) k (by omega)
      · refine .inr ⟨a, ⟨max n n' + 1, fun m hm k hk => ?_⟩, ha⟩
        obtain ⟨k, rfl⟩ : ∃ j, k = j + 1 := ⟨k - 1, by omega⟩
        simp only [Fuel.loop, hn m (by omega)]
        exact hn' m (by omega) k (by omega)
    · refine .inr ⟨a, ⟨n + 1, fun m hm k hk => ?_⟩, ht⟩
      obtain ⟨k, rfl⟩ : ∃ j, k = j + 1 := ⟨k - 1, by omega⟩
      simp [Fuel.loop, hn m (by omega)]

end LStore.Base.Fuel
