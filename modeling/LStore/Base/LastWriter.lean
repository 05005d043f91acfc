import Mathlib.Data.List.Induction

/-!
# The last writer wins

A family of partial maps is laid down in some order, later maps over earlier
ones. What an argument is sent to is decided by the last map of the order that is
defined there. When no two maps of the family share a value, two orders give the
same result exactly when they have the same last map at every argument.
-/

namespace LastWriter

open Option

variable {ι α β : Type*} {p q : ι → α → Option β} {order : List ι}

/-- Lay the maps of the family over `f` in the given order. -/
def resolve (p : ι → α → Option β) (order : List ι) (f : α → Option β) : α → Option β :=
  order.foldl (fun f i a => (p i a).or (f a)) f

/-- The last map of the order defined at `a`. -/
def winner (p : ι → α → Option β) (order : List ι) (a : α) : Option ι :=
  order.reverse.find? fun i => (p i a).isSome

theorem resolve_concat (order : List ι) (i : ι) (f : α → Option β) :
    resolve p (order ++ [i]) f = fun a => (p i a).or (resolve p order f a) := by
  simp [resolve]

theorem winner_concat (order : List ι) (i : ι) (a : α) :
    winner p (order ++ [i]) a = if (p i a).isSome then some i else winner p order a := by
  simp only [winner, List.reverse_append, List.reverse_singleton, List.singleton_append,
    List.find?_cons]
  split <;> simp_all

theorem resolve_congr (h : ∀ i ∈ order, p i = q i) (f : α → Option β) :
    resolve p order f = resolve q order f := by
  induction order generalizing f with
  | nil => rfl
  | cons i order ih =>
    have hi := h i (by simp)
    simp only [resolve, List.foldl_cons] at ih ⊢
    rw [hi]
    exact ih (fun j hj => h j (by simp [hj])) _

/-- The result is the value of the winner. -/
theorem resolve_eq_winner (order : List ι) (a : α) :
    resolve p order (fun _ => none) a = (winner p order a).bind fun i => p i a := by
  induction order using List.reverseRecOn with
  | nil => rfl
  | append_singleton order i ih =>
    rw [resolve_concat, winner_concat]
    cases hi : p i a with
    | none => simpa [hi] using ih
    | some b => simp [hi]

theorem isSome_of_winner {a i} (h : winner p order a = some i) :
    (p i a).isSome := List.find?_some (p := fun i => (p i a).isSome) h

/-- With values that tell the maps apart, two orders agree at an argument exactly
when they have the same winner there. -/
theorem resolve_eq_iff {order' a} (hinj : ∀ i j b, p i a = some b → p j a = some b → i = j) :
    resolve p order (fun _ => none) a = resolve p order' (fun _ => none) a ↔
      winner p order a = winner p order' a := by
  rw [resolve_eq_winner, resolve_eq_winner]
  refine ⟨fun h => ?_, fun h => by rw [h]⟩
  cases hw : winner p order a with
  | none =>
    cases hw' : winner p order' a with
    | none => rfl
    | some j =>
      have hj := isSome_of_winner hw'
      rw [hw, hw'] at h
      simp only [bind_none, bind_some] at h
      simp [← h] at hj
  | some i =>
    obtain ⟨b, hb⟩ := isSome_iff_exists.mp (isSome_of_winner hw)
    cases hw' : winner p order' a with
    | none =>
      rw [hw, hw'] at h
      simp [hb] at h
    | some j =>
      rw [hw, hw'] at h
      simp only [bind_some] at h
      rw [hinj i j b hb (h ▸ hb)]

end LastWriter
