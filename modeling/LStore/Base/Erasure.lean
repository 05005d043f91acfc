import Mathlib.Data.Finite.Prod

/-!
# Erasure codes

A systematic code on `n` data chunks and `m` parity chunks that recovers from the loss of
any `m` chunks (maximum distance separable). `decode w E` reads the chunks of `w` outside
`E` and fills in those of `E`. The words that repeated decoding can make of one word are
`Decoded`.
-/

namespace Erasure

/-- A code that tolerates the loss of any `m` of its `n + m` chunks. -/
structure Mds (n m : Nat) (χ : Type*) [Zero χ] where
  encode : (Fin n → χ) → Fin (n + m) → χ
  decode : (Fin (n + m) → χ) → Finset (Fin (n + m)) → Fin (n + m) → χ
  encode_data : ∀ d i, encode d (Fin.castAdd m i) = d i
  encode_zero : encode 0 = 0
  decode_other : ∀ w E k, k ∉ E → decode w E k = w k
  decode_congr : ∀ w w' E, E.card ≤ m → (∀ k, k ∉ E → w k = w' k) → decode w E = decode w' E
  decode_encode : ∀ d E, E.card ≤ m → decode (encode d) E = encode d

variable {n m : Nat} {χ : Type*}

/-- The data chunks of a word. -/
def data (w : Fin (n + m) → χ) : Fin n → χ := fun i => w (Fin.castAdd m i)

variable [Zero χ] (c : Mds n m χ)

namespace Mds

variable {E : Finset (Fin (n + m))}

@[simp] theorem data_encode (d : Fin n → χ) : data (c.encode d) = d :=
  funext fun i => c.encode_data d i

theorem encode_injective : Function.Injective c.encode := fun d d' h => by
  rw [← c.data_encode d, h, c.data_encode]

/-- A word that differs from a codeword on the erased chunks only. -/
theorem decode_eq_encode {w d} (hE : E.card ≤ m) (h : ∀ k, k ∉ E → w k = c.encode d k) :
    c.decode w E = c.encode d := by
  rw [c.decode_congr w (c.encode d) E hE h, c.decode_encode d E hE]

/-- Codewords that agree outside `m` chunks are equal. -/
theorem eq_of_agree {d d'} (hE : E.card ≤ m) (h : ∀ k, k ∉ E → c.encode d k = c.encode d' k) :
    d = d' := by
  apply c.encode_injective
  rw [← c.decode_encode d E hE]
  exact c.decode_eq_encode hE h

/-- With `m` chunks erased the others can be anything: some codeword has them. -/
theorem exists_encode [Finite χ] (hE : E.card = m) (w : Fin (n + m) → χ) :
    ∃ d, ∀ k, k ∉ E → w k = c.encode d k := by
  have hcard : Fintype.card {k // k ∉ E} = n := by
    rw [Fintype.card_subtype_compl, Fintype.card_fin, Fintype.card_coe, hE, Nat.add_sub_cancel]
  have e : (Fin n → χ) ≃ ({k // k ∉ E} → χ) :=
    Equiv.arrowCongr (Fintype.equivFinOfCardEq hcard).symm (Equiv.refl χ)
  have hinj : Function.Injective fun (d : Fin n → χ) (k : {k // k ∉ E}) => c.encode d k := by
    intro d d' h
    exact c.eq_of_agree hE.le fun k hk => congrFun h ⟨k, hk⟩
  obtain ⟨d, hd⟩ := (Finite.injective_iff_surjective_of_equiv e).mp hinj fun k => w k
  exact ⟨d, fun k hk => (congrFun hd ⟨k, hk⟩).symm⟩

end Mds

/-- What decoding again and again can make of a word. -/
inductive Decoded (w : Fin (n + m) → χ) : (Fin (n + m) → χ) → Prop
  | refl : Decoded w w
  | decode {x : Fin (n + m) → χ} (E : Finset (Fin (n + m))) :
      Decoded w x → E.card ≤ m → Decoded w (c.decode x E)

theorem Decoded.zero {x : Fin (n + m) → χ} (h : Decoded c 0 x) : x = 0 := by
  induction h with
  | refl => rfl
  | decode E _ hE ih => rw [ih, ← c.encode_zero, c.decode_encode 0 E hE]

/-- A mirrored pair of chunks. -/
def mirror (χ : Type*) [Zero χ] : Mds 1 1 χ where
  encode d _ := d 0
  decode w E k := if k ∈ E then w k.rev else w k
  encode_data d i := by rw [Fin.eq_zero i]
  encode_zero := rfl
  decode_other w E k hk := if_neg hk
  decode_congr w w' E hE h := by
    have hone : ∀ k, k ∈ E → k.rev ∉ E := by
      intro k hk hrev
      have heq := congrArg Fin.val (Finset.card_le_one.mp hE k hk k.rev hrev)
      rw [Fin.val_rev] at heq
      omega
    funext k
    by_cases hk : k ∈ E
    · rw [if_pos hk, if_pos hk, h _ (hone k hk)]
    · rw [if_neg hk, if_neg hk, h k hk]
  decode_encode d E _ := by
    funext k
    exact ite_self _

end Erasure
