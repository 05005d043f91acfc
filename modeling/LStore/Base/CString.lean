import Mathlib.Data.List.Basic
import Mathlib.Data.List.TakeWhile
import Mathlib.Order.Lattice

/-!
# Strings as C compares them

A string is the list of its characters before the terminating zero. `strncmp` looks at the
first `n` characters only; on strings that are sorted by `strcmp` what it finds below a key
comes first. `strtok_r` gives back the next token and the text it goes on with.
-/

namespace LStore.Base.CString

open List

variable {α : Type*} [LinearOrder α]

def strcmp : List α → List α → Ordering
  | [], [] => .eq
  | [], _ :: _ => .lt
  | _ :: _, [] => .gt
  | a :: as, b :: bs => if a < b then .lt else if b < a then .gt else strcmp as bs

def strncmp : Nat → List α → List α → Ordering
  | 0, _, _ => .eq
  | _ + 1, [], [] => .eq
  | _ + 1, [], _ :: _ => .lt
  | _ + 1, _ :: _, [] => .gt
  | n + 1, a :: as, b :: bs =>
    if a < b then .lt else if b < a then .gt else strncmp n as bs

theorem strcmp_eq_iff {as bs : List α} : strcmp as bs = .eq ↔ as = bs := by
  induction as generalizing bs with
  | nil => cases bs <;> simp [strcmp]
  | cons a as ih =>
    cases bs with
    | nil => simp [strcmp]
    | cons b bs =>
      rw [strcmp, cons.injEq]
      rcases lt_trichotomy a b with hlt | rfl | hgt
      · simp [hlt, hlt.ne]
      · simpa using ih
      · simp [hgt, hgt.not_gt, hgt.ne']

theorem strncmp_eq_iff {n : Nat} {as bs : List α} :
    strncmp n as bs = .eq ↔ as.take n = bs.take n := by
  induction n generalizing as bs with
  | zero => simp [strncmp]
  | succ n ih =>
    cases as with
    | nil => cases bs <;> simp [strncmp]
    | cons a as =>
      cases bs with
      | nil => simp [strncmp]
      | cons b bs =>
        rw [strncmp, take_succ_cons, take_succ_cons, cons.injEq]
        rcases lt_trichotomy a b with hlt | rfl | hgt
        · simp [hlt, hlt.ne]
        · simpa using ih
        · simp [hgt, hgt.not_gt, hgt.ne']

/-- Compared on the length of the second string, `strncmp` tests whether the first one starts
with it. -/
theorem strncmp_length_iff {as bs : List α} :
    strncmp bs.length as bs = .eq ↔ bs <+: as := by
  rw [strncmp_eq_iff, take_length, prefix_iff_eq_take, eq_comm]

/-- What comes before a string below the key is below the key. -/
theorem strncmp_lt_of_le {n : Nat} {as bs key : List α} (hle : strcmp as bs ≠ .gt)
    (hlt : strncmp n bs key = .lt) : strncmp n as key = .lt := by
  induction n generalizing as bs key with
  | zero => simp [strncmp] at hlt
  | succ n ih =>
    rcases key with _ | ⟨k, key⟩
    · cases bs <;> simp [strncmp] at hlt
    rcases as with _ | ⟨a, as⟩
    · rfl
    rcases bs with _ | ⟨b, bs⟩
    · simp [strcmp] at hle
    rw [strncmp] at hlt ⊢
    rw [strcmp] at hle
    rcases lt_trichotomy a b with hab | rfl | hab
    · rcases lt_trichotomy b k with hbk | rfl | hbk
      · simp [hab.trans hbk]
      · simp [hab]
      · simp [hbk, hbk.not_gt] at hlt
    · rcases lt_trichotomy a k with hak | rfl | hak
      · simp [hak]
      · simp only [lt_irrefl, if_false] at hlt hle ⊢
        exact ih hle hlt
      · simp [hak, hak.not_gt] at hlt
    · simp [hab, hab.not_gt] at hle

variable {β : Type*} [DecidableEq β] {sep : β} {token : List β}

/-- `strtok_r`, with the empty token where the C routine has no more tokens. -/
def stringToken (sep : β) (text : List β) : List β × List β :=
  let start := text.dropWhile (· = sep)
  (start.takeWhile (· ≠ sep), (start.dropWhile (· ≠ sep)).tail)

/-- Texts with a separator between each two of them. -/
def joined (sep : β) : List (List β) → List β
  | [] => []
  | [token] => token
  | token :: tokens => token ++ sep :: joined sep tokens

theorem dropWhile_sep (ht : token ≠ []) (hs : sep ∉ token) (rest : List β) :
    (token ++ rest).dropWhile (· = sep) = token ++ rest := by
  cases token with
  | nil => exact absurd rfl ht
  | cons c token =>
    have hc : c ≠ sep := fun h => hs (h ▸ mem_cons_self)
    simp [hc]

theorem forall_ne_sep (hs : sep ∉ token) : ∀ c ∈ token, decide (c ≠ sep) = true :=
  fun _ hc => decide_eq_true fun h => hs (h ▸ hc)

@[simp] theorem stringToken_nil : stringToken sep [] = ([], []) := rfl

theorem stringToken_last (ht : token ≠ []) (hs : sep ∉ token) :
    stringToken sep token = (token, []) := by
  have hstart := dropWhile_sep ht hs []
  rw [append_nil] at hstart
  rw [stringToken, hstart, takeWhile_eq_self_iff.mpr (forall_ne_sep hs),
    dropWhile_eq_nil_iff.mpr (forall_ne_sep hs), tail_nil]

theorem stringToken_sep (ht : token ≠ []) (hs : sep ∉ token) (rest : List β) :
    stringToken sep (token ++ sep :: rest) = (token, rest) := by
  rw [stringToken, dropWhile_sep ht hs, takeWhile_append_of_pos (forall_ne_sep hs),
    dropWhile_append_of_pos (forall_ne_sep hs)]
  simp

/-- The first token of joined texts is the first of them. -/
theorem stringToken_joined (ht : token ≠ []) (hs : sep ∉ token) (tokens : List (List β)) :
    stringToken sep (joined sep (token :: tokens)) = (token, joined sep tokens) := by
  cases tokens with
  | nil => exact stringToken_last ht hs
  | cons next tokens => exact stringToken_sep ht hs _

omit [DecidableEq β] in
theorem mem_joined {c tokens} (hc : c ∈ joined sep tokens) : c = sep ∨ ∃ t ∈ tokens, c ∈ t := by
  induction tokens with
  | nil => exact absurd hc not_mem_nil
  | cons t tokens ih =>
    cases tokens with
    | nil => exact .inr ⟨t, mem_cons_self, hc⟩
    | cons next tokens =>
      rw [joined, mem_append, mem_cons] at hc
      · rcases hc with hc | hc | hc
        · exact .inr ⟨t, mem_cons_self, hc⟩
        · exact .inl hc
        · exact (ih hc).imp_right fun ⟨u, hu, hcu⟩ => ⟨u, mem_cons_of_mem _ hu, hcu⟩
      · simp

omit [DecidableEq β] in
theorem length_le_joined (tokens : List (List β)) (ht : ∀ t ∈ tokens, t ≠ []) :
    tokens.length ≤ (joined sep tokens).length := by
  induction tokens with
  | nil => exact Nat.zero_le _
  | cons t tokens ih =>
    have hpos := length_pos_iff.mpr (ht t mem_cons_self)
    have hrest := ih (forall_mem_cons.mp ht).2
    cases tokens with
    | nil => exact hpos
    | cons next tokens =>
      simp only [joined, length_append, length_cons] at hrest ⊢
      omega

/-- `atoi` on a text without a sign. -/
def atoi (text : List Char) : Nat :=
  Nat.ofDigitChars 10 (text.takeWhile Char.isDigit) 0

end LStore.Base.CString
